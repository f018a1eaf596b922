import RiscvOsLab.Fs.File
import RiscvOsLab.Kernel.Kalloc

/-!
# The kernel's state (`kernel/include/proc.h`)

`struct proc` with the fields that the modelled functions read: a pointer to a `struct proc` or a
`struct file` is a slot of its table, a channel is the process slept on (`sleep` is only called by `wait`,
with the caller itself), a trapframe is the address of its page. The saved context belongs to the machine of
the scheduler.
-/

namespace RiscvOsLab.Kernel

open Prog Function
open RiscvOsLab.Fs

/-- Slots of the process table. -/
def NPROC : Nat := 64

instance : NeZero NPROC := ⟨by decide⟩

theorem nproc_pos : 0 < NPROC := by decide

/-- File descriptors of a process. -/
def NOFILE : Nat := 16

theorem one_lt_nofile : 1 < NOFILE := by decide

/-- Size of the buffer for a path. -/
def MAXPATH : Nat := 128

/-- The first slot that passes a test. -/
theorem find?_finRange {n : Nat} {q : Fin n → Bool} {i : Fin n} (h : (List.finRange n).find? q = some i) :
    q i = true ∧ ∀ k < i, q k = false := by
  obtain ⟨hq, j, hj, hi, hbefore⟩ := List.find?_eq_some_iff_getElem.1 h
  rw [List.getElem_finRange] at hi
  refine ⟨hq, fun k hk => ?_⟩
  have hkj : k.val < j := by
    rw [← hi] at hk
    exact hk
  have hno := hbefore k.val hkj
  rw [List.getElem_finRange] at hno
  simpa using hno

inductive TaskStatus where
  | free
  | allocated
  | ready
  | running
  | sleeping
  | zombie
  deriving DecidableEq

structure Proc where
  status : TaskStatus
  pid : Nat
  trapframe : Nat
  kstack : Nat
  ofile : Fin NOFILE → Option (Fin NFILE)
  parent : Option (Fin NPROC)
  chan : Option (Fin NPROC)
  xstate : Int32

structure Machine where
  files : Files
  phys : Phys
  proc : Fin NPROC → Proc
  nextpid : Nat

namespace Machine

def setProc (s : Machine) (p : Fin NPROC) (v : Proc) : Machine := { s with proc := update s.proc p v }

@[simp] theorem setProc_files (s : Machine) (p : Fin NPROC) (v : Proc) : (s.setProc p v).files = s.files := rfl
@[simp] theorem setProc_phys (s : Machine) (p : Fin NPROC) (v : Proc) : (s.setProc p v).phys = s.phys := rfl

@[simp] theorem setProc_self (s : Machine) (p : Fin NPROC) (v : Proc) : (s.setProc p v).proc p = v :=
  update_self _ _ _

theorem setProc_of_ne {p q : Fin NPROC} (h : q ≠ p) (s : Machine) (v : Proc) :
    (s.setProc p v).proc q = s.proc q := update_of_ne h _ _

end Machine

def liftFiles {α : Type} (p : Prog Files α) : Prog Machine α :=
  p.zoom Machine.files fun t s => { s with files := t }

def liftPhys {α : Type} (p : Prog Phys α) : Prog Machine α := p.zoom Machine.phys fun t s => { s with phys := t }

section Wp
variable {α : Type} {Q : α → Machine → Prop} {E : Halt → Prop} {s : Machine}

@[simp] theorem wp_liftFiles (p : Prog Files α) :
    (liftFiles p).wp Q E s ↔ p.wp (fun a t => Q a { s with files := t }) E s.files :=
  wp_zoom Machine.files (fun t s => { s with files := t }) (fun _ _ => rfl) (fun _ _ _ => rfl) (fun _ => rfl) p

@[simp] theorem wp_liftPhys (p : Prog Phys α) :
    (liftPhys p).wp Q E s ↔ p.wp (fun a t => Q a { s with phys := t }) E s.phys :=
  wp_zoom Machine.phys (fun t s => { s with phys := t }) (fun _ _ => rfl) (fun _ _ _ => rfl) (fun _ => rfl) p

end Wp

end RiscvOsLab.Kernel
