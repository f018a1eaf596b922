import RiscvOsLab.Kernel.Sysfile
import RiscvOsLab.Mkfs.Mkfs

/-!
# Processes (`kernel/proc/proc.c`), one call at a time

`allocproc`, `userinit`, `fork`, `exit` and `wait` over the whole kernel state, each run without a switch
inside. `wait` is its pass over the table: a pass that finds children and no zombie ends asleep, and the
caller makes the next pass when it runs again. The page table, the name and the saved context are left out:
nothing here reads them back.
-/

namespace RiscvOsLab.Kernel

open Prog Function
open RiscvOsLab.Fs

/-- Offsets of fields of `struct trapframe`. -/
def TF_EPC : Nat := 24
def TF_SP : Nat := 48
def TF_A0 : Nat := 112

namespace Machine

/-- One field or several of a slot are assigned. -/
def modProc (s : Machine) (p : Fin NPROC) (f : Proc → Proc) : Machine := s.setProc p (f (s.proc p))

@[simp] theorem modProc_files (s : Machine) (p : Fin NPROC) (f : Proc → Proc) :
    (s.modProc p f).files = s.files := rfl

@[simp] theorem modProc_self (s : Machine) (p : Fin NPROC) (f : Proc → Proc) :
    (s.modProc p f).proc p = f (s.proc p) := update_self _ _ _

theorem modProc_of_ne {p q : Fin NPROC} (h : q ≠ p) (s : Machine) (f : Proc → Proc) :
    (s.modProc p f).proc q = s.proc q := update_of_ne h _ _

end Machine

def allocpid : Prog Machine Nat := do
  let pid ← gets Machine.nextpid
  modify fun s => { s with nextpid := pid + 1 }
  return pid

def procinit : Prog Machine Unit :=
  modify fun s => { s with proc := fun p => { s.proc p with status := .free } }

/-- The first free slot. -/
def freeSlot (s : Machine) : Option (Fin NPROC) :=
  (List.finRange NPROC).find? fun p => (s.proc p).status == .free

def allocproc : Prog Machine (Option (Fin NPROC)) := do
  let s ← get
  match freeSlot s with
  | none => return none
  | some p =>
      let pid ← allocpid
      modify fun s => s.modProc p fun v => { v with pid }
      let trapframe ← liftPhys kalloc
      modify fun s => s.modProc p fun v => { v with trapframe }
      if trapframe = 0 then
        modify fun s => s.modProc p fun v => { v with status := .free }
        return none
      else
        modify fun s => s.modProc p fun v =>
          { v with status := .allocated, parent := none, chan := none, xstate := 0 }
        return some p

/-- The words of a page are copied. -/
def copyPage (dst src : Nat) : Prog Phys Unit :=
  modify fun s => { s with mem := fun a => if dst ≤ a ∧ a < dst + PGSIZE then s.mem (src + (a - dst)) else s.mem a }

/-- A word of memory is assigned. -/
def putWord (a : Nat) (v : UInt64) : Prog Phys Unit := modify fun s => { s with mem := update s.mem a v }

def userinit : Prog Machine Unit := do
  match ← allocproc with
  | none => .panic "userinit: allocproc failed"
  | some p =>
      let kstack ← liftPhys kalloc
      modify fun s => s.modProc p fun v => { v with kstack }
      if kstack = 0 then .panic "userinit: kalloc kstack failed" else
      let code ← liftPhys kalloc
      if code = 0 then .panic "userinit: kalloc user code failed" else
      let stack ← liftPhys kalloc
      if stack = 0 then .panic "userinit: kalloc user stack failed" else
      let trapframe ← gets fun s => (s.proc p).trapframe
      liftPhys (modify fun s => { s with mem := zeroPage s.mem trapframe })
      liftPhys (putWord (trapframe + TF_EPC) (UInt64.ofNat code))
      liftPhys (putWord (trapframe + TF_SP) (UInt64.ofNat (stack + PGSIZE)))
      modify fun s => s.modProc p fun v => { v with parent := none }
      modify fun s => s.modProc p fun v => { v with status := .ready }

/-- `myproc()` is `p`. The child's slot, if there is one: the source returns its pid, or -1. -/
def fork (p : Fin NPROC) : Prog Machine (Option (Fin NPROC)) := do
  match ← allocproc with
  | none => return none
  | some np =>
      let kstack ← liftPhys kalloc
      modify fun s => s.modProc np fun v => { v with kstack }
      if kstack = 0 then
        modify fun s => s.modProc np fun v => { v with status := .free }
        return none
      else
        let dst ← gets fun s => (s.proc np).trapframe
        let src ← gets fun s => (s.proc p).trapframe
        liftPhys (copyPage dst src)
        liftPhys (putWord (dst + TF_A0) 0)
        modify fun s => s.modProc np fun v => { v with parent := some p }
        modify fun s => s.modProc np fun v => { v with status := .ready }
        return some np

/-- The pass of `wakeup(chan)` over the table, made by `p`. -/
def Machine.wake (s : Machine) (p : Fin NPROC) (chan : Option (Fin NPROC)) : Machine :=
  { s with proc := fun q =>
    let wakes := q ≠ p ∧ (s.proc q).status = .sleeping ∧ (s.proc q).chan = chan
    if wakes then { s.proc q with status := .ready } else s.proc q }

/-- The children of `p` are handed to init. -/
def Machine.reparent (s : Machine) (p : Fin NPROC) : Machine :=
  { s with proc := fun q =>
    if (s.proc q).parent = some p then { s.proc q with parent := some ⟨0, by decide⟩ } else s.proc q }

def wakeup (p : Fin NPROC) (chan : Option (Fin NPROC)) : Prog Machine Unit := modify fun s => s.wake p chan

/-- Up to the `swtch` that does not return. -/
def exit (p : Fin NPROC) (status : Int32) : Prog Machine Unit := do
  modify fun s => s.modProc p fun v => { v with xstate := status }
  modify fun s => s.reparent p
  let parent ← gets fun s => (s.proc p).parent
  wakeup p parent
  modify fun s => s.modProc p fun v => { v with status := .zombie }

namespace Machine

variable (s : Machine) (p q : Fin NPROC) (chan : Option (Fin NPROC))

@[simp] theorem wake_files : (s.wake p chan).files = s.files := rfl

@[simp] theorem wake_ofile : ((s.wake p chan).proc q).ofile = (s.proc q).ofile := by
  simp only [wake]
  split <;> rfl

theorem wake_status : ((s.wake p chan).proc q).status = (s.proc q).status ∨
    (s.proc q).status = .sleeping ∧ ((s.wake p chan).proc q).status = .ready := by
  simp only [wake]
  split
  · rename_i h
    exact .inr ⟨h.2.1, rfl⟩
  · exact .inl rfl

@[simp] theorem reparent_files : (s.reparent p).files = s.files := rfl

@[simp] theorem reparent_ofile : ((s.reparent p).proc q).ofile = (s.proc q).ofile := by
  simp only [reparent]
  split <;> rfl

@[simp] theorem reparent_status : ((s.reparent p).proc q).status = (s.proc q).status := by
  simp only [reparent]
  split <;> rfl

end Machine

/-- `kfree` of a pointer that may be null. -/
def kfreePtr (pa : Nat) : Prog Machine Unit :=
  if pa ≠ 0 then liftPhys (kfree pa) else return ()

/-- The ways a pass of `wait` ends. -/
inductive WaitEnd where
  | reaped (pid : Nat) (xstate : Int32)
  | nokids
  | asleep
deriving DecidableEq

/-- One pass of `wait` over the table; the exit code is what the source stores at a non-null `addr`. -/
def waitPass (p : Fin NPROC) : Prog Machine WaitEnd := do
  let s ← get
  match (List.finRange NPROC).find? fun c => (s.proc c).parent == some p && (s.proc c).status == .zombie with
  | some c =>
      let child ← gets fun s => s.proc c
      modify fun s => s.modProc c fun v => { v with status := .free, pid := 0, parent := none }
      kfreePtr child.trapframe
      modify fun s => s.modProc c fun v => { v with trapframe := 0 }
      kfreePtr child.kstack
      modify fun s => s.modProc c fun v => { v with kstack := 0 }
      return .reaped child.pid child.xstate
  | none =>
      if (List.finRange NPROC).any fun c => (s.proc c).parent == some p then
        modify fun s => s.modProc p fun v => { v with chan := some p }
        modify fun s => s.modProc p fun v => { v with status := .sleeping }
        return .asleep
      else return .nokids

/-- The end of `sleep`, when the process runs again, and the next pass. -/
def waitResume (p : Fin NPROC) : Prog Machine WaitEnd := do
  modify fun s => s.modProc p fun v => { v with chan := none }
  waitPass p

/-! ## The kernel from its start -/

/-- Zeroed kernel memory over a disk; `end` is the first address past the kernel. -/
def Machine.image (disk : Nat → Block) (endAddress : Nat) : Machine where
  files :=
    { fs :=
        { dev := Dev.boot disk
          sb := ⟨0, 0, 0, 0, 0, 0, 0, 0⟩
          icache := fun _ => { dev := 0, inum := 0, ref := 0, valid := false, din := Dinode.zero } }
      ftable := fun _ => { type := .none, ref := 0, readable := false, writable := false, ip := none, off := 0 } }
  phys := { endAddress, freeMemList := 0, mem := fun _ => 0 }
  proc := fun _ =>
    { status := .free, pid := 0, trapframe := 0, kstack := 0, ofile := fun _ => none, parent := none,
      chan := none, xstate := 0 }
  nextpid := 1

/-- `start_main` up to `scheduler`; the kernel's page table takes `pages` pages. -/
def startMain (pages : Nat) : Prog Machine Unit := do
  liftPhys kinit
  forN (fun _ => do let _ ← liftPhys kalloc) pages
  procinit
  liftFiles (liftFs (lift binit))
  liftFiles (liftFs (fsinit ROOTDEV))
  userinit

/-- The kernel at the end of `start_main`, over an image of `mkfs`. -/
def Booted (s : Machine) : Prop := ∃ total img endAddress pages, Mkfs.Makes total img ∧
  (startMain pages).run (Machine.image img.blocks endAddress) = .ok ((), s)

/-- A process runs: the scheduler dispatches it, a timer tick takes the processor from it, or it completes a
call, of which `wait` may have to be continued after a sleep. The runs of interest may restrict `exit`. -/
inductive Step (mayExit : Machine → Fin NPROC → Prop) : Machine → Machine → Prop
  | dispatch {s : Machine} {p : Fin NPROC} : (∀ q, (s.proc q).status ≠ .running) → (s.proc p).status = .ready →
      Step mayExit s (s.modProc p fun v => { v with status := .running })
  | tick {s : Machine} {p : Fin NPROC} : (s.proc p).status = .running →
      Step mayExit s (s.modProc p fun v => { v with status := .ready })
  | file {s s' : Machine} {p : Fin NPROC} {a : Args} {c : FileCall} {r : Int × List UInt8} :
      (s.proc p).status = .running → (s.proc p).chan = none → (fileCall p a c).run s = .ok (r, s') → Step mayExit s s'
  | fork {s s' : Machine} {p : Fin NPROC} {r : Option (Fin NPROC)} :
      (s.proc p).status = .running → (s.proc p).chan = none → (fork p).run s = .ok (r, s') → Step mayExit s s'
  | exit {s s' : Machine} {p : Fin NPROC} {status : Int32} {r : Unit} : mayExit s p →
      (s.proc p).status = .running → (s.proc p).chan = none → (exit p status).run s = .ok (r, s') → Step mayExit s s'
  | wait {s s' : Machine} {p : Fin NPROC} {r : WaitEnd} :
      (s.proc p).status = .running → (s.proc p).chan = none → (waitPass p).run s = .ok (r, s') → Step mayExit s s'
  | woken {s s' : Machine} {p : Fin NPROC} {r : WaitEnd} :
      (s.proc p).status = .running → (s.proc p).chan ≠ none → (waitResume p).run s = .ok (r, s') → Step mayExit s s'

end RiscvOsLab.Kernel
