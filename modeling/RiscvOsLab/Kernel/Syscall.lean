import RiscvOsLab.Kernel.Isolation
import RiscvOsLab.Trap.Machine

/-!
# System calls and their registers (`kernel/syscall/syscall.c`, `sysproc.c`, and `usertrap`, `usertrapret` of `trap.c`)

`syscall` reads its number and its arguments from the trapframe of the caller, a page of physical memory, and puts its
result there. `myproc()` is `p`. What `syscall` prints for a number it does not know is left out.

* `syscall` : the dispatch, over the calls of `Kernel.Proc` and `Kernel.Sysfile`;
* `Sys` : the kernel, and where each process is between its traps;
* `SysStep` : user code up to its next trap, and what `usertrap` does about it.
-/

namespace RiscvOsLab.Kernel

open Prog Function
open Trap (Field Reg Image)

/-! ## Trapframes -/

namespace Machine

/-- `p->trapframe->f`. -/
def tf (s : Machine) (p : Fin NPROC) (f : Field) : UInt64 := s.phys.mem ((s.proc p).trapframe + f.offset)

/-- `p->trapframe->f = v`. -/
def setTf (s : Machine) (p : Fin NPROC) (f : Field) (v : UInt64) : Machine :=
  { s with phys := { s.phys with mem := update s.phys.mem ((s.proc p).trapframe + f.offset) v } }

/-- What `p` is to go on with in user mode. -/
def userImage (s : Machine) (p : Fin NPROC) : Image := ⟨fun r => (s.tf p (.reg r)).toBitVec, (s.tf p .epc).toBitVec⟩

/-- The byte at an address. -/
def byte (s : Machine) (a : UInt64) : UInt8 :=
  (s.phys.mem (a.toNat / 8 * 8) >>> UInt64.ofNat (8 * (a.toNat % 8))).toUInt8

end Machine

/-- An `int` as the `uint64` that is returned. -/
def intWord (x : Int) : UInt64 := UInt64.ofInt x

def argraw (p : Fin NPROC) : Nat → Prog Machine UInt64
  | 0 => gets fun s => s.tf p (.reg .a0)
  | 1 => gets fun s => s.tf p (.reg .a1)
  | 2 => gets fun s => s.tf p (.reg .a2)
  | 3 => gets fun s => s.tf p (.reg .a3)
  | 4 => gets fun s => s.tf p (.reg .a4)
  | 5 => gets fun s => s.tf p (.reg .a5)
  | _ => .panic "argraw: invalid argument index"

/-! ## The calls -/

/-- How far a call comes before the next `swtch` or its end. -/
inductive CallEnd where
  | value (v : UInt64)
  /-- A `fork` with its child. -/
  | forked (child : Fin NPROC) (v : UInt64)
  /-- Inside `sleep`, in `wait(addr)`. -/
  | asleep (addr : UInt64)
  | exited
  deriving DecidableEq

def CallEnd.result : CallEnd → Option UInt64
  | .value v => some v
  | .forked _ v => some v
  | _ => none

def sysGetpid (p : Fin NPROC) : Prog Machine CallEnd := do
  let pid ← gets fun s => (s.proc p).pid
  return .value (intWord pid)

def sysExit (p : Fin NPROC) : Prog Machine CallEnd := do
  let n ← argraw p 0
  exit p (argint n).toInt32
  return .exited

def sysFork (p : Fin NPROC) : Prog Machine CallEnd := do
  match ← fork p with
  | none => return .value (intWord (-1))
  | some np =>
      let pid ← gets fun s => (s.proc np).pid
      return .forked np (intWord pid)

/-- `*(int *)addr = child->xstate`, if there is a zombie for `p` and `addr` is not null. -/
def storeStatus (p : Fin NPROC) (addr : UInt64) (s : Machine) : Machine :=
  match (List.finRange NPROC).find? fun c => (s.proc c).parent == some p && (s.proc c).status == .zombie with
  | some c => if addr ≠ 0 then s.store addr.toNat (intBytes (s.proc c).xstate) else s
  | none => s

/-- One pass of the loop of `wait(addr)`. -/
def waitLoop (p : Fin NPROC) (addr : UInt64) : Prog Machine CallEnd := do
  modify (storeStatus p addr)
  match ← waitPass p with
  | .reaped pid _ => return .value (intWord pid)
  | .nokids => return .value (intWord (-1))
  | .asleep => return .asleep addr

def sysWait (p : Fin NPROC) : Prog Machine CallEnd := do
  let addr ← argraw p 0
  waitLoop p addr

def sysSbrk : Prog Machine CallEnd := return .value (intWord (-1))

/-- The calls of `sysfile.c`, with their arguments; `sys_read` stores at its address. -/
def sysFile (p : Fin NPROC) (c : FileCall) : Prog Machine CallEnd := do
  let a0 ← argraw p 0
  let a1 ← argraw p 1
  let a2 ← argraw p 2
  let mem ← gets Machine.byte
  let (r, data) ← fileCall p ⟨a0, a1, a2, mem⟩ c
  modify fun s => s.store a1.toNat data
  return .value (intWord r)

/-- The entries of `syscalls`. -/
inductive SysCall where
  | fork
  | exit
  | wait
  | getpid
  | sbrk
  | file (c : FileCall)
  deriving DecidableEq

def syscalls : Nat → Option SysCall
  | 1 => some .fork
  | 2 => some .exit
  | 3 => some .wait
  | 11 => some .getpid
  | 12 => some .sbrk
  | 13 => some (.file .read)
  | 15 => some (.file .open)
  | 16 => some (.file .write)
  | 17 => some (.file .close)
  | _ => none

/-- `NELEM(syscalls)`. -/
def NSYSCALLS : Nat := 18

/-- The call that `a7` asks for: `int num = a7`, inside the table. -/
def callOf (a7 : UInt64) : Option SysCall :=
  let num := a7.toUInt32.toInt32.toInt
  if 0 < num ∧ num < NSYSCALLS then syscalls num.toNat else none

def SysCall.run (p : Fin NPROC) : SysCall → Prog Machine CallEnd
  | .fork => sysFork p
  | .exit => sysExit p
  | .wait => sysWait p
  | .getpid => sysGetpid p
  | .sbrk => sysSbrk
  | .file c => sysFile p c

/-- `p->trapframe->a0 = ...`, once there is a result. -/
def setResult (p : Fin NPROC) (e : CallEnd) : Prog Machine Unit :=
  match e.result with
  | some v => modify fun s => s.setTf p (.reg .a0) v
  | none => return ()

/-- `syscalls[num]()`, or -1. -/
def dispatchCall (p : Fin NPROC) : Option SysCall → Prog Machine CallEnd
  | some c => c.run p
  | none => return .value (intWord (-1))

def syscall (p : Fin NPROC) : Prog Machine CallEnd := do
  let a7 ← gets fun s => s.tf p (.reg .a7)
  let e ← dispatchCall p (callOf a7)
  setResult p e
  return e

/-- The branch of `usertrap` for a system call, up to `usertrapret()`. -/
def usertrapCall (p : Fin NPROC) : Prog Machine CallEnd := do
  modify fun s => s.setTf p .epc (s.tf p .epc + 4)
  syscall p

/-- The end of `sleep` in `wait(addr)`, and what comes after it. -/
def wakeCall (p : Fin NPROC) (addr : UInt64) : Prog Machine CallEnd := do
  modify fun s => s.modProc p fun v => { v with chan := none }
  let e ← waitLoop p addr
  setResult p e
  return e

/-! ## Between the traps -/

/-- What `usertrapret` puts into every trapframe. -/
structure KernelWords where
  usertrap : UInt64
  hartid : UInt64
  satp : UInt64

/-- The trapframe at the end of `usertrapret`. -/
def Machine.usertrapret (s : Machine) (K : KernelWords) (p : Fin NPROC) : Machine :=
  let s := s.setTf p .kernelSp (UInt64.ofNat ((s.proc p).kstack + PGSIZE))
  let s := s.setTf p .kernelTrap K.usertrap
  let s := s.setTf p .kernelHartid K.hartid
  s.setTf p .kernelSatp K.satp

/-- What `user_trap_entry` stores. -/
def Machine.trapEntry (s : Machine) (p : Fin NPROC) (i : Image) : Machine :=
  (Reg.all.foldl (fun s r => s.setTf p (.reg r) (.ofBitVec (i.reg r))) s).setTf p .epc (.ofBitVec i.pc)

/-- Where a process goes on when it runs. -/
inductive Resume where
  /-- In user mode. -/
  | user
  /-- In `usertrap`, before it looks at the cause. -/
  | trapped
  /-- Inside `sleep`, in `wait(addr)`. -/
  | wait (addr : UInt64)
  deriving DecidableEq

structure Sys where
  m : Machine
  place : Fin NPROC → Resume

/-- The kernel has come to the end of a call, or to a `swtch` in it. -/
def Sys.ended (s : Sys) (p : Fin NPROC) (e : CallEnd) (m : Machine) : Sys where
  m := m
  place := match e with
    | .value _ => update s.place p .user
    | .forked c _ => update (update s.place p .user) c .user
    | .asleep addr => update s.place p (.wait addr)
    | .exited => s.place

/-- A word that user code may write. -/
def UserWritable (root : Nat) (s : Machine) (a : Nat) : Prop :=
  ∃ va < MAXVA, ∃ e, leafEntry s.phys root va = some e ∧ PTE_FLAGS e &&& PTE_U ≠ 0 ∧ PTE_FLAGS e &&& PTE_W ≠ 0 ∧
    OnPage (PTE2PA e) a

/-- The places where the call that `p` makes may store: the buffer of `read` and the status of `wait`. -/
structure Pointers (mayStore : Nat → Prop) (s : Machine) (p : Fin NPROC) : Prop where
  read : callOf (s.tf p (.reg .a7)) = some (.file .read) → 0 ≤ (argint (s.tf p (.reg .a2))).toInt32.toInt ∧
    ∀ i : Nat, i < (argint (s.tf p (.reg .a2))).toInt32.toInt → mayStore ((s.tf p (.reg .a1)).toNat + i)
  wait : callOf (s.tf p (.reg .a7)) = some .wait → s.tf p (.reg .a0) ≠ 0 →
    ∀ i < 4, mayStore ((s.tf p (.reg .a0)).toNat + i)

inductive UserEvent where
  | idle
  /-- User code has run, and trapped with these registers. -/
  | user (p : Fin NPROC) (i : Image)
  | call (p : Fin NPROC) (e : CallEnd)
  | woken (p : Fin NPROC) (e : CallEnd)

/-- The steps of the kernel with its user code: the scheduler dispatches a process, user code runs from one trap to the
next, `usertrap` deals with the trap, a timer tick in the kernel takes the processor away. -/
inductive SysStep (K : KernelWords) (root : Nat) (mayStore : Nat → Prop) (s : Sys) : UserEvent → Sys → Prop
  | dispatch {p : Fin NPROC} : (∀ q, (s.m.proc q).status ≠ .running) → (s.m.proc p).status = .ready →
      SysStep K root mayStore s .idle { s with m := s.m.modProc p fun v => { v with status := .running } }
  | preempt {p : Fin NPROC} : (s.m.proc p).status = .running → s.place p ≠ .user →
      SysStep K root mayStore s .idle { s with m := s.m.modProc p fun v => { v with status := .ready } }
  | user {p : Fin NPROC} {i : Image} {mem : Nat → UInt64} : (s.m.proc p).status = .running → s.place p = .user →
      (∀ a, ¬ UserWritable root s.m a → mem a = (s.m.usertrapret K p).phys.mem a) →
      SysStep K root mayStore s (.user p i)
        { m := Machine.trapEntry { s.m with phys := { s.m.phys with mem } } p i, place := update s.place p .trapped }
  | call {p : Fin NPROC} {e : CallEnd} {m : Machine} : (s.m.proc p).status = .running → s.place p = .trapped →
      Pointers mayStore s.m p → (usertrapCall p).run s.m = .ok (e, m) →
      SysStep K root mayStore s (.call p e) (s.ended p e m)
  | woken {p : Fin NPROC} {addr : UInt64} {e : CallEnd} {m : Machine} : (s.m.proc p).status = .running →
      s.place p = .wait addr → (wakeCall p addr).run s.m = .ok (e, m) →
      SysStep K root mayStore s (.woken p e) (s.ended p e m)
  | timer {p : Fin NPROC} : (s.m.proc p).status = .running → s.place p = .trapped →
      SysStep K root mayStore s .idle
        { m := s.m.modProc p fun v => { v with status := .ready }, place := update s.place p .user }
  | external {p : Fin NPROC} : (s.m.proc p).status = .running → s.place p = .trapped →
      SysStep K root mayStore s .idle { s with place := update s.place p .user }

end RiscvOsLab.Kernel
