import RiscvOsLab.Trap.Entry
import RiscvOsLab.Proc.Hart

/-!
# The hart through traps and switches (`trap.c`, `proc.c`, with the assembly of `Trap.Entry`)

Registers, memory and the control registers of one hart. What the assembly does is executed instruction by
instruction; what `trap.c` does to control registers and trapframes stands in the steps; all other code is
`activity`: it may leave anything in the registers, and anything in the memory that no trapframe, context or frame
of an interrupted thread lies in (`Protected`). A process is a thread with a `Place` in `usertrap`; on top of it, as
on the scheduler, stand the calls of `sys_trap_handler` that have not returned (`Act`).

History variables say what each return is to bring back: `image` (the user registers and pc), `Act.reg`,
`Suspended.reg`. A return that brings back anything else leaves the state `lost`, from which there is no step: the
code that was interrupted does not go on.
-/

namespace RiscvOsLab.Trap

open Function Riscv
open RiscvOsLab.Kernel (NPROC TaskStatus)
open RiscvOsLab.Proc (Thread Ctx)

/-- The fields of `sstatus` that traps use. -/
structure Sstatus where
  sie : Bool
  spie : Bool
  spp : Bool
  deriving DecidableEq

/-- What `stvec` holds. -/
inductive Vector where
  | sysTrapVector
  | userTrapEntry
  deriving DecidableEq

inductive Cause where
  | timer
  | external
  | ecall
  deriving DecidableEq

structure Core extends Cpu Reg Csr where
  pc : Word
  sstatus : Sstatus
  stvec : Vector
  /-- The hart is in U-mode. -/
  user : Bool

namespace Core

/-- What the hart does to take a trap, before the first instruction of the vector. -/
def trap (c : Core) : Core :=
  { c with csr := update c.csr .sepc c.pc, sstatus := ⟨false, c.sstatus.sie, !c.user⟩, user := false }

def sret (c : Core) : Core :=
  { c with pc := c.csr .sepc, sstatus := ⟨c.sstatus.spie, true, false⟩, user := !c.sstatus.spp }

def exec (c : Core) (p : List (Instr Reg Csr)) : Core := { c with toCpu := Riscv.exec p c.toCpu }

end Core

/-- Addresses the linker fixes: the contexts, which do not overlap, and two functions; and the value of `satp`. -/
structure Layout where
  ctx : Ctx → Word
  forkret : Word
  usertrap : Word
  satp : Word
  apart : ∀ c c' x, Area (ctx c) contextSize x → Area (ctx c') contextSize x → c = c'

/-- How far a call of `sys_trap_handler` is. -/
inductive Phase where
  /-- It may still call `yield`. -/
  | timer
  | handled
  /-- Between `w_sepc(sepc)` and `w_sstatus(sstatus)`. -/
  | window
  deriving DecidableEq

/-- A call of `sys_trap_handler` : its frame, what it was entered with, of which `sepc` and `sstatus` are its
locals. -/
structure Act where
  base : Word
  reg : Reg → Word
  sepc : Word
  sstatus : Sstatus
  phase : Phase

/-- What a `swtch` has put into a context: the registers of its caller, and what it has still to return to. -/
structure Suspended where
  thread : Thread
  stack : List Act
  reg : Reg → Word

/-- Where the thread of a process is, under the calls of `sys_trap_handler`. -/
inductive Place where
  | user
  /-- In `usertrap`, before `epc += 4`. -/
  | ecall
  /-- In `syscall`, with its `p`. -/
  | syscall (p : Fin NPROC)
  /-- In `usertrap`, before its `yield`. -/
  | timer
  /-- Before `usertrapret`. -/
  | ret

/-- `sys_trap_handler` yields for the timer only. -/
def Cause.phase : Cause → Phase
  | .timer => .timer
  | _ => .handled

/-- The branch of `usertrap`. -/
def Cause.place : Cause → Place
  | .ecall => .ecall
  | .timer => .timer
  | .external => .ret

structure Sys where
  core : Core
  cur : Thread
  /-- `cpu->proc`. -/
  cpuProc : Option (Fin NPROC)
  status : Fin NPROC → TaskStatus
  /-- `p->trapframe`. -/
  tf : Fin NPROC → Word
  kstack : Fin NPROC → Word
  place : Fin NPROC → Place
  stack : Thread → List Act
  saved : Ctx → Option Suspended
  image : Fin NPROC → Image
  lost : Bool

/-! ## Memory that only the steps below write -/

inductive Owner where
  | ctx (c : Ctx)
  | tf (p : Fin NPROC)
  /-- The frame of a call of `sys_trap_handler`, counted from the oldest. -/
  | frame (t : Thread) (i : Nat)
  deriving DecidableEq

def Owns (L : Layout) (s : Sys) : Owner → Word → Prop
  | .ctx c, x => Area (L.ctx c) contextSize x
  | .tf p, x => s.status p ≠ .free ∧ Area (s.tf p) trapframeSize x
  | .frame t i, x => ∃ b, ((s.stack t).map Act.base).reverse[i]? = some b ∧ Area b sysFrameSize x

def Protected (L : Layout) (s : Sys) (x : Word) : Prop := ∃ o, Owns L s o x

namespace Sys

/-- `myproc() != 0 && myproc()->status == TASK_RUNNING`. -/
def Running (s : Sys) : Prop := ∃ p, s.cpuProc = some p ∧ s.status p = .running

/-- `swtch(&old, &new)`. -/
def swtch (L : Layout) (s : Sys) (old new : Ctx) : Sys :=
  let c := { s.core with reg := update (update s.core.reg .a0 (L.ctx old)) .a1 (L.ctx new) }
  let c' := c.exec Trap.swtch
  let s := { s with
    core := { c' with pc := c'.reg .ra }
    saved := update s.saved old (some ⟨s.cur, s.stack s.cur, c.reg⟩) }
  match s.saved new with
  | some k =>
      { s with
        cur := k.thread
        stack := update s.stack k.thread k.stack
        lost := !decide (∀ r ∈ context, c'.reg r = k.reg r) }
  | none => { s with lost := true }

/-- `usertrapret()` for process `p`, up to the `sret`. -/
def usertrapret (L : Layout) (s : Sys) (p : Fin NPROC) : Core :=
  let m := setField s.core.mem (s.tf p) .kernelSp (s.kstack p + 4096)
  let m := setField m (s.tf p) .kernelTrap L.usertrap
  let m := setField m (s.tf p) .kernelHartid (s.core.reg .tp)
  let m := setField m (s.tf p) .kernelSatp L.satp
  let c := { s.core with
    mem := m
    stvec := .userTrapEntry
    sstatus := { s.core.sstatus with sie := false, spie := true, spp := false }
    reg := update s.core.reg .a0 (s.tf p) }
  c.exec returnToUser

end Sys

/-! ## `fork`, `userinit` -/

/-- `dst[i] = src[i]` for the first `n` double words. -/
def copyWords (m : Memory) (dst src : Word) : Nat → Memory
  | 0 => m
  | n + 1 =>
      let m := copyWords m dst src n
      store m (dst + BitVec.ofNat 64 (8 * n)) (load m (src + BitVec.ofNat 64 (8 * n)))

/-- The context of a new process: cleared, then `ra` and `sp` set. -/
def newContext (L : Layout) (m : Memory) (a kstack : Word) : Memory :=
  let m := writes m a ((List.range 14).map fun i => (8 * i, 0))
  let m := store m (a + BitVec.ofNat 64 (contextOffset .ra)) L.forkret
  store m (a + BitVec.ofNat 64 (contextOffset .sp)) (kstack + 4096)

/-- What `fork` writes: the context, the copy of the parent's trapframe, and `a0`. -/
def childMem (L : Layout) (m : Memory) (ctx kstack tf parent : Word) : Memory :=
  setField (copyWords (newContext L m ctx kstack) tf parent 512) tf (.reg .a0) 0

/-- `dst[i] = 0` for the first `n` double words. -/
def clearWords (m : Memory) (dst : Word) : Nat → Memory
  | 0 => m
  | n + 1 => store (clearWords m dst n) (dst + BitVec.ofNat 64 (8 * n)) 0

/-- What `userinit` writes: the context, and the cleared trapframe with `epc` and `sp`. -/
def userinitMem (L : Layout) (m : Memory) (ctx kstack tf code stack : Word) : Memory :=
  setField (setField (clearWords (newContext L m ctx kstack) tf 512) tf .epc code) tf (.reg .sp) (stack + 4096)

/-- The registers a new process starts with. -/
def newReg (L : Layout) (kstack : Word) : Reg → Word := update (update (fun _ => 0) .ra L.forkret) .sp (kstack + 4096)

/-- The registers of the parent, with `a0 = 0`. -/
def childImage (i : Image) : Image := { i with reg := update i.reg .a0 0 }

/-- At the begin of the code page, with the end of the stack page in `sp`. -/
def firstImage (code stack : Word) : Image := ⟨update (fun _ => 0) .sp (stack + 4096), code⟩

/-- Slot `c` is a process that has never run, with this trapframe and kernel stack. -/
def Sys.made (L : Layout) (s : Sys) (c : Fin NPROC) (tf kstack : Word) (mem : Memory) (i : Image) : Sys :=
  { s with
    core := { s.core with mem }
    status := update s.status c .ready
    tf := update s.tf c tf
    kstack := update s.kstack c kstack
    place := update s.place c .ret
    stack := update s.stack (.proc c) []
    saved := update s.saved (.proc c) (some ⟨.proc c, [], newReg L kstack⟩)
    image := update s.image c i }

/-- The child `c` of process `p`, whose `myproc()` is `r`. -/
def Sys.forked (L : Layout) (s : Sys) (p r c : Fin NPROC) (tf kstack : Word) : Sys :=
  s.made L c tf kstack (childMem L s.core.mem (L.ctx (.proc c)) kstack tf (s.tf r)) (childImage (s.image p))

/-- The first process. -/
def Sys.userinit (L : Layout) (s : Sys) (tf kstack code stack : Word) : Sys :=
  s.made L 0 tf kstack (userinitMem L s.core.mem (L.ctx (.proc 0)) kstack tf code stack) (firstImage code stack)

/-! ## Steps -/

inductive Event where
  | user
  | userTrap (cause : Cause)
  | activity
  | skip
  | result (v : Word)
  | userinit
  | fork (p : Fin NPROC)
  | reap (p : Fin NPROC)
  | wakeup (p : Fin NPROC)
  | pass
  | usertrapret
  | trap (cause : Cause)
  | writeSepc
  | trapReturn
  | intrOn
  | choose (p : Fin NPROC)
  | dispatch
  | clear
  | yield
  | block (status : TaskStatus)
  | astray

/-- The thread of process `p` is in `usertrap`, and no trap is being handled on top of it. -/
structure At (s : Sys) (p : Fin NPROC) (pl : Place) : Prop where
  cur : s.cur = .proc p
  user : s.core.user = false
  stack : s.stack (.proc p) = []
  place : s.place p = pl

/-- The scheduler's own loop runs. -/
structure Scheduling (s : Sys) : Prop where
  cur : s.cur = .sched
  user : s.core.user = false
  stack : s.stack .sched = []

/-- The call of `sys_trap_handler` that runs. -/
structure Handling (s : Sys) (a : Act) (k : List Act) : Prop where
  user : s.core.user = false
  stack : s.stack s.cur = a :: k

namespace Sys

def setPlace (s : Sys) (p : Fin NPROC) (pl : Place) : Sys := { s with place := update s.place p pl }

def setImage (s : Sys) (p : Fin NPROC) (i : Image) : Sys := { s with image := update s.image p i }

def setStatus (s : Sys) (p : Fin NPROC) (st : TaskStatus) : Sys := { s with status := update s.status p st }

def setMem (s : Sys) (m : Memory) : Sys := { s with core := { s.core with mem := m } }

def setSie (s : Sys) (b : Bool) : Sys := { s with core := { s.core with sstatus := { s.core.sstatus with sie := b } } }

/-- The running thread has these calls of `sys_trap_handler` to return from. -/
def setStack (s : Sys) (k : List Act) : Sys := { s with stack := update s.stack s.cur k }

end Sys

/-- `user_trap_entry`, and the first statement of `usertrap`. -/
def Sys.userTrapped (s : Sys) (p : Fin NPROC) (cause : Cause) : Sys :=
  ({ s with core := { (s.core.trap.exec userTrapEntry) with stvec := .sysTrapVector } }.setImage p
    ⟨s.core.reg, s.core.pc⟩).setPlace p cause.place

/-- `sys_trap_vector`, and the locals of `sys_trap_handler`. -/
def Sys.trapped (s : Sys) (cause : Cause) : Sys :=
  { s with core := s.core.trap.exec sysTrapVector }.setStack
    (⟨frameBase (s.core.reg .sp), s.core.reg, s.core.trap.csr .sepc, s.core.trap.sstatus, cause.phase⟩ :: s.stack s.cur)

/-- The registers and control registers at the `sret` of `sys_trap_vector`: `w_sstatus(sstatus)`, the return with the
`sp` of the call, the second half of the assembly. -/
def Sys.trapExit (s : Sys) (a : Act) : Core :=
  { s.core with sstatus := a.sstatus, reg := update s.core.reg .sp a.base }.exec sysTrapReturn

inductive Step (L : Layout) (s : Sys) : Event → Sys → Prop
  | user {reg : Reg → Word} {pc : Word} {m : Memory} : s.core.user = true →
      (∀ x, Protected L s x → m x = s.core.mem x) →
      Step L s .user { s with core := { s.core with reg, pc, mem := m } }
  | activity {reg : Reg → Word} {pc : Word} {m : Memory} : s.core.user = false →
      (∀ x, Protected L s x → m x = s.core.mem x) →
      Step L s .activity { s with core := { s.core with reg, pc, mem := m } }
  | userTrap {p : Fin NPROC} {cause : Cause} : s.core.user = true → s.cur = .proc p →
      s.core.stvec = .userTrapEntry →
      Step L s (.userTrap cause) (s.userTrapped p cause)
  -- p->trapframe->epc += 4; intr_on();
  | skip {p q : Fin NPROC} : At s p .ecall → s.cpuProc = some q →
      Step L s .skip ((((s.setMem (setField s.core.mem (s.tf q) .epc (field s.core.mem (s.tf q) .epc + 4))).setSie
        true).setImage p { s.image p with pc := (s.image p).pc + 4 }).setPlace p (.syscall q))
  -- p->trapframe->a0 = syscalls[num]();
  | result {p q : Fin NPROC} {v : Word} : At s p (.syscall q) →
      Step L s (.result v) (((s.setMem (setField s.core.mem (s.tf q) (.reg .a0) v)).setImage p
        { s.image p with reg := update (s.image p).reg .a0 v }).setPlace p .ret)
  | userinit {tf kstack code stack : Word} : Scheduling s → (∀ p, s.status p = .free) →
      (∀ x, Area tf 4096 x → ¬ Protected L s x) →
      Step L s .userinit (s.userinit L tf kstack code stack)
  | fork {p q r c : Fin NPROC} {tf kstack : Word} : At s p (.syscall q) → s.cpuProc = some r → s.status c = .free →
      (∀ x, Area tf 4096 x → ¬ Protected L s x) →
      Step L s (.fork c) (s.forked L p r c tf kstack)
  | reap {p q c : Fin NPROC} : At s p (.syscall q) → s.status c = .zombie →
      Step L s (.reap c) { (s.setStatus c .free) with stack := update s.stack (.proc c) [] }
  | wakeup {c : Fin NPROC} : s.core.user = false → s.status c = .sleeping →
      Step L s (.wakeup c) (s.setStatus c .ready)
  -- the test before yield() fails
  | passUser {p : Fin NPROC} : At s p .timer → ¬ s.Running → Step L s .pass (s.setPlace p .ret)
  | passTrap {a : Act} {k : List Act} : Handling s a k → a.phase = .timer → ¬ s.Running →
      Step L s .pass (s.setStack ({ a with phase := .handled } :: k))
  | usertrapret {p q : Fin NPROC} : At s p .ret → s.cpuProc = some q →
      Step L s .usertrapret ({ s with
        core := (s.usertrapret L q).sret
        lost := !decide ((s.usertrapret L q).sret.reg = (s.image p).reg ∧
          (s.usertrapret L q).sret.pc = (s.image p).pc) }.setPlace p .user)
  | trap {cause : Cause} : s.core.user = false → s.core.sstatus.sie = true → s.core.stvec = .sysTrapVector →
      cause ≠ .ecall → (∀ x, Area (frameBase (s.core.reg .sp)) sysFrameSize x → ¬ Protected L s x) →
      Step L s (.trap cause) (s.trapped cause)
  -- w_sepc(sepc);
  | writeSepc {a : Act} {k : List Act} : Handling s a k → a.phase = .handled →
      Step L s .writeSepc ({ s with core := { s.core with csr := update s.core.csr .sepc a.sepc } }.setStack
        ({ a with phase := .window } :: k))
  | trapReturn {a : Act} {k : List Act} : Handling s a k → a.phase = .window →
      Step L s .trapReturn ({ s with
        core := (s.trapExit a).sret
        lost := !decide ((s.trapExit a).reg = a.reg ∧ (s.trapExit a).csr .sepc = a.sepc) }.setStack k)
  -- scheduler()
  | intrOn : Scheduling s → Step L s .intrOn (s.setSie true)
  | choose {p : Fin NPROC} : Scheduling s → s.cpuProc = none → s.status p = .ready →
      Step L s (.choose p) { (s.setStatus p .running) with cpuProc := some p }
  | dispatch {p : Fin NPROC} : Scheduling s → s.cpuProc = some p → s.status p = .running →
      Step L s .dispatch (s.swtch L .cpu (.proc p))
  | clear {p : Fin NPROC} : Scheduling s → s.cpuProc = some p → s.status p ≠ .running →
      Step L s .clear { s with cpuProc := none }
  -- yield(), of usertrap() and of sys_trap_handler()
  | yieldUser {p q : Fin NPROC} : At s p .timer → s.cpuProc = some q → s.status q = .running →
      Step L s .yield (((s.setPlace p .ret).setStatus q .ready).swtch L (.proc q) .cpu)
  | yieldTrap {a : Act} {k : List Act} {q : Fin NPROC} : Handling s a k → a.phase = .timer → s.cpuProc = some q →
      s.status q = .running →
      Step L s .yield (((s.setStack ({ a with phase := .handled } :: k)).setStatus q .ready).swtch L (.proc q) .cpu)
  -- sleep(), and the end of exit()
  | block {p q r : Fin NPROC} {st : TaskStatus} : At s p (.syscall q) → s.cpuProc = some r →
      st = .sleeping ∨ st = .zombie → Step L s (.block st) ((s.setStatus r st).swtch L (.proc r) .cpu)
  -- a trap that the wrong vector takes
  | astray : s.core.stvec ≠ (if s.core.user then .userTrapEntry else .sysTrapVector) →
      s.core.user = true ∨ s.core.sstatus.sie = true → Step L s .astray { s with lost := true }

end RiscvOsLab.Trap
