import RiscvOsLab.Kernel.State
import RiscvOsLab.Lib.Trans

/-!
# One hart, its threads and the timer (`proc.c`, `swtch.S`, `trap.c`)

The code that switches threads, statement by statement: `scheduler`, `yield`, `sleep`, `exit`, `forkret`, and
around them the ways into the kernel and out of it. A `Frame` is a place in this code with its locals, named
after the statement that comes next; a thread is the stack of its frames, the innermost first. `fork`, the
reaping half of `wait` and the rest of a system call are single moves at the frame `syscall`.

* `swtch` saves the rest of the running thread and loads what a context holds;
* `Step.trap` is the timer: it may come before any statement while `sstatus.SIE` is set.
-/

namespace RiscvOsLab.Proc

open Function
open RiscvOsLab.Kernel (NPROC TaskStatus)

/-- A kernel stack: the scheduler's, or that of a process. -/
inductive Thread where
  | sched
  | proc (p : Fin NPROC)
  deriving DecidableEq

/-- A `struct context`: `cpu->context`, or `p->context`. -/
inductive Ctx where
  | cpu
  | proc (p : Fin NPROC)
  deriving DecidableEq

inductive Frame where
  -- scheduler()
  | schedStart
  | schedOn
  | schedTest (i : Nat)
  | schedRun (p : Fin NPROC)
  | schedProc (p : Fin NPROC)
  | schedSwtch (p : Fin NPROC)
  | schedClear (p : Fin NPROC)
  -- yield()
  | yieldStart
  | yieldReady (p : Fin NPROC)
  | yieldSwtch (p : Fin NPROC)
  | yieldEnd
  -- sleep(chan)
  | sleepStart (chan : Option (Fin NPROC))
  | sleepChan (p : Fin NPROC) (chan : Option (Fin NPROC))
  | sleepStatus (p : Fin NPROC)
  | sleepSwtch (p : Fin NPROC)
  | sleepEnd (p : Fin NPROC)
  -- exit()
  | exitStart
  | exitReparent (p : Fin NPROC)
  | exitWakeup (p : Fin NPROC)
  | exitZombie (p : Fin NPROC)
  | exitSwtch (p : Fin NPROC)
  | exitPanic
  -- forkret() and usertrapret()
  | forkret
  | retOff
  | retSret
  -- user mode, and usertrap() for a timer interrupt and for an ecall
  | user
  | utrapTest
  | ecallOn
  | syscall
  -- sys_trap_handler()
  | trapTest
  | trapEnd
  deriving DecidableEq

structure Hart where
  status : Fin NPROC → TaskStatus
  parent : Fin NPROC → Option (Fin NPROC)
  chan : Fin NPROC → Option (Fin NPROC)
  /-- `cpu->proc`. -/
  cpuProc : Option (Fin NPROC)
  /-- The saved contexts: the thread that was saved and the rest of it; `none` for one never written. -/
  ctx : Ctx → Option (Thread × List Frame)
  sie : Bool
  /-- The thread that runs. -/
  cur : Thread
  stack : Thread → List Frame
  /-- A context that was never written has been loaded. -/
  crashed : Bool

namespace Hart

/-- The running thread goes on with these frames. -/
def goto (s : Hart) (k : List Frame) : Hart := { s with stack := update s.stack s.cur k }

def setStatus (s : Hart) (p : Fin NPROC) (st : TaskStatus) : Hart := { s with status := update s.status p st }

/-- `swtch(old, new)`, where `k` is what the running thread does after it. -/
def swtch (s : Hart) (old new : Ctx) (k : List Frame) : Hart :=
  let s := { s.goto k with ctx := update s.ctx old (some (s.cur, k)) }
  match s.ctx new with
  | some (t, k') => { s with cur := t, stack := update s.stack t k' }
  | none => { s with crashed := true }

/-- `myproc() != 0 && myproc()->status == TASK_RUNNING`. -/
def Running (s : Hart) : Prop := ∃ p, s.cpuProc = some p ∧ s.status p = .running

/-- The scheduler is entered, with the first process ready. -/
def boot : Hart where
  status := update (fun _ => .free) 0 .ready
  parent := fun _ => none
  chan := fun _ => none
  cpuProc := none
  ctx := update (fun _ => none) (.proc 0) (some (.proc 0, [.forkret]))
  sie := true
  cur := .sched
  stack := update (update (fun _ => []) (.proc 0) [.forkret]) .sched [.schedStart]
  crashed := false

end Hart

/-- The innermost frame of the running thread is executed. -/
inductive Stmt (s : Hart) : List Frame → Hart → Prop
  | schedStart {k : List Frame} : Stmt s (.schedStart :: k) ({ s with cpuProc := none }.goto (.schedOn :: k))
  | schedOn {k : List Frame} : Stmt s (.schedOn :: k) ({ s with sie := true }.goto (.schedTest 0 :: k))
  | schedFound {k : List Frame} {p : Fin NPROC} : s.status p = .ready →
      Stmt s (.schedTest p :: k) (s.goto (.schedRun p :: k))
  | schedSkip {k : List Frame} {p : Fin NPROC} : s.status p ≠ .ready →
      Stmt s (.schedTest p :: k) (s.goto (.schedTest (p + 1) :: k))
  | schedEnd {k : List Frame} {i : Nat} : NPROC ≤ i → Stmt s (.schedTest i :: k) (s.goto (.schedOn :: k))
  | schedRun {k : List Frame} {p : Fin NPROC} :
      Stmt s (.schedRun p :: k) ((s.setStatus p .running).goto (.schedProc p :: k))
  | schedProc {k : List Frame} {p : Fin NPROC} :
      Stmt s (.schedProc p :: k) ({ s with cpuProc := some p }.goto (.schedSwtch p :: k))
  | schedSwtch {k : List Frame} {p : Fin NPROC} :
      Stmt s (.schedSwtch p :: k) (s.swtch .cpu (.proc p) (.schedClear p :: k))
  | schedClear {k : List Frame} {p : Fin NPROC} :
      Stmt s (.schedClear p :: k) ({ s with cpuProc := none }.goto (.schedTest (p + 1) :: k))
  | yieldStart {k : List Frame} {p : Fin NPROC} : s.cpuProc = some p →
      Stmt s (.yieldStart :: k) (s.goto (.yieldReady p :: k))
  | yieldReady {k : List Frame} {p : Fin NPROC} :
      Stmt s (.yieldReady p :: k) ((s.setStatus p .ready).goto (.yieldSwtch p :: k))
  | yieldSwtch {k : List Frame} {p : Fin NPROC} :
      Stmt s (.yieldSwtch p :: k) (s.swtch (.proc p) .cpu (.yieldEnd :: k))
  | yieldEnd {k : List Frame} : Stmt s (.yieldEnd :: k) (s.goto k)
  | sleepStart {k : List Frame} {p : Fin NPROC} {chan : Option (Fin NPROC)} : s.cpuProc = some p →
      Stmt s (.sleepStart chan :: k) (s.goto (.sleepChan p chan :: k))
  | sleepChan {k : List Frame} {p : Fin NPROC} {chan : Option (Fin NPROC)} :
      Stmt s (.sleepChan p chan :: k) ({ s with chan := update s.chan p chan }.goto (.sleepStatus p :: k))
  | sleepStatus {k : List Frame} {p : Fin NPROC} :
      Stmt s (.sleepStatus p :: k) ((s.setStatus p .sleeping).goto (.sleepSwtch p :: k))
  | sleepSwtch {k : List Frame} {p : Fin NPROC} :
      Stmt s (.sleepSwtch p :: k) (s.swtch (.proc p) .cpu (.sleepEnd p :: k))
  | sleepEnd {k : List Frame} {p : Fin NPROC} :
      Stmt s (.sleepEnd p :: k) ({ s with chan := update s.chan p none }.goto k)
  | exitStart {k : List Frame} {p : Fin NPROC} : s.cpuProc = some p →
      Stmt s (.exitStart :: k) (s.goto (.exitReparent p :: k))
  | exitReparent {k : List Frame} {p : Fin NPROC} :
      Stmt s (.exitReparent p :: k) ({ s with
        parent := fun q => if s.parent q = some p then some 0 else s.parent q }.goto (.exitWakeup p :: k))
  | exitWakeup {k : List Frame} {p : Fin NPROC} :
      Stmt s (.exitWakeup p :: k) ({ s with
        status := fun q =>
          if s.cpuProc ≠ some q ∧ s.status q = TaskStatus.sleeping ∧ s.chan q = s.parent p then .ready
          else s.status q }.goto (.exitZombie p :: k))
  | exitZombie {k : List Frame} {p : Fin NPROC} :
      Stmt s (.exitZombie p :: k) ((s.setStatus p .zombie).goto (.exitSwtch p :: k))
  | exitSwtch {k : List Frame} {p : Fin NPROC} :
      Stmt s (.exitSwtch p :: k) (s.swtch (.proc p) .cpu (.exitPanic :: k))
  | forkret {k : List Frame} : Stmt s (.forkret :: k) (s.goto (.retOff :: k))
  | retOff {k : List Frame} : Stmt s (.retOff :: k) ({ s with sie := false }.goto (.retSret :: k))
  | retSret {k : List Frame} : Stmt s (.retSret :: k) ({ s with sie := true }.goto [.user])
  -- a timer interrupt and an ecall in user mode start on an empty kernel stack
  | userTimer {k : List Frame} : Stmt s (.user :: k) ({ s with sie := false }.goto [.utrapTest])
  | userEcall {k : List Frame} : Stmt s (.user :: k) ({ s with sie := false }.goto [.ecallOn])
  | utrapYield {k : List Frame} : s.Running →
      Stmt s (.utrapTest :: k) (s.goto (.yieldStart :: .retOff :: k))
  | utrapPass {k : List Frame} : ¬ s.Running → Stmt s (.utrapTest :: k) (s.goto (.retOff :: k))
  | ecallOn {k : List Frame} : Stmt s (.ecallOn :: k) ({ s with sie := true }.goto (.syscall :: k))
  | callSleep {k : List Frame} {chan : Option (Fin NPROC)} :
      Stmt s (.syscall :: k) (s.goto (.sleepStart chan :: .syscall :: k))
  | callExit {k : List Frame} : Stmt s (.syscall :: k) (s.goto (.exitStart :: .syscall :: k))
  | callFork {k : List Frame} {q : Fin NPROC} : s.status q = .free →
      Stmt s (.syscall :: k) { s with
        status := update s.status q .ready
        parent := update s.parent q s.cpuProc
        chan := update s.chan q none
        ctx := update s.ctx (.proc q) (some (.proc q, [.forkret]))
        stack := update s.stack (.proc q) [.forkret] }
  | callReap {k : List Frame} {q : Fin NPROC} : s.status q = .zombie →
      Stmt s (.syscall :: k) { s with status := update s.status q .free, parent := update s.parent q none }
  | callReturn {k : List Frame} : Stmt s (.syscall :: k) (s.goto (.retOff :: k))
  | trapYield {k : List Frame} : s.Running →
      Stmt s (.trapTest :: k) (s.goto (.yieldStart :: .trapEnd :: k))
  | trapPass {k : List Frame} : ¬ s.Running → Stmt s (.trapTest :: k) (s.goto (.trapEnd :: k))
  | trapEnd {k : List Frame} : Stmt s (.trapEnd :: k) ({ s with sie := true }.goto k)

/-- A step of the hart: a statement, or the timer before one. Runs of interest may restrict the timer. -/
inductive Step (ok : Hart → Prop) (s : Hart) : Hart → Prop
  | stmt {t : Hart} : s.crashed = false → Stmt s (s.stack s.cur) t → Step ok s t
  | trap {f : Frame} {k : List Frame} : s.crashed = false → ok s → s.sie = true → s.stack s.cur = f :: k →
      f ≠ .user → Step ok s ({ s with sie := false }.goto (.trapTest :: f :: k))

end RiscvOsLab.Proc
