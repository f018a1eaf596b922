import RiscvOsLab.Kernel.State
import RiscvOsLab.Lib.Linked
import RiscvOsLab.Lib.Trans

/-!
# The process table under preemption (`proc.c`, `kalloc.c`)

`fork`, `allocproc`, `exit`, `wait`, `sleep`, `wakeup`, `kalloc` and `kfree`, statement by statement, made by any
number of processes between which the timer may switch at any statement. A `Place` is the statement a process is
to execute next, with the locals of the function; `Table.stmt` executes it.

* a page is one of `[end_address, PHYSTOP)`, so that the check of `kfree` passes; of its contents only the first
  word is kept, where the free list is threaded;
* the dispatch of a process by the scheduler is one step, and so is the timer's `yield`;
* a statement that assigns only fields which nothing here reads (`killed`, `name`, `sz`, the page table, the
  words of a page after the first) is left out, as it changes no state of this machine.
-/

namespace RiscvOsLab.Proc

open Function
open RiscvOsLab.Kernel (NPROC TaskStatus)

/-- A physical page, by number. -/
abbrev Page := Nat

/-- The two pages a slot owns, after the fields of `struct proc` that point to them. -/
inductive Area where
  | trapframe
  | kstack
  deriving DecidableEq

structure Slot where
  status : TaskStatus
  pid : Nat
  page : Area → Option Page
  parent : Option (Fin NPROC)
  chan : Option (Fin NPROC)
  xstate : Int32

inductive Place where
  | user
  -- allocproc() as called by fork()
  | allocTest (i : Nat)
  | allocPid (np : Fin NPROC)
  | allocIf (np : Fin NPROC)
  | allocFail (np : Fin NPROC)
  | allocMark (np : Fin NPROC)
  | allocParent (np : Fin NPROC)
  | allocChan (np : Fin NPROC)
  | allocXstate (np : Fin NPROC)
  | allocContext (np : Fin NPROC)
  -- kalloc() for a page of `np`, and the assignment of its result
  | kallocRead (np : Fin NPROC) (a : Area)
  | kallocHead (np : Fin NPROC) (a : Area) (r : Option Page)
  | kallocZero (np : Fin NPROC) (a : Area) (r : Page)
  | kallocStore (np : Fin NPROC) (a : Area) (r : Option Page)
  -- fork()
  | forkIf (np : Fin NPROC)
  | forkFail (np : Fin NPROC)
  | forkCopy (np : Fin NPROC)
  | forkParent (np : Fin NPROC)
  | forkReady (np : Fin NPROC)
  | forkReturn (np : Fin NPROC)
  -- exit(), with wakeup(p->parent)
  | exitXstate (status : Int32)
  | exitReparent (i : Nat)
  | exitWakeup
  | wakeTest (chan : Option (Fin NPROC)) (i : Nat)
  | exitZombie
  | exitSwtch
  | exitPanic
  -- wait()
  | waitStart
  | waitParent (i : Nat) (havekids : Bool)
  | waitStatus (child : Fin NPROC)
  | waitPid (child : Fin NPROC)
  | waitXstate (child : Fin NPROC)
  | waitFree (child : Fin NPROC)
  | waitClearPid (child : Fin NPROC)
  | waitClearParent (child : Fin NPROC)
  | waitIf (child : Fin NPROC) (a : Area)
  | waitClear (child : Fin NPROC) (a : Area)
  | waitKids (havekids : Bool)
  -- kfree() of a page of `child`
  | kfreeNext (child : Fin NPROC) (a : Area) (pa : Page)
  | kfreeHead (child : Fin NPROC) (a : Area) (pa : Page)
  -- sleep(p) as called by wait()
  | sleepChan
  | sleepStatus
  | sleepSwtch
  | sleepEnd
  deriving DecidableEq

structure Table where
  slot : Fin NPROC → Slot
  place : Fin NPROC → Place
  /-- `cpu->proc`; `none` while the scheduler runs. -/
  cur : Option (Fin NPROC)
  freeMemList : Option Page
  /-- The first word of a page, read as a pointer to a page. -/
  next : Page → Option Page
  nextpid : Nat
  /-- What a system call returns to its process, and the local `pid` of `wait`. -/
  result : Fin NPROC → Int
  /-- The exit code that `wait` stores at its argument. -/
  code : Fin NPROC → Int32

namespace Table

def goto (s : Table) (p : Fin NPROC) (k : Place) : Table := { s with place := update s.place p k }

/-- Fields of a slot are assigned. -/
def mod (s : Table) (c : Fin NPROC) (f : Slot → Slot) : Table := { s with slot := update s.slot c (f (s.slot c)) }

/-- The system call returns. -/
def ret (s : Table) (p : Fin NPROC) (v : Int) : Table := { s with result := update s.result p v }.goto p .user

/-- `swtch(&p->context, &cpu->context)`; the process goes on at `k`. -/
def swtch (s : Table) (p : Fin NPROC) (k : Place) : Table := { s.goto p k with cur := none }

/-- The next page a pointer to a free page leads to. -/
def nextOf (s : Table) (r : Option Page) : Option Page := r.bind s.next

/-- `p` executes its next statement. -/
def stmt (s : Table) (p : Fin NPROC) : Table :=
  match s.place p with
  | .user => s
  | .allocTest i =>
      if h : i < NPROC then
        if (s.slot ⟨i, h⟩).status = .free then s.goto p (.allocPid ⟨i, h⟩) else s.goto p (.allocTest (i + 1))
      else s.ret p (-1)
  | .allocPid np =>
      ({ s with nextpid := s.nextpid + 1 }.mod np fun v => { v with pid := s.nextpid }).goto p
        (.kallocRead np .trapframe)
  | .kallocRead np a => s.goto p (.kallocHead np a s.freeMemList)
  | .kallocHead np a r =>
      match r with
      | some r => { s with freeMemList := s.next r }.goto p (.kallocZero np a r)
      | none => s.goto p (.kallocStore np a none)
  | .kallocZero np a r => { s with next := update s.next r none }.goto p (.kallocStore np a (some r))
  | .kallocStore np a r =>
      (s.mod np fun v => { v with page := update v.page a r }).goto p
        (match a with | .trapframe => .allocIf np | .kstack => .forkIf np)
  | .allocIf np => s.goto p (if (s.slot np).page .trapframe = none then .allocFail np else .allocMark np)
  | .allocFail np => (s.mod np fun v => { v with status := .free }).ret p (-1)
  | .allocMark np => (s.mod np fun v => { v with status := .allocated }).goto p (.allocParent np)
  | .allocParent np => (s.mod np fun v => { v with parent := none }).goto p (.allocChan np)
  | .allocChan np => (s.mod np fun v => { v with chan := none }).goto p (.allocXstate np)
  | .allocXstate np => (s.mod np fun v => { v with xstate := 0 }).goto p (.allocContext np)
  -- the context of `np` is set to `forkret`, from where it goes to user mode
  | .allocContext np => (s.goto np .user).goto p (.kallocRead np .kstack)
  | .forkIf np => s.goto p (if (s.slot np).page .kstack = none then .forkFail np else .forkCopy np)
  | .forkFail np => (s.mod np fun v => { v with status := .free }).ret p (-1)
  | .forkCopy np =>
      match (s.slot np).page .trapframe with
      | some dst => { s with next := update s.next dst (s.nextOf ((s.slot p).page .trapframe)) }.goto p (.forkParent np)
      | none => s.goto p (.forkParent np)
  | .forkParent np => (s.mod np fun v => { v with parent := some p }).goto p (.forkReady np)
  | .forkReady np => (s.mod np fun v => { v with status := .ready }).goto p (.forkReturn np)
  | .forkReturn np => s.ret p (s.slot np).pid
  | .exitXstate st => (s.mod p fun v => { v with xstate := st }).goto p (.exitReparent 0)
  | .exitReparent i =>
      if h : i < NPROC then
        if (s.slot ⟨i, h⟩).parent = some p then
          (s.mod ⟨i, h⟩ fun v => { v with parent := some 0 }).goto p (.exitReparent (i + 1))
        else s.goto p (.exitReparent (i + 1))
      else s.goto p .exitWakeup
  | .exitWakeup => s.goto p (.wakeTest (s.slot p).parent 0)
  | .wakeTest chan i =>
      if h : i < NPROC then
        if (⟨i, h⟩ : Fin NPROC) ≠ p ∧ (s.slot ⟨i, h⟩).status = .sleeping ∧ (s.slot ⟨i, h⟩).chan = chan then
          (s.mod ⟨i, h⟩ fun v => { v with status := .ready }).goto p (.wakeTest chan (i + 1))
        else s.goto p (.wakeTest chan (i + 1))
      else s.goto p .exitZombie
  | .exitZombie => (s.mod p fun v => { v with status := .zombie }).goto p .exitSwtch
  | .exitSwtch => s.swtch p .exitPanic
  | .exitPanic => s
  | .waitStart => s.goto p (.waitParent 0 false)
  | .waitParent i havekids =>
      if h : i < NPROC then
        if (s.slot ⟨i, h⟩).parent = some p then s.goto p (.waitStatus ⟨i, h⟩)
        else s.goto p (.waitParent (i + 1) havekids)
      else s.goto p (.waitKids havekids)
  -- havekids = 1
  | .waitStatus child =>
      s.goto p (if (s.slot child).status = .zombie then .waitPid child else .waitParent (child + 1) true)
  | .waitPid child => { s with result := update s.result p (s.slot child).pid }.goto p (.waitXstate child)
  | .waitXstate child => { s with code := update s.code p (s.slot child).xstate }.goto p (.waitFree child)
  | .waitFree child => (s.mod child fun v => { v with status := .free }).goto p (.waitClearPid child)
  | .waitClearPid child => (s.mod child fun v => { v with pid := 0 }).goto p (.waitClearParent child)
  | .waitClearParent child => (s.mod child fun v => { v with parent := none }).goto p (.waitIf child .trapframe)
  | .waitIf child a =>
      match (s.slot child).page a, a with
      | some pa, _ => s.goto p (.kfreeNext child a pa)
      | none, .trapframe => s.goto p (.waitIf child .kstack)
      | none, .kstack => s.goto p .user
  | .kfreeNext child a pa => { s with next := update s.next pa s.freeMemList }.goto p (.kfreeHead child a pa)
  | .kfreeHead child a pa => { s with freeMemList := some pa }.goto p (.waitClear child a)
  | .waitClear child a =>
      (s.mod child fun v => { v with page := update v.page a none }).goto p
        (match a with | .trapframe => .waitIf child .kstack | .kstack => .user)
  | .waitKids havekids => if havekids then s.goto p .sleepChan else s.ret p (-1)
  | .sleepChan => (s.mod p fun v => { v with chan := some p }).goto p .sleepStatus
  | .sleepStatus => (s.mod p fun v => { v with status := .sleeping }).goto p .sleepSwtch
  | .sleepSwtch => s.swtch p .sleepEnd
  | .sleepEnd => (s.mod p fun v => { v with chan := none }).goto p .waitStart

end Table

inductive Call where
  | fork
  | exit (status : Int32)
  | wait

def Call.start : Call → Place
  | .fork => .allocTest 0
  | .exit status => .exitXstate status
  | .wait => .waitStart

inductive Act where
  | dispatch (p : Fin NPROC)
  | tick
  | call (c : Call)
  | stmt

/-- A move of the machine, where it is possible. The handler of the timer yields only for a process that is
`TASK_RUNNING`. -/
def Table.act (s : Table) : Act → Option Table
  | .dispatch p =>
      if s.cur = none ∧ (s.slot p).status = .ready then
        some { s.mod p fun v => { v with status := .running } with cur := some p }
      else none
  | .tick => s.cur.bind fun p =>
      if (s.slot p).status = .running then
        some { s.mod p fun v => { v with status := .ready } with cur := none }
      else none
  | .call c => s.cur.bind fun p => if s.place p = .user then some (s.goto p c.start) else none
  | .stmt => s.cur.bind fun p =>
      if s.place p = .user ∨ s.place p = .exitPanic then none else some (s.stmt p)

/-- A step of a run whose moves all meet a condition. -/
def Table.Step (ok : Table → Act → Prop) (s t : Table) : Prop := ∃ a, ok s a ∧ s.act a = some t

section Frame
variable (s : Table) (p c : Fin NPROC) (k : Place) (f : Slot → Slot) (v : Int)

@[simp] theorem Table.goto_slot : (s.goto p k).slot = s.slot := rfl
@[simp] theorem Table.goto_place : (s.goto p k).place = update s.place p k := rfl
@[simp] theorem Table.goto_cur : (s.goto p k).cur = s.cur := rfl
@[simp] theorem Table.goto_freeMemList : (s.goto p k).freeMemList = s.freeMemList := rfl
@[simp] theorem Table.goto_next : (s.goto p k).next = s.next := rfl
@[simp] theorem Table.mod_slot : (s.mod c f).slot = update s.slot c (f (s.slot c)) := rfl
@[simp] theorem Table.mod_place : (s.mod c f).place = s.place := rfl
@[simp] theorem Table.mod_cur : (s.mod c f).cur = s.cur := rfl
@[simp] theorem Table.mod_freeMemList : (s.mod c f).freeMemList = s.freeMemList := rfl
@[simp] theorem Table.mod_next : (s.mod c f).next = s.next := rfl
@[simp] theorem Table.ret_slot : (s.ret p v).slot = s.slot := rfl
@[simp] theorem Table.ret_place : (s.ret p v).place = update s.place p .user := rfl
@[simp] theorem Table.ret_cur : (s.ret p v).cur = s.cur := rfl
@[simp] theorem Table.ret_freeMemList : (s.ret p v).freeMemList = s.freeMemList := rfl
@[simp] theorem Table.ret_next : (s.ret p v).next = s.next := rfl
@[simp] theorem Table.swtch_slot : (s.swtch p k).slot = s.slot := rfl
@[simp] theorem Table.swtch_place : (s.swtch p k).place = update s.place p k := rfl
@[simp] theorem Table.swtch_cur : (s.swtch p k).cur = none := rfl
@[simp] theorem Table.swtch_freeMemList : (s.swtch p k).freeMemList = s.freeMemList := rfl
@[simp] theorem Table.swtch_next : (s.swtch p k).next = s.next := rfl

end Frame

/-- Several moves, one after the other. -/
def Table.run (s : Table) : List Act → Option Table
  | [] => some s
  | a :: l => (s.act a).bind fun t => t.run l

/-- The slot, other than its own, that a process works on: one that `fork` fills or `wait` releases. -/
def Place.target : Place → Option (Fin NPROC)
  | .allocPid np | .allocIf np | .allocFail np | .allocMark np | .allocParent np | .allocChan np => some np
  | .allocXstate np | .allocContext np | .kallocRead np _ | .kallocHead np _ _ | .kallocZero np _ _ => some np
  | .kallocStore np _ _ | .forkIf np | .forkFail np | .forkCopy np | .forkParent np | .forkReady np => some np
  | .waitPid child | .waitXstate child | .waitFree child | .waitClearPid child | .waitClearParent child => some child
  | .waitIf child _ | .waitClear child _ | .kfreeNext child _ _ | .kfreeHead child _ _ => some child
  | _ => none

/-- The status of the process that executes the statement. -/
def Place.status : Place → TaskStatus
  | .sleepSwtch => .sleeping
  | .exitSwtch => .zombie
  | _ => .running

theorem Place.status_of_target {k : Place} {c : Fin NPROC} (h : k.target = some c) : k.status = .running := by
  unfold status
  split
  · simp [target] at h
  · simp [target] at h
  · rfl

theorem Table.stmt_of_act {s t : Table} (h : s.act .stmt = some t) :
    ∃ p, s.cur = some p ∧ s.place p ≠ .user ∧ s.place p ≠ .exitPanic ∧ t = s.stmt p := by
  obtain ⟨p, hcur, hp⟩ := Option.bind_eq_some_iff.1 h
  split at hp
  · exact absurd hp (by simp)
  · rename_i hne
    exact ⟨p, hcur, fun e => hne (.inl e), fun e => hne (.inr e), (Option.some.inj hp).symm⟩

theorem Table.tick_of_act {s t : Table} (h : s.act .tick = some t) : ∃ p, s.cur = some p ∧
    (s.slot p).status = .running ∧ t = { s.mod p fun v => { v with status := .ready } with cur := none } := by
  obtain ⟨p, hcur, hp⟩ := Option.bind_eq_some_iff.1 h
  split at hp
  · rename_i hrun
    exact ⟨p, hcur, hrun, (Option.some.inj hp).symm⟩
  · exact absurd hp (by simp)

theorem Table.dispatch_of_act {s t : Table} {p : Fin NPROC} (h : s.act (.dispatch p) = some t) : s.cur = none ∧
    (s.slot p).status = .ready ∧ t = { s.mod p fun v => { v with status := .running } with cur := some p } := by
  by_cases hrun : s.cur = none ∧ (s.slot p).status = .ready
  · rw [act, if_pos hrun] at h
    exact ⟨hrun.1, hrun.2, (Option.some.inj h).symm⟩
  · rw [act, if_neg hrun] at h
    exact absurd h (by simp)

theorem Table.call_of_act {s t : Table} {c : Call} (h : s.act (.call c) = some t) :
    ∃ p, s.cur = some p ∧ s.place p = .user ∧ t = s.goto p c.start := by
  obtain ⟨p, hcur, hp⟩ := Option.bind_eq_some_iff.1 h
  split at hp
  · rename_i huser
    exact ⟨p, hcur, huser, (Option.some.inj hp).symm⟩
  · exact absurd hp (by simp)

/-! ## Boot -/

/-- A slot that was never used. -/
def Slot.empty : Slot where
  status := .free
  pid := 0
  page := fun _ => none
  parent := none
  chan := none
  xstate := 0

/-- After `userinit`: the first process is ready, on two pages, and the other pages are on the free list. -/
structure Booted (s : Table) : Prop where
  init : (s.slot 0).status = .ready ∧ (s.slot 0).parent = none ∧ (s.slot 0).chan = none
  empty : ∀ c, c ≠ 0 → s.slot c = .empty
  place : ∀ p, s.place p = .user
  cur : s.cur = none
  pages : ∃ l trapframe kstack, Linked s.next s.freeMemList l ∧ (trapframe :: kstack :: l).Nodup ∧
    (s.slot 0).page .trapframe = some trapframe ∧ (s.slot 0).page .kstack = some kstack

/-- Boot with `n` free pages. -/
def Table.boot (n : Nat) : Table where
  slot := update (fun _ => .empty) 0
    { Slot.empty with status := .ready, pid := 1, page := fun a => match a with | .trapframe => some n | .kstack => some (n + 1) }
  place := fun _ => .user
  cur := none
  freeMemList := if n = 0 then none else some 0
  next := fun pa => if pa + 1 < n then some (pa + 1) else none
  nextpid := 2
  result := fun _ => 0
  code := fun _ => 0

end RiscvOsLab.Proc
