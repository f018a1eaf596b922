import RiscvOsLab.Kernel.Calls
import RiscvOsLab.Kernel.Descriptors
import Mathlib.Logic.Relation

/-!
# Lifetimes of processes

The process table over whole runs, with `fork`, `exit`, `wait`, `sleep`, `wakeup`, `yield` and the dispatch by
`scheduler` as steps of their own: a process runs until it calls `swtch`.

* `Tasks` : the table is a tree of processes with init at its root;
* `Ledger` : what the table knows about the events of the past;
* `lifetimes_reach` : both hold in every run, and every process that exits is reaped at most once, by its parent, with
  its pid and its status.
-/

namespace RiscvOsLab.Kernel

open Prog Function

/-! ## Steps -/

/-- Where a process is when it does not run user code: inside `sleep`, called by `wait(addr)` or not, or back in the
loop of `wait(addr)`. -/
inductive Place where
  | idle
  | sleep (wait : Option UInt64)
  | wait (addr : UInt64)

def Place.InSleep : Place → Prop
  | .sleep _ => True
  | _ => False

/-- The kernel, with `cpu->proc` and where its processes are. -/
structure Tasking where
  m : Machine
  cpuProc : Option (Fin NPROC)
  place : Fin NPROC → Place

inductive TaskEvent where
  | forked (p child : Fin NPROC) (pid : Nat)
  | unborn (p : Fin NPROC)
  | exited (p : Fin NPROC) (pid : Nat) (status : Int32)
  | reaped (p : Fin NPROC) (pid : Nat) (addr : UInt64) (stored : Option Int32)
  | other

/-- A pid is taken. -/
def TaskEvent.takesPid : TaskEvent → Bool
  | .forked _ _ _ => true
  | .unborn _ => true
  | _ => false

/-- A `fork` that finds a free slot takes a pid, and may still fail for want of memory. -/
def forkEvent (m m' : Machine) (p : Fin NPROC) : Option (Fin NPROC) → TaskEvent
  | some np => .forked p np (m'.proc np).pid
  | none => if (freeSlot m).isSome then .unborn p else .other

namespace Tasking

/-- `scheduler` switches to `q`, which returns from its `swtch`. -/
def dispatch (s : Tasking) (q : Fin NPROC) : Tasking :=
  match s.place q with
  | .sleep after =>
      { m := s.m.modProc q fun v => { v with status := .running, chan := none }
        cpuProc := some q
        place := update s.place q (match after with | none => .idle | some addr => .wait addr) }
  | _ => { s with m := s.m.modProc q fun v => { v with status := .running }, cpuProc := some q }

theorem dispatch_awake (s : Tasking) (q : Fin NPROC) : ¬ ((s.dispatch q).place q).InSleep := by
  unfold dispatch
  split
  · rename_i after _
    show ¬ (update s.place q _ q).InSleep
    rw [update_self]
    cases after with
    | none => exact id
    | some addr => exact id
  · rename_i hplace
    show ¬ (s.place q).InSleep
    cases hq : s.place q with
    | sleep after => exact absurd hq (hplace after)
    | idle => exact id
    | wait addr => exact id

/-- `sleep(chan)` up to its `swtch`. -/
def sleep (s : Tasking) (p : Fin NPROC) (chan : Option (Fin NPROC)) : Tasking where
  m := (s.m.modProc p fun v => { v with chan }).modProc p fun v => { v with status := .sleeping }
  cpuProc := none
  place := update s.place p (.sleep none)

end Tasking

/-- Processes have different pids, and parents that are older than they are; the children of a process that exits are
init's. -/
structure Tree (m : Machine) : Prop where
  pid : ∀ q, (m.proc q).status ≠ .free → 0 < (m.proc q).pid ∧ (m.proc q).pid < m.nextpid
  distinct : ∀ q r, (m.proc q).status ≠ .free → (m.proc r).status ≠ .free → (m.proc q).pid = (m.proc r).pid → q = r
  parent : ∀ q, (m.proc q).status ≠ .free → q ≠ init → ∃ r, (m.proc q).parent = some r ∧
    (m.proc r).status ≠ .free ∧ (m.proc r).pid < (m.proc q).pid
  orphan : ∀ q r, (m.proc q).parent = some r → (m.proc r).status = .zombie → r = init
  root : (m.proc init).status ≠ .free ∧ (m.proc init).pid = 1 ∧ (m.proc init).parent = none
  free : ∀ q, (m.proc q).status = .free → (m.proc q).parent = none

/-- `b` is the parent of `a`. -/
def ParentOf (m : Machine) (a b : Fin NPROC) : Prop := (m.proc a).parent = some b

/-- Nobody is created, exits or is reaped. -/
structure Tame (m m' : Machine) : Prop where
  pid : ∀ q, (m'.proc q).pid = (m.proc q).pid
  parent : ∀ q, (m'.proc q).parent = (m.proc q).parent
  xstate : ∀ q, (m'.proc q).xstate = (m.proc q).xstate
  free : ∀ q, (m'.proc q).status = .free ↔ (m.proc q).status = .free
  zombie : ∀ q, (m'.proc q).status = .zombie ↔ (m.proc q).status = .zombie
  nextpid : m'.nextpid = m.nextpid

/-- A slot changes its status, to that of a process that lives, and perhaps its channel. -/
theorem Edited.tame {m m' : Machine} {p : Fin NPROC} {v : Proc} (h : Edited m p m.nextpid v m')
    (hfree : (m.proc p).status ≠ .free) (hzombie : (m.proc p).status ≠ .zombie) (hfree' : v.status ≠ .free)
    (hzombie' : v.status ≠ .zombie) (hpid : v.pid = (m.proc p).pid) (hparent : v.parent = (m.proc p).parent)
    (hx : v.xstate = (m.proc p).xstate) : Tame m m' := by
  have hcase (q : Fin NPROC) : m'.proc q = m.proc q ∨ q = p ∧ m'.proc q = v := by
    by_cases hq : q = p
    · exact .inr ⟨hq, by rw [hq, h.self]⟩
    · exact .inl (h.of_ne hq)
  refine ⟨fun q => ?_, fun q => ?_, fun q => ?_, fun q => ?_, fun q => ?_, h.nextpid⟩
  · rcases hcase q with he | ⟨rfl, he⟩ <;> rw [he]
    exact hpid
  · rcases hcase q with he | ⟨rfl, he⟩ <;> rw [he]
    exact hparent
  · rcases hcase q with he | ⟨rfl, he⟩ <;> rw [he]
    exact hx
  · rcases hcase q with he | ⟨rfl, he⟩ <;> rw [he]
    exact ⟨fun h => absurd h hfree', fun h => absurd h hfree⟩
  · rcases hcase q with he | ⟨rfl, he⟩ <;> rw [he]
    exact ⟨fun h => absurd h hzombie', fun h => absurd h hzombie⟩

theorem tame_wake (m : Machine) (p : Fin NPROC) (chan : Option (Fin NPROC)) : Tame m (m.wake p chan) := by
  have hcase := m.wake_proc p chan
  refine ⟨fun q => ?_, fun q => ?_, fun q => ?_, fun q => ?_, fun q => ?_, rfl⟩
  · rcases hcase q with he | ⟨-, -, he⟩ <;> rw [he]
  · rcases hcase q with he | ⟨-, -, he⟩ <;> rw [he]
  · rcases hcase q with he | ⟨-, -, he⟩ <;> rw [he]
  · rcases hcase q with he | ⟨-, hs, he⟩ <;> rw [he]
    rw [hs]
    exact ⟨fun h => absurd h (by simp), fun h => absurd h (by simp)⟩
  · rcases hcase q with he | ⟨-, hs, he⟩ <;> rw [he]
    rw [hs]
    exact ⟨fun h => absurd h (by simp), fun h => absurd h (by simp)⟩

namespace Tree

variable {m m' : Machine} {p : Fin NPROC}

theorem tame (h : Tree m) (ht : Tame m m') : Tree m' := by
  have hlive {q : Fin NPROC} (hq : (m'.proc q).status ≠ .free) : (m.proc q).status ≠ .free := fun hf => hq ((ht.free q).2 hf)
  refine ⟨fun q hq => ?_, fun q r hq hr he => ?_, fun q hq hne => ?_, fun q r hqr hr => ?_, ?_, fun q hq => ?_⟩
  · rw [ht.pid, ht.nextpid]
    exact h.pid q (hlive hq)
  · rw [ht.pid, ht.pid] at he
    exact h.distinct q r (hlive hq) (hlive hr) he
  · obtain ⟨r, hr, hrl, hlt⟩ := h.parent q (hlive hq) hne
    refine ⟨r, by rw [ht.parent, hr], fun hf => hrl ((ht.free r).1 hf), ?_⟩
    rw [ht.pid, ht.pid]
    exact hlt
  · rw [ht.parent] at hqr
    exact h.orphan q r hqr ((ht.zombie r).1 hr)
  · obtain ⟨hf, hp, hn⟩ := h.root
    exact ⟨fun hf' => hf ((ht.free _).1 hf'), by rw [ht.pid, hp], by rw [ht.parent, hn]⟩
  · rw [ht.parent]
    exact h.free q ((ht.free q).1 hq)

/-- A slot that is nobody's parent, and not init's, is free afterwards. -/
theorem freed (h : Tree m) {c : Fin NPROC} {n : Nat} {v : Proc} (he : Edited m c n v m') (hfree : v.status = .free)
    (hnone : v.parent = none) (hn : m.nextpid ≤ n) (hci : c ≠ init) (hkids : ∀ q, (m.proc q).parent ≠ some c) :
    Tree m' := by
  have hlive {q : Fin NPROC} (hq : (m'.proc q).status ≠ .free) : q ≠ c := by
    rintro rfl
    exact hq (by rw [he.self, hfree])
  refine ⟨fun q hq => ?_, fun q r hq hr heq => ?_, fun q hq hi => ?_, fun q r hqr hr => ?_, ?_, fun q hq => ?_⟩
  · have hqc := hlive hq
    rw [he.of_ne hqc] at hq ⊢
    rw [he.nextpid]
    exact ⟨(h.pid q hq).1, (h.pid q hq).2.trans_le hn⟩
  · have hqc := hlive hq
    have hrc := hlive hr
    rw [he.of_ne hqc] at hq heq
    rw [he.of_ne hrc] at hr heq
    exact h.distinct q r hq hr heq
  · have hqc := hlive hq
    rw [he.of_ne hqc] at hq ⊢
    obtain ⟨r, hr, hrl, hlt⟩ := h.parent q hq hi
    have hrc : r ≠ c := fun hrc => hkids q (hrc ▸ hr)
    rw [← he.of_ne hrc] at hrl hlt
    exact ⟨r, hr, hrl, hlt⟩
  · have hrc : r ≠ c := hlive (by rw [hr]; simp)
    rw [he.of_ne hrc] at hr
    by_cases hqc : q = c
    · rw [hqc, he.self, hnone] at hqr
      exact absurd hqr (by simp)
    · rw [he.of_ne hqc] at hqr
      exact h.orphan q r hqr hr
  · rw [he.of_ne hci.symm]
    exact h.root
  · by_cases hqc : q = c
    · rw [hqc, he.self, hnone]
    · rw [he.of_ne hqc] at hq ⊢
      exact h.free q hq

/-- The parent of a slot is not free. -/
theorem parent_live (h : Tree m) {q r : Fin NPROC} (hr : (m.proc q).parent = some r) : (m.proc r).status ≠ .free := by
  by_cases hq : (m.proc q).status = .free
  · rw [h.free q hq] at hr
    exact absurd hr (by simp)
  · by_cases hi : q = init
    · rw [hi, h.root.2.2] at hr
      exact absurd hr (by simp)
    · obtain ⟨r', hr', hl, -⟩ := h.parent q hq hi
      rwa [Option.some.inj (hr.symm.trans hr')]

theorem forked (h : Tree m) {r : Option (Fin NPROC)} (hp : (m.proc p).status = .running) (hf : Forked m p r m') :
    Tree m' := by
  cases hf with
  | full hc hproc hnext =>
      exact h.tame ⟨fun q => by rw [hproc], fun q => by rw [hproc], fun q => by rw [hproc], fun q => by rw [hproc],
        fun q => by rw [hproc], hnext⟩
  | @failed _ c v hc he hfree hparent =>
      have hcfree := freeSlot_free hc
      refine h.freed he hfree (hparent.elim id fun hv => hv.trans (h.free c hcfree)) (Nat.le_succ _) ?_ fun q hq => ?_
      · rintro rfl
        exact h.root.1 hcfree
      · exact h.parent_live hq hcfree
  | @done _ c v hc he hready hpid hparent =>
      have hcfree := freeSlot_free hc
      have hpl : (m.proc p).status ≠ .free := by
        rw [hp]
        simp
      have hne {q : Fin NPROC} (hq : (m.proc q).status ≠ .free) : q ≠ c := by
        rintro rfl
        exact hq hcfree
      refine ⟨fun q hq => ?_, fun q r hq hr heq => ?_, fun q hq hi => ?_, fun q r hqr hr => ?_, ?_, fun q hq => ?_⟩
      · rw [he.nextpid]
        by_cases hqc : q = c
        · rw [hqc, he.self, hpid]
          have hone := (h.pid p hpl)
          omega
        · rw [he.of_ne hqc] at hq ⊢
          exact ⟨(h.pid q hq).1, (h.pid q hq).2.trans (Nat.lt_succ_self _)⟩
      · -- the new pid is larger than all others
        by_cases hqc : q = c
        · by_cases hrc : r = c
          · rw [hqc, hrc]
          · rw [he.of_ne hrc] at hr heq
            rw [hqc, he.self, hpid] at heq
            have hlt := (h.pid r hr).2
            omega
        · rw [he.of_ne hqc] at hq heq
          by_cases hrc : r = c
          · rw [hrc, he.self, hpid] at heq
            have hlt := (h.pid q hq).2
            omega
          · rw [he.of_ne hrc] at hr heq
            exact h.distinct q r hq hr heq
      · by_cases hqc : q = c
        · rw [hqc, he.self]
          refine ⟨p, hparent, ?_, ?_⟩
          · rw [he.of_ne (hne hpl)]
            exact hpl
          · rw [he.of_ne (hne hpl), hpid]
            exact (h.pid p hpl).2
        · rw [he.of_ne hqc] at hq ⊢
          obtain ⟨r, hr, hrl, hlt⟩ := h.parent q hq hi
          have hrc := hne hrl
          rw [← he.of_ne hrc] at hrl hlt
          exact ⟨r, hr, hrl, hlt⟩
      · have hrc : r ≠ c := by
          rintro rfl
          rw [he.self, hready] at hr
          exact absurd hr (by simp)
        rw [he.of_ne hrc] at hr
        by_cases hqc : q = c
        · rw [hqc, he.self, hparent] at hqr
          rw [← Option.some.inj hqr, hp] at hr
          exact absurd hr (by simp)
        · rw [he.of_ne hqc] at hqr
          exact h.orphan q r hqr hr
      · rw [he.of_ne (hne h.root.1)]
        exact h.root
      · by_cases hqc : q = c
        · rw [hqc, he.self, hready] at hq
          exact absurd hq (by simp)
        · rw [he.of_ne hqc] at hq ⊢
          exact h.free q hq

theorem exited (h : Tree m) {status : Int32} (hp : (m.proc p).status = .running) (he : Exited m p status m') : Tree m' := by
  have hpl : (m.proc p).status ≠ .free := by
    rw [hp]
    simp
  have hlive (q : Fin NPROC) : (m'.proc q).status ≠ .free ↔ (m.proc q).status ≠ .free := by
    by_cases hq : q = p
    · rw [hq, he.zombie, hp]
      simp
    · rcases he.status q hq with hs | ⟨hs, hs'⟩
      · rw [hs]
      · rw [hs, hs']
        simp
  refine ⟨fun q hq => ?_, fun q r hq hr heq => ?_, fun q hq hi => ?_, fun q r hqr hr => ?_, ?_, fun q hq => ?_⟩
  · rw [he.pid, he.nextpid]
    exact h.pid q ((hlive q).1 hq)
  · rw [he.pid, he.pid] at heq
    exact h.distinct q r ((hlive q).1 hq) ((hlive r).1 hr) heq
  · rw [he.parent, he.pid]
    have hql := (hlive q).1 hq
    split
    · -- init is older than everybody
      refine ⟨init, rfl, (hlive _).2 h.root.1, ?_⟩
      rw [he.pid, h.root.2.1]
      have hpos := (h.pid q hql).1
      have hne : (m.proc q).pid ≠ 1 := fun hone =>
        hi (h.distinct q init hql h.root.1 (by rw [hone, h.root.2.1]))
      omega
    · obtain ⟨r, hr, hrl, hlt⟩ := h.parent q hql hi
      exact ⟨r, hr, (hlive r).2 hrl, by rw [he.pid]; exact hlt⟩
  · rw [he.parent] at hqr
    split at hqr
    · exact (Option.some.inj hqr).symm
    · rename_i hnot
      by_cases hrp : r = p
      · exact absurd (hrp ▸ hqr) hnot
      · rcases he.status r hrp with hs | ⟨-, hs⟩
        · exact h.orphan q r hqr (hs ▸ hr)
        · rw [hs] at hr
          exact absurd hr (by simp)
  · obtain ⟨hf, hone, hnone⟩ := h.root
    refine ⟨(hlive _).2 hf, by rw [he.pid, hone], ?_⟩
    rw [he.parent, hnone]
    simp
  · rw [he.parent]
    have hqf : (m.proc q).status = .free := by
      by_contra hql
      exact (hlive q).2 hql hq
    rw [h.free q hqf]
    simp

theorem reaped (h : Tree m) {c : Fin NPROC} {v : Proc} (hparent : (m.proc c).parent = some p)
    (hz : (m.proc c).status = .zombie) (he : Edited m c m.nextpid v m') (hfree : v.status = .free)
    (hnone : v.parent = none) : Tree m' := by
  -- init has no parent, and a zombie has no children
  have hci : c ≠ init := by
    rintro rfl
    rw [h.root.2.2] at hparent
    exact absurd hparent (by simp)
  exact h.freed he hfree hnone (Nat.le_refl _) hci fun q hq => hci (h.orphan q c hq hz)

/-- Parents lead to init. -/
theorem chain (h : Tree m) {q : Fin NPROC} (hq : (m.proc q).status ≠ .free) :
    Relation.ReflTransGen (ParentOf m) q init := by
  induction hk : (m.proc q).pid using Nat.strong_induction_on generalizing q with
  | _ k ih =>
    by_cases hi : q = init
    · rw [hi]
    · obtain ⟨r, hr, hrl, hlt⟩ := h.parent q hq hi
      exact .head hr (ih _ (hk ▸ hlt) hrl rfl)

end Tree

/-! ## The past -/

/-- A history, the newest event first: no pid is given twice, nobody exits twice, and who is reaped has been created and
has exited, in one slot, and has not been reaped before; the status stored is that of the exit. -/
def Orderly : List TaskEvent → Prop
  | [] => True
  | .forked _ _ pid :: past => (∀ p c, .forked p c pid ∉ past) ∧ Orderly past
  | .exited _ pid _ :: past => (∀ q st, .exited q pid st ∉ past) ∧ Orderly past
  | .reaped _ pid addr stored :: past =>
      (∃ p c st, .forked p c pid ∈ past ∧ .exited c pid st ∈ past ∧ stored = if addr = 0 then none else some st) ∧
        (∀ p a x, .reaped p pid a x ∉ past) ∧ Orderly past
  | _ :: past => Orderly past

/-- What the table knows about the past. -/
structure Ledger (m : Machine) (past : List TaskEvent) : Prop where
  forked : ∀ q, (m.proc q).status ≠ .free → q ≠ init → ∃ p, .forked p q (m.proc q).pid ∈ past
  zombie : ∀ q, (m.proc q).status = .zombie → .exited q (m.proc q).pid (m.proc q).xstate ∈ past
  alive : ∀ q, (m.proc q).status ≠ .free → (m.proc q).status ≠ .zombie → ∀ r st, .exited r (m.proc q).pid st ∉ past
  kept : ∀ r pid st, .exited r pid st ∈ past → pid < m.nextpid ∧
    ((m.proc r).status = .zombie ∧ (m.proc r).pid = pid ∧ (m.proc r).xstate = st ∨ ∃ p a x, .reaped p pid a x ∈ past)
  reaped : ∀ p pid a x, .reaped p pid a x ∈ past → pid < m.nextpid ∧ ∀ q, (m.proc q).status ≠ .free →
    (m.proc q).pid ≠ pid
  born : ∀ p c pid, .forked p c pid ∈ past → pid < m.nextpid
  count : m.nextpid = 2 + past.countP TaskEvent.takesPid
  orderly : Orderly past

namespace Ledger

variable {m m' : Machine} {past : List TaskEvent} {p : Fin NPROC}

theorem tame (h : Ledger m past) (ht : Tame m m') : Ledger m' (.other :: past) := by
  have hlive {q : Fin NPROC} (hq : (m'.proc q).status ≠ .free) : (m.proc q).status ≠ .free := fun hf => hq ((ht.free q).2 hf)
  refine ⟨fun q hq hi => ?_, fun q hq => ?_, fun q hq hz r st hin => ?_, fun r pid st hin => ?_,
    fun p pid a x hin => ?_, fun p c pid hin => ?_, ?_, h.orderly⟩
  · obtain ⟨p, hp⟩ := h.forked q (hlive hq) hi
    rw [ht.pid]
    exact ⟨p, List.mem_cons_of_mem _ hp⟩
  · rw [ht.pid, ht.xstate]
    exact List.mem_cons_of_mem _ (h.zombie q ((ht.zombie q).1 hq))
  · rw [ht.pid] at hin
    exact h.alive q (hlive hq) (fun hz' => hz ((ht.zombie q).2 hz')) r st (by simpa using hin)
  · obtain ⟨hlt, hk⟩ := h.kept r pid st (by simpa using hin)
    rw [ht.nextpid, ht.zombie, ht.pid, ht.xstate]
    refine ⟨hlt, hk.imp_right fun ⟨p, a, x, hx⟩ => ⟨p, a, x, List.mem_cons_of_mem _ hx⟩⟩
  · obtain ⟨hlt, hk⟩ := h.reaped p pid a x (by simpa using hin)
    rw [ht.nextpid]
    refine ⟨hlt, fun q hq => ?_⟩
    rw [ht.pid]
    exact hk q (hlive hq)
  · rw [ht.nextpid]
    exact h.born p c pid (by simpa using hin)
  · rw [ht.nextpid, h.count]
    rfl

/-- A pid is taken, for a process or in vain. -/
theorem forkedStep (h : Ledger m past) {r : Option (Fin NPROC)} (hf : Forked m p r m') :
    Ledger m' (forkEvent m m' p r :: past) := by
  unfold forkEvent
  cases hf with
  | full hc hproc hnext =>
      have ht : Tame m m' := ⟨fun q => by rw [hproc], fun q => by rw [hproc], fun q => by rw [hproc],
        fun q => by rw [hproc], fun q => by rw [hproc], hnext⟩
      simp only [hc, Option.isSome_none, Bool.false_eq_true, if_false]
      exact h.tame ht
  | @failed _ c v hc he hfree hparent =>
      have hcfree := freeSlot_free hc
      simp only [hc, Option.isSome_some, if_true]
      have hne {q : Fin NPROC} (hq : (m'.proc q).status ≠ .free) : q ≠ c := by
        rintro rfl
        exact hq (by rw [he.self, hfree])
      refine ⟨fun q hq hi => ?_, fun q hq => ?_, fun q hq hz r st hin => ?_, fun r pid st hin => ?_,
        fun p pid a x hin => ?_, fun p c pid hin => ?_, ?_, h.orderly⟩
      · have hqc := hne hq
        rw [he.of_ne hqc] at hq ⊢
        obtain ⟨p, hp⟩ := h.forked q hq hi
        exact ⟨p, List.mem_cons_of_mem _ hp⟩
      · have hqc := hne (q := q) (by rw [hq]; simp)
        rw [he.of_ne hqc] at hq ⊢
        exact List.mem_cons_of_mem _ (h.zombie q hq)
      · have hqc := hne hq
        rw [he.of_ne hqc] at hq hz hin
        exact h.alive q hq hz r st (by simpa using hin)
      · obtain ⟨hlt, hk⟩ := h.kept r pid st (by simpa using hin)
        rw [he.nextpid]
        refine ⟨hlt.trans (Nat.lt_succ_self _), hk.imp (fun hz => ?_) fun ⟨p, a, x, hx⟩ => ⟨p, a, x, List.mem_cons_of_mem _ hx⟩⟩
        have hrc : r ≠ c := by
          rintro rfl
          rw [hcfree] at hz
          exact absurd hz.1 (by simp)
        rw [he.of_ne hrc]
        exact hz
      · obtain ⟨hlt, hk⟩ := h.reaped p pid a x (by simpa using hin)
        rw [he.nextpid]
        refine ⟨hlt.trans (Nat.lt_succ_self _), fun q hq => ?_⟩
        have hqc := hne hq
        rw [he.of_ne hqc] at hq ⊢
        exact hk q hq
      · rw [he.nextpid]
        exact (h.born p c pid (by simpa using hin)).trans (Nat.lt_succ_self _)
      · rw [he.nextpid, h.count, List.countP_cons_of_pos rfl]
        rfl
  | @done _ c v hc he hready hpid hparent =>
      have hcfree := freeSlot_free hc
      simp only
      refine ⟨fun q hq hi => ?_, fun q hq => ?_, fun q hq hz r st hin => ?_, fun r pid st hin => ?_,
        fun p pid a x hin => ?_, fun p' c' pid hin => ?_, ?_, fun p' c' hin => ?_, h.orderly⟩
      · by_cases hqc : q = c
        · rw [hqc]
          exact ⟨p, List.mem_cons_self⟩
        · rw [he.of_ne hqc] at hq ⊢
          obtain ⟨p, hp⟩ := h.forked q hq hi
          exact ⟨p, List.mem_cons_of_mem _ hp⟩
      · have hqc : q ≠ c := by
          rintro rfl
          rw [he.self, hready] at hq
          exact absurd hq (by simp)
        rw [he.of_ne hqc] at hq ⊢
        exact List.mem_cons_of_mem _ (h.zombie q hq)
      · by_cases hqc : q = c
        · -- a pid that was never used
          rw [hqc, he.self, hpid] at hin
          have hlt := (h.kept r _ st (by simpa using hin)).1
          omega
        · rw [he.of_ne hqc] at hq hz hin
          exact h.alive q hq hz r st (by simpa using hin)
      · obtain ⟨hlt, hk⟩ := h.kept r pid st (by simpa using hin)
        rw [he.nextpid]
        refine ⟨hlt.trans (Nat.lt_succ_self _), hk.imp (fun hz => ?_) fun ⟨p, a, x, hx⟩ => ⟨p, a, x, List.mem_cons_of_mem _ hx⟩⟩
        have hrc : r ≠ c := by
          rintro rfl
          rw [hcfree] at hz
          exact absurd hz.1 (by simp)
        rw [he.of_ne hrc]
        exact hz
      · obtain ⟨hlt, hk⟩ := h.reaped p pid a x (by simpa using hin)
        rw [he.nextpid]
        refine ⟨hlt.trans (Nat.lt_succ_self _), fun q hq => ?_⟩
        by_cases hqc : q = c
        · rw [hqc, he.self, hpid]
          omega
        · rw [he.of_ne hqc] at hq ⊢
          exact hk q hq
      · rw [he.nextpid]
        rcases List.mem_cons.1 hin with heq | hin
        · injection heq with _ _ heq
          rw [heq, he.self, hpid]
          exact Nat.lt_succ_self _
        · exact (h.born p' c' pid hin).trans (Nat.lt_succ_self _)
      · rw [he.nextpid, h.count, List.countP_cons_of_pos rfl]
        rfl
      · have hlt := h.born p' c' _ hin
        rw [he.self, hpid] at hlt
        exact absurd hlt (Nat.lt_irrefl _)

theorem exitStep (h : Ledger m past) (htree : Tree m) {status : Int32} (hp : (m.proc p).status = .running)
    (he : Exited m p status m') : Ledger m' (.exited p (m.proc p).pid status :: past) := by
  have hpl : (m.proc p).status ≠ .free := by
    rw [hp]
    simp
  have hlive {q : Fin NPROC} (hq : (m'.proc q).status ≠ .free) : (m.proc q).status ≠ .free := by
    by_cases hqp : q = p
    · rw [hqp]
      exact hpl
    · rcases he.status q hqp with hs | ⟨hs, -⟩
      · rwa [← hs]
      · rw [hs]
        simp
  have hzombie {q : Fin NPROC} (hqp : q ≠ p) (hq : (m'.proc q).status = .zombie) : (m.proc q).status = .zombie := by
    rcases he.status q hqp with hs | ⟨-, hs⟩
    · rwa [← hs]
    · rw [hs] at hq
      exact absurd hq (by simp)
  have hnever : ∀ r st, .exited r (m.proc p).pid st ∉ past := h.alive p hpl (by rw [hp]; simp)
  refine ⟨fun q hq hi => ?_, fun q hq => ?_, fun q hq hz r st hin => ?_, fun r pid st hin => ?_,
    fun p' pid a x hin => ?_, fun p' c' pid hin => ?_, ?_, hnever, h.orderly⟩
  · rw [he.pid]
    obtain ⟨p', hp'⟩ := h.forked q (hlive hq) hi
    exact ⟨p', List.mem_cons_of_mem _ hp'⟩
  · rw [he.pid]
    by_cases hqp : q = p
    · rw [hqp, he.xstate]
      exact List.mem_cons_self
    · rw [he.other q hqp]
      exact List.mem_cons_of_mem _ (h.zombie q (hzombie hqp hq))
  · rw [he.pid] at hin
    have hqp : q ≠ p := by
      rintro rfl
      exact hz he.zombie
    rcases List.mem_cons.1 hin with heq | hin
    · injection heq with _ hpid _
      exact hqp (htree.distinct q p (hlive hq) hpl hpid)
    · refine h.alive q (hlive hq) (fun hz' => hz ?_) r st hin
      rcases he.status q hqp with hs | ⟨hs, -⟩
      · rw [hs, hz']
      · rw [hz'] at hs
        exact absurd hs (by simp)
  · rw [he.nextpid]
    rcases List.mem_cons.1 hin with heq | hin
    · injection heq with hr hpid hst
      rw [hr, hpid, hst]
      exact ⟨(htree.pid p hpl).2, .inl ⟨he.zombie, he.pid p, he.xstate⟩⟩
    · obtain ⟨hlt, hk⟩ := h.kept r pid st hin
      refine ⟨hlt, hk.imp (fun hz => ?_) fun ⟨p, a, x, hx⟩ => ⟨p, a, x, List.mem_cons_of_mem _ hx⟩⟩
      have hrp : r ≠ p := by
        rintro rfl
        rw [hp] at hz
        exact absurd hz.1 (by simp)
      rw [he.pid, he.other r hrp]
      refine ⟨?_, hz.2⟩
      rcases he.status r hrp with hs | ⟨hs, -⟩
      · rw [hs, hz.1]
      · rw [hz.1] at hs
        exact absurd hs (by simp)
  · obtain ⟨hlt, hk⟩ := h.reaped p' pid a x (by simpa using hin)
    rw [he.nextpid]
    refine ⟨hlt, fun q hq => ?_⟩
    rw [he.pid]
    exact hk q (hlive hq)
  · rw [he.nextpid]
    exact h.born p' c' pid (by simpa using hin)
  · rw [he.nextpid, h.count]
    rfl

theorem reapStep (h : Ledger m past) (htree : Tree m) {c : Fin NPROC} {v : Proc} {addr : UInt64}
    (hparent : (m.proc c).parent = some p) (hz : (m.proc c).status = .zombie) (he : Edited m c m.nextpid v m')
    (hfree : v.status = .free) :
    Ledger m' (.reaped p (m.proc c).pid addr (if addr = 0 then none else some (m.proc c).xstate) :: past) := by
  have hcl : (m.proc c).status ≠ .free := by
    rw [hz]
    simp
  have hci : c ≠ init := by
    rintro rfl
    rw [htree.root.2.2] at hparent
    exact absurd hparent (by simp)
  have hne {q : Fin NPROC} (hq : (m'.proc q).status ≠ .free) : q ≠ c := by
    rintro rfl
    exact hq (by rw [he.self, hfree])
  refine ⟨fun q hq hi => ?_, fun q hq => ?_, fun q hq hzq r st hin => ?_, fun r pid st hin => ?_,
    fun p' pid a x hin => ?_, fun p' c' pid hin => ?_, ?_,
    h.forked c hcl hci |>.imp fun p' hp' => ⟨c, _, hp', h.zombie c hz, rfl⟩, ?_, h.orderly⟩
  · have hqc := hne hq
    rw [he.of_ne hqc] at hq ⊢
    obtain ⟨p', hp'⟩ := h.forked q hq hi
    exact ⟨p', List.mem_cons_of_mem _ hp'⟩
  · have hqc := hne (q := q) (by rw [hq]; simp)
    rw [he.of_ne hqc] at hq ⊢
    exact List.mem_cons_of_mem _ (h.zombie q hq)
  · have hqc := hne hq
    rw [he.of_ne hqc] at hq hzq hin
    exact h.alive q hq hzq r st (by simpa using hin)
  · obtain ⟨hlt, hk⟩ := h.kept r pid st (by simpa using hin)
    rw [he.nextpid]
    refine ⟨hlt, ?_⟩
    rcases hk with hzr | ⟨p', a, x, hx⟩
    · by_cases hrc : r = c
      · rw [hrc] at hzr
        exact .inr ⟨p, addr, _, by rw [← hzr.2.1]; exact List.mem_cons_self⟩
      · rw [he.of_ne hrc]
        exact .inl hzr
    · exact .inr ⟨p', a, x, List.mem_cons_of_mem _ hx⟩
  · rw [he.nextpid]
    rcases List.mem_cons.1 hin with heq | hin
    · injection heq with _ hpid _ _
      rw [hpid]
      refine ⟨(htree.pid c hcl).2, fun q hq heq => ?_⟩
      have hqc := hne hq
      rw [he.of_ne hqc] at hq heq
      exact hqc (htree.distinct q c hq hcl heq)
    · obtain ⟨hlt, hk⟩ := h.reaped p' pid a x hin
      refine ⟨hlt, fun q hq => ?_⟩
      have hqc := hne hq
      rw [he.of_ne hqc] at hq ⊢
      exact hk q hq
  · rw [he.nextpid]
    exact h.born p' c' pid (by simpa using hin)
  · rw [he.nextpid, h.count]
    rfl
  · exact fun p' a x hin => (h.reaped p' _ a x hin).2 c hcl rfl

end Ledger

/-! ## Who runs and who sleeps -/

structure Whereabouts (s : Tasking) : Prop where
  running : ∀ q, (s.m.proc q).status = .running ↔ s.cpuProc = some q
  sleeping : ∀ q, (s.m.proc q).status = .sleeping → (s.place q).InSleep
  inSleep : ∀ q, (s.place q).InSleep → (s.m.proc q).status = .sleeping ∨ (s.m.proc q).status = .ready

/-- A step of `p`, or of the scheduler for `p`: the others keep their place, and become at most ready or free. -/
theorem Whereabouts.moved {s t : Tasking} {p : Fin NPROC} (h : Whereabouts s)
    (hidle : ∀ q, q ≠ p → s.cpuProc ≠ some q) (hidle' : ∀ q, q ≠ p → t.cpuProc ≠ some q)
    (hplace : ∀ q, q ≠ p → t.place q = s.place q)
    (hstatus : ∀ q, q ≠ p → (t.m.proc q).status = (s.m.proc q).status ∨ (t.m.proc q).status = .ready ∨
      (t.m.proc q).status = .free ∧ (s.m.proc q).status ≠ .sleeping ∧ (s.m.proc q).status ≠ .ready)
    (hrunning : (t.m.proc p).status = .running ↔ t.cpuProc = some p)
    (hsleep : (t.m.proc p).status = .sleeping ∧ (t.place p).InSleep ∨
      (t.m.proc p).status ≠ .sleeping ∧ ¬ (t.place p).InSleep) : Whereabouts t := by
  refine ⟨fun q => ?_, fun q hq => ?_, fun q hq => ?_⟩
  · by_cases hqp : q = p
    · rw [hqp]
      exact hrunning
    · refine ⟨fun hr => absurd ((h.running q).1 ?_) (hidle q hqp), fun hc => absurd hc (hidle' q hqp)⟩
      rcases hstatus q hqp with hs | hs | ⟨hs, -⟩
      · rwa [← hs]
      · rw [hs] at hr
        exact absurd hr (by simp)
      · rw [hs] at hr
        exact absurd hr (by simp)
  · by_cases hqp : q = p
    · rw [hqp] at hq ⊢
      exact (hsleep.resolve_right fun hx => hx.1 hq).2
    · rw [hplace q hqp]
      refine h.sleeping q ?_
      rcases hstatus q hqp with hs | hs | ⟨hs, -⟩
      · rwa [← hs]
      · rw [hs] at hq
        exact absurd hq (by simp)
      · rw [hs] at hq
        exact absurd hq (by simp)
  · by_cases hqp : q = p
    · rw [hqp] at hq ⊢
      exact .inl (hsleep.resolve_right fun hx => hx.2 hq).1
    · rw [hplace q hqp] at hq
      have hold := h.inSleep q hq
      rcases hstatus q hqp with hs | hs | ⟨-, hns, hnr⟩
      · rwa [hs]
      · exact .inr hs
      · exact absurd hold (by simp [hns, hnr])

/-! ## Every step -/

/-- Slot `c`, a child of `p`, is reaped. -/
structure Reaps (s : Tasking) (p c : Fin NPROC) (pid : Nat) (t : Tasking) : Prop where
  caller : s.cpuProc = some p
  parent : (s.m.proc c).parent = some p
  zombie : (s.m.proc c).status = .zombie
  pid : (s.m.proc c).pid = pid
  freed : (t.m.proc c).status = .free

/-- The invariant of the process table, and what it knows about the past. -/
structure Tasks (past : List TaskEvent) (s : Tasking) : Prop where
  tree : Tree s.m
  place : Whereabouts s
  ledger : Ledger s.m past

/-- `cpu->proc` is `p`. -/
theorem Whereabouts.of_running {s : Tasking} {p : Fin NPROC} (h : Whereabouts s) (hp : s.cpuProc = some p) :
    (s.m.proc p).status = .running ∧ ∀ q, q ≠ p → s.cpuProc ≠ some q :=
  ⟨(h.running p).2 hp, fun _ hq hc => hq (Option.some.inj (hc.symm.trans hp))⟩

/-- What a step does: the invariant is kept, and slots are freed by the reaping of their processes. -/
structure Kept (past : List TaskEvent) (s : Tasking) (e : TaskEvent) (t : Tasking) : Prop where
  tasks : Tasks (e :: past) t
  reaps : ∀ p pid addr stored, e = .reaped p pid addr stored → ∃ c, Reaps s p c pid t
  freed : ∀ c, (s.m.proc c).status ≠ .free → (t.m.proc c).status = .free →
    ∃ p addr stored, e = .reaped p (s.m.proc c).pid addr stored ∧ Reaps s p c (s.m.proc c).pid t

section Steps
variable {past : List TaskEvent} {s t : Tasking} {p : Fin NPROC} {m : Machine}

theorem Tasks.tame (h : Tasks past s) (ht : Tame s.m t.m) (hw : Whereabouts t) : Kept past s .other t :=
  ⟨⟨h.tree.tame ht, hw, h.ledger.tame ht⟩, fun _ _ _ _ he => absurd he (by simp),
    fun c hc hf => absurd ((ht.free c).1 hf) hc⟩

theorem Tasks.dispatch (h : Tasks past s) {q : Fin NPROC} (hcpu : s.cpuProc = none)
    (hready : (s.m.proc q).status = .ready) : Kept past s .other (s.dispatch q) := by
  obtain ⟨v, he, hrun, hpid, hparent, hx⟩ : ∃ v, Edited s.m q s.m.nextpid v (s.dispatch q).m ∧ v.status = .running ∧
      v.pid = (s.m.proc q).pid ∧ v.parent = (s.m.proc q).parent ∧ v.xstate = (s.m.proc q).xstate := by
    unfold Tasking.dispatch
    split
    · exact ⟨_, (edited_self s.m q).modProc fun v => { v with status := .running, chan := none }, rfl, rfl, rfl, rfl⟩
    · exact ⟨_, (edited_self s.m q).modProc fun v => { v with status := .running }, rfl, rfl, rfl, rfl⟩
  have hproc : (s.dispatch q).cpuProc = some q := by
    unfold Tasking.dispatch
    split <;> rfl
  have hother (r : Fin NPROC) (hr : r ≠ q) : (s.dispatch q).place r = s.place r := by
    unfold Tasking.dispatch
    split
    · exact update_of_ne hr _ _
    · rfl
  refine h.tame (he.tame (by simp [hready]) (by simp [hready]) (by simp [hrun]) (by simp [hrun]) hpid hparent hx)
    (h.place.moved (p := q) (fun r _ => ?_) (fun r hr => ?_) hother (fun r hr => ?_) ?_ ?_)
  · rw [hcpu]
    simp
  · rw [hproc]
    exact fun heq => hr (Option.some.inj heq).symm
  · rw [he.of_ne hr]
    exact .inl rfl
  · rw [he.self, hrun, hproc]
    simp
  · refine .inr ⟨?_, s.dispatch_awake q⟩
    rw [he.self, hrun]
    simp

/-- The running process gives up the processor, ready or inside `sleep`. -/
theorem Tasks.parked (h : Tasks past s) (hcpu : s.cpuProc = some p) {v : Proc} {place : Place}
    (he : Edited s.m p s.m.nextpid v m) (hpid : v.pid = (s.m.proc p).pid) (hparent : v.parent = (s.m.proc p).parent)
    (hx : v.xstate = (s.m.proc p).xstate)
    (hst : v.status = .ready ∧ ¬ place.InSleep ∨ v.status = .sleeping ∧ place.InSleep) :
    Kept past s .other { m, cpuProc := none, place := update s.place p place } := by
  obtain ⟨hrun, honly⟩ := h.place.of_running hcpu
  have hlive : v.status ≠ .free ∧ v.status ≠ .zombie ∧ v.status ≠ .running := by
    rcases hst with ⟨hv, -⟩ | ⟨hv, -⟩
    · simp [hv]
    · simp [hv]
  refine h.tame (he.tame (by simp [hrun]) (by simp [hrun]) hlive.1 hlive.2.1 hpid hparent hx)
    (h.place.moved (p := p) honly (fun q _ => ?_) (fun q hq => update_of_ne hq _ _) (fun q hq => ?_) ?_ ?_)
  · simp
  · exact .inl (by rw [he.of_ne hq])
  · rw [he.self]
    simp [hlive.2.2]
  · rw [he.self]
    show _ ∧ (update s.place p place p).InSleep ∨ _ ∧ ¬ (update s.place p place p).InSleep
    rw [update_self]
    rcases hst with ⟨hv, hpl⟩ | ⟨hv, hpl⟩
    · exact .inr ⟨by simp [hv], hpl⟩
    · exact .inl ⟨hv, hpl⟩

theorem Tasks.wakeup (h : Tasks past s) (hcpu : s.cpuProc = some p) (hidle : s.place p = .idle)
    (chan : Option (Fin NPROC)) : Kept past s .other { s with m := s.m.wake p chan } := by
  obtain ⟨hrun, honly⟩ := h.place.of_running hcpu
  have hself : (s.m.wake p chan).proc p = s.m.proc p := (s.m.wake_proc p chan p).resolve_right fun hx => hx.1 rfl
  refine h.tame (tame_wake _ _ _) (h.place.moved (p := p) honly honly (fun _ _ => rfl) (fun q _ => ?_) ?_ ?_)
  · rcases s.m.wake_proc p chan q with he | ⟨-, -, he⟩
    · exact .inl (by rw [he])
    · exact .inr (.inl (by rw [he]))
  · rw [hself]
    exact h.place.running p
  · refine .inr ⟨?_, ?_⟩
    · rw [hself, hrun]
      simp
    · rw [hidle]
      exact id

theorem Tasks.nokids (h : Tasks past s) (hcpu : s.cpuProc = some p) :
    Kept past s .other { s with place := update s.place p .idle } := by
  obtain ⟨hrun, honly⟩ := h.place.of_running hcpu
  refine h.tame ⟨fun _ => rfl, fun _ => rfl, fun _ => rfl, fun _ => Iff.rfl, fun _ => Iff.rfl, rfl⟩
    (h.place.moved (p := p) honly honly (fun q hq => update_of_ne hq _ _) (fun _ _ => .inl rfl) (h.place.running p) ?_)
  refine .inr ⟨?_, ?_⟩
  · rw [hrun]
    simp
  · show ¬ (update s.place p _ p).InSleep
    rw [update_self]
    exact id

theorem Tasks.forked (h : Tasks past s) (hcpu : s.cpuProc = some p) (hidle : s.place p = .idle)
    {r : Option (Fin NPROC)} (hf : Forked s.m p r m) :
    Kept past s (forkEvent s.m m p r) { s with m } := by
  obtain ⟨hrun, honly⟩ := h.place.of_running hcpu
  -- a slot that is free is filled, or stays free
  have hslot : ∀ q, (m.proc q).status = (s.m.proc q).status ∨ (s.m.proc q).status = .free ∧ (m.proc q).status = .ready := by
    intro q
    cases hf with
    | full hc hproc hnext => exact .inl (by rw [hproc])
    | @failed _ c v hc he hfree =>
        by_cases hq : q = c
        · exact .inl (by rw [hq, he.self, hfree, freeSlot_free hc])
        · exact .inl (by rw [he.of_ne hq])
    | @done _ c v hc he hready =>
        by_cases hq : q = c
        · exact .inr ⟨by rw [hq, freeSlot_free hc], by rw [hq, he.self, hready]⟩
        · exact .inl (by rw [he.of_ne hq])
  have hself : (m.proc p).status = (s.m.proc p).status := by
    refine (hslot p).resolve_right fun hx => ?_
    rw [hrun] at hx
    exact absurd hx.1 (by simp)
  have hw : Whereabouts { s with m } := by
    refine h.place.moved (p := p) honly honly (fun _ _ => rfl) (fun q _ => ?_) ?_ ?_
    · exact (hslot q).imp_right fun hx => .inl hx.2
    · rw [hself]
      exact h.place.running p
    · refine .inr ⟨?_, ?_⟩
      · rw [hself, hrun]
        simp
      · rw [hidle]
        exact id
  refine ⟨⟨h.tree.forked hrun hf, hw, h.ledger.forkedStep hf⟩, fun _ _ _ _ he => ?_, fun c hc hfc => ?_⟩
  · unfold forkEvent at he
    split at he
    · exact absurd he (by simp)
    · split at he
      · exact absurd he (by simp)
      · exact absurd he (by simp)
  · rcases hslot c with hs | ⟨hs, -⟩
    · exact absurd (hs ▸ hfc) hc
    · exact absurd hs hc

theorem Tasks.exit (h : Tasks past s) (hcpu : s.cpuProc = some p) (hidle : s.place p = .idle) {status : Int32}
    (he : Exited s.m p status m) :
    Kept past s (.exited p (s.m.proc p).pid status) { s with m, cpuProc := none } := by
  obtain ⟨hrun, honly⟩ := h.place.of_running hcpu
  refine ⟨⟨h.tree.exited hrun he, h.place.moved (p := p) honly (fun q _ => by simp) (fun _ _ => rfl) (fun q hq => ?_) ?_ ?_,
    h.ledger.exitStep h.tree hrun he⟩, fun _ _ _ _ hx => absurd hx (by simp), fun c hc hf => ?_⟩
  · exact (he.status q hq).imp_right fun hx => .inl hx.2
  · rw [he.zombie]
    simp
  · refine .inr ⟨?_, ?_⟩
    · rw [he.zombie]
      simp
    · rw [hidle]
      exact id
  · by_cases hcp : c = p
    · rw [hcp, show ({ s with m, cpuProc := none } : Tasking).m = m from rfl, he.zombie] at hf
      exact absurd hf (by simp)
    · rcases he.status c hcp with hs | ⟨-, hs⟩
      · exact absurd (hs ▸ hf) hc
      · rw [show ({ s with m, cpuProc := none } : Tasking).m = m from rfl, hs] at hf
        exact absurd hf (by simp)

theorem Tasks.reap (h : Tasks past s) (hcpu : s.cpuProc = some p) {c : Fin NPROC} {v : Proc} {addr : UInt64}
    (hparent : (s.m.proc c).parent = some p) (hz : (s.m.proc c).status = .zombie) (he : Edited s.m c s.m.nextpid v m)
    (hfree : v.status = .free) (hnone : v.parent = none) :
    Kept past s (.reaped p (s.m.proc c).pid addr (if addr = 0 then none else some (s.m.proc c).xstate))
      { s with m, place := update s.place p .idle } := by
  obtain ⟨hrun, honly⟩ := h.place.of_running hcpu
  have hpc : p ≠ c := by
    rintro rfl
    rw [hrun] at hz
    exact absurd hz (by simp)
  have hreaps : Reaps s p c (s.m.proc c).pid { s with m, place := update s.place p .idle } :=
    ⟨hcpu, hparent, hz, rfl, by rw [he.self, hfree]⟩
  refine ⟨⟨h.tree.reaped hparent hz he hfree hnone, ?_, h.ledger.reapStep h.tree hparent hz he hfree⟩,
    fun p' pid addr' stored heq => ?_, fun c' hc' hf => ?_⟩
  · refine h.place.moved (p := p) honly honly (fun q hq => update_of_ne hq _ _) (fun q _ => ?_) ?_ ?_
    · by_cases hqc : q = c
      · rw [hqc, he.self, hz]
        exact .inr (.inr ⟨hfree, by simp, by simp⟩)
      · exact .inl (by rw [he.of_ne hqc])
    · rw [he.of_ne hpc]
      exact h.place.running p
    · refine .inr ⟨?_, ?_⟩
      · rw [he.of_ne hpc, hrun]
        simp
      · show ¬ (update s.place p _ p).InSleep
        rw [update_self]
        exact id
  · injection heq with hp hpid
    rw [← hp, ← hpid]
    exact ⟨c, hreaps⟩
  · have hcc : c' = c := by
      by_contra hne
      rw [show ({ s with m, place := update s.place p .idle } : Tasking).m = m from rfl, he.of_ne hne] at hf
      exact hc' hf
    rw [hcc]
    exact ⟨p, addr, _, rfl, hreaps⟩

end Steps

/-! ## From the start -/

structure Table (s : Tasking) : Prop where
  running : ∀ q, (s.m.proc q).status = .running ↔ s.cpuProc = some q
  pid : ∀ q, (s.m.proc q).status ≠ .free → 0 < (s.m.proc q).pid ∧ (s.m.proc q).pid < 2 ^ 31
  distinct : ∀ q r, (s.m.proc q).status ≠ .free → (s.m.proc r).status ≠ .free →
    (s.m.proc q).pid = (s.m.proc r).pid → q = r
  parent : ∀ q, (s.m.proc q).status ≠ .free → q ≠ init → ∃ r, (s.m.proc q).parent = some r ∧
    (s.m.proc r).status ≠ .free ∧ (s.m.proc r).pid < (s.m.proc q).pid
  chain : ∀ q, (s.m.proc q).status ≠ .free → Relation.ReflTransGen (ParentOf s.m) q init
  acyclic : ∀ q, ¬ Relation.TransGen (ParentOf s.m) q q
  free : ∀ q, (s.m.proc q).status = .free → (s.m.proc q).parent = none
  sleeping : ∀ q, (s.m.proc q).status = .sleeping → (s.place q).InSleep
  inSleep : ∀ q, (s.place q).InSleep → (s.m.proc q).status = .sleeping ∨ (s.m.proc q).status = .ready

/-- The scheduler of `m` starts. -/
def Tasking.start (m : Machine) : Tasking := { m, cpuProc := none, place := fun _ => .idle }

end RiscvOsLab.Kernel
