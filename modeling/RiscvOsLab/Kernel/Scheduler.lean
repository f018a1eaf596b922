import RiscvOsLab.Kernel.Lifetimes
import RiscvOsLab.Kernel.Pages
import RiscvOsLab.Lib.RoundRobin

/-!
# The scheduler's round (`kernel/proc/proc.c`)

`scheduler` with its loop variable and `cpu->proc`, around the steps of the process that runs.

* `SchedStep` : the loop passes a slot, or switches to a process that is ready; the process runs, and switches back;
* `Turn` : who runs is `cpu->proc`, and the loop stands at its slot;
* `scheduler_fair` : a process that is ready stays ready until it is dispatched, within one round.
-/

namespace RiscvOsLab.Kernel

open Prog Function
open RoundRobin (Round)

structure Sched where
  m : Machine
  cpuProc : Option (Fin NPROC)
  /-- `p`, the loop variable of `scheduler`. -/
  p : Fin NPROC

inductive SchedEvent where
  | pass
  | dispatch (p : Fin NPROC)
  | run
  | switch

/-- A step of `scheduler`, or of the process that it has switched to. -/
inductive SchedStep (mayExit : Machine → Fin NPROC → Prop) (s : Sched) : SchedEvent → Sched → Prop
  | pass : s.cpuProc = none → (s.m.proc s.p).status ≠ .ready →
      SchedStep mayExit s .pass { s with p := RoundRobin.next s.p }
  | dispatch : s.cpuProc = none → (s.m.proc s.p).status = .ready →
      SchedStep mayExit s (.dispatch s.p)
        { s with m := s.m.modProc s.p fun v => { v with status := .running }, cpuProc := some s.p }
  -- a tick, or a call, after which the process still runs
  | run {q : Fin NPROC} {m : Machine} : s.cpuProc = some q → Step mayExit s.m m → (m.proc q).status = .running →
      SchedStep mayExit s .run { s with m }
  -- `yield`, `exit` and `sleep` switch back
  | switch {q : Fin NPROC} {m : Machine} : s.cpuProc = some q → Step mayExit s.m m → (m.proc q).status ≠ .running →
      SchedStep mayExit s .switch { m, cpuProc := none, p := RoundRobin.next s.p }

/-- `scheduler` is entered after `userinit`. -/
structure SchedStart (s : Sched) : Prop where
  booted : Booted s.m
  cpuProc : s.cpuProc = none
  p : s.p = ⟨0, nproc_pos⟩

/-- Who runs. -/
structure Turn (s : Sched) : Prop where
  running : ∀ q, (s.m.proc q).status = .running ↔ s.cpuProc = some q
  place : ∀ q, s.cpuProc = some q → s.p = q

section
variable {mayExit : Machine → Fin NPROC → Prop}

/-- A step of the process that runs: another one that is ready stays so, and none starts to run. -/
theorem Step.others {s t : Machine} {p q : Fin NPROC} (h : Step mayExit s t) (hp : (s.proc p).status = .running)
    (honly : ∀ r, (s.proc r).status = .running → r = p) (hq : q ≠ p) :
    ((s.proc q).status = .ready → (t.proc q).status = .ready) ∧ (t.proc q).status ≠ .running := by
  have hidle : (s.proc q).status ≠ .running := fun hr => hq (honly q hr)
  have hsame {u : Machine} (hu : (u.proc q).status = (s.proc q).status) :
      ((s.proc q).status = .ready → (u.proc q).status = .ready) ∧ (u.proc q).status ≠ .running := by
    rw [hu]
    exact ⟨id, hidle⟩
  have hother {u : Machine} (v : Machine) {n : Nat} {c : Fin NPROC} {w : Proc} (he : Edited v c n w u)
      (hv : (v.proc q).status = (s.proc q).status) (hc : (s.proc c).status ≠ .ready ∨ c = p) (hw : w.status ≠ .running) :
      ((s.proc q).status = .ready → (u.proc q).status = .ready) ∧ (u.proc q).status ≠ .running := by
    by_cases hqc : q = c
    · subst hqc
      rw [he.self]
      exact ⟨fun hr => absurd hr (hc.resolve_right hq), hw⟩
    · refine hsame ?_
      rw [he.of_ne hqc, hv]
  have hwaited {u v : Machine} {r : WaitEnd} (hw : Waited v p r u) (hv : ∀ c, (v.proc c).status = (s.proc c).status) :
      ((s.proc q).status = .ready → (u.proc q).status = .ready) ∧ (u.proc q).status ≠ .running := by
    cases hw with
    | @reaped _ c w _ hz he hfree =>
        refine hother v he (hv q) (.inl ?_) (by simp [hfree])
        rw [← hv c, hz]
        simp
    | nokids => exact hsame (hv q)
    | asleep he => exact hother v he (hv q) (.inr rfl) (by simp)
  cases h with
  | dispatch hnone _ => exact absurd hp (hnone p)
  | @tick r hr =>
      obtain rfl := honly r hr
      refine hsame ?_
      rw [Machine.modProc_of_ne hq]
  | file _ _ hrun => exact hsame ((wp_ok (wp_fileCall_owners _ _ _ _) hrun).status q)
  | @fork _ r _ hr _ hrun =>
      obtain rfl := honly r hr
      cases wp_ok (wp_fork _ _) hrun with
      | full _ hproc => exact hsame (by rw [hproc])
      | failed hc he hfree => exact hother s he rfl (.inl (by simp [freeSlot_free hc])) (by simp [hfree])
      | done hc he hready => exact hother s he rfl (.inl (by simp [freeSlot_free hc])) (by simp [hready])
  | @exit _ r _ _ _ hr _ hrun =>
      obtain rfl := honly r hr
      have he := wp_ok (E := fun _ => False) (wp_exit _ _ _) hrun
      rcases he.status q hq with hst | ⟨hsl, hst⟩
      · exact hsame hst
      · rw [hst, hsl]
        simp
  | @wait _ r _ hr _ hrun =>
      obtain rfl := honly r hr
      exact hwaited (wp_ok (wp_waitPass _ _) hrun) fun _ => rfl
  | @woken _ r _ hr _ hrun =>
      obtain rfl := honly r hr
      rw [waitResume, run_bind] at hrun
      refine hwaited (wp_ok (wp_waitPass _ _) hrun) fun c => ?_
      by_cases hc : c = r
      · rw [hc, Machine.modProc_self]
      · rw [Machine.modProc_of_ne hc]

theorem Turn.others {s : Sched} {t : Machine} {p q : Fin NPROC} (h : Turn s) (hst : Step mayExit s.m t)
    (hp : s.cpuProc = some p) (hq : q ≠ p) :
    ((s.m.proc q).status = .ready → (t.proc q).status = .ready) ∧ (t.proc q).status ≠ .running :=
  hst.others ((h.running p).2 hp) (fun r hr => Option.some.inj (((h.running r).1 hr).symm.trans hp)) hq

theorem Turn.step {s t : Sched} {e : SchedEvent} (h : Turn s) (hst : SchedStep mayExit s e t) : Turn t := by
  cases hst with
  | pass => exact ⟨h.running, fun q hq => by simp_all⟩
  | dispatch hidle hready =>
      refine ⟨fun q => ?_, fun q hq => Option.some.inj hq⟩
      show ((s.m.modProc s.p fun v => { v with status := .running }).proc q).status = .running ↔ some s.p = some q
      by_cases hq : q = s.p
      · rw [hq, Machine.modProc_self]
        simp
      · rw [Machine.modProc_of_ne hq, h.running, hidle]
        simp [Ne.symm hq]
  | @run p m hp hst hrun =>
      refine ⟨fun q => ?_, h.place⟩
      show (m.proc q).status = .running ↔ s.cpuProc = some q
      rw [hp]
      by_cases hq : q = p
      · rw [hq]
        exact ⟨fun _ => rfl, fun _ => hrun⟩
      · exact ⟨fun hr => absurd hr (h.others hst hp hq).2, fun he => absurd (Option.some.inj he).symm hq⟩
  | @switch p m hp hst hstop =>
      refine ⟨fun q => ?_, fun q hq => absurd hq (by simp)⟩
      show (m.proc q).status = .running ↔ none = some q
      by_cases hq : q = p
      · rw [hq]
        simp [hstop]
      · simp [(h.others hst hp hq).2]

theorem schedStart {m : Machine} (h : Booted m) : SchedStart ⟨m, none, ⟨0, nproc_pos⟩⟩ := ⟨h, rfl, rfl⟩

/-- The scheduler as a server that goes round. -/
def Sched.round (s : Sched) : Round NPROC := ⟨s.p, s.cpuProc.isSome⟩

def SchedEvent.round : SchedEvent → RoundRobin.Event NPROC
  | .pass => .pass
  | .dispatch p => .serve p
  | .run => .stay
  | .switch => .done

/-- The slots that are dispatched. -/
def dispatched : List SchedEvent → List (Fin NPROC)
  | [] => []
  | .dispatch p :: es => p :: dispatched es
  | _ :: es => dispatched es

/-- The slots that the loop looks at. -/
def looks : List SchedEvent → Nat
  | [] => 0
  | .dispatch _ :: es => looks es + 1
  | .pass :: es => looks es + 1
  | _ :: es => looks es

theorem served_round (es : List SchedEvent) : RoundRobin.served (es.map SchedEvent.round) = dispatched es := by
  induction es with
  | nil => rfl
  | cons e es ih => cases e <;> simp [SchedEvent.round, RoundRobin.served, dispatched, ih]

theorem turns_round (es : List SchedEvent) : RoundRobin.turns (es.map SchedEvent.round) = looks es := by
  induction es with
  | nil => rfl
  | cons e es ih => cases e <;> simp [SchedEvent.round, RoundRobin.turns, looks, ih]

/-- While `q` is ready, the scheduler is a server at which `q` waits. -/
theorem Turn.waits {s t : Sched} {e : SchedEvent} {q : Fin NPROC} (h : Turn s) (hq : (s.m.proc q).status = .ready)
    (hst : SchedStep mayExit s e t) (he : e ≠ .dispatch q) :
    (t.m.proc q).status = .ready ∧ RoundRobin.Waits q s.round e.round t.round := by
  have hnot {p : Fin NPROC} (hp : s.cpuProc = some p) : q ≠ p := by
    rintro rfl
    rw [(h.running q).2 hp] at hq
    exact absurd hq (by simp)
  obtain ⟨sm, cp, sp⟩ := s
  cases hst with
  | pass hidle hst =>
      obtain rfl : cp = none := hidle
      refine ⟨hq, .pass rfl ?_⟩
      show sp ≠ q
      rintro rfl
      exact hst hq
  | dispatch hidle _ =>
      obtain rfl : cp = none := hidle
      have hne : sp ≠ q := fun heq => he (congrArg SchedEvent.dispatch heq)
      refine ⟨?_, .serve rfl hne⟩
      show ((sm.modProc sp fun v => { v with status := .running }).proc q).status = .ready
      rw [Machine.modProc_of_ne hne.symm]
      exact hq
  | @run p m hp hst _ => exact ⟨(h.others hst hp (hnot hp)).1 hq, .stay⟩
  | @switch p m hp hst _ =>
      refine ⟨(h.others hst hp (hnot hp)).1 hq, ?_⟩
      have hplace := h.place p hp
      obtain rfl : cp = some p := hp
      obtain rfl : sp = p := hplace
      exact .done rfl (hnot rfl).symm

/-- What a process that is ready can count on until it is dispatched. -/
structure Served (q : Fin NPROC) (s : Sched) (es : List SchedEvent) (t : Sched) : Prop where
  ready : (t.m.proc q).status = .ready
  /-- No slot is dispatched twice. -/
  once : (dispatched es).Nodup
  /-- The slots are dispatched in the order in which the loop comes to them. -/
  order : (dispatched es).Pairwise fun i j => RoundRobin.ahead j q < RoundRobin.ahead i q
  /-- The loop has not looked at all slots. -/
  looks : looks es < NPROC

theorem Turn.served {s t : Sched} {es : List SchedEvent} {q : Fin NPROC} (h : Turn s) (hq : (s.m.proc q).status = .ready)
    (htr : Trace (SchedStep mayExit) s es t) (hno : .dispatch q ∉ es) : Served q s es t := by
  obtain ⟨hready, hwaits⟩ : (t.m.proc q).status = .ready ∧
      Trace (RoundRobin.Waits q) s.round (es.map SchedEvent.round) t.round := by
    induction htr with
    | nil => exact ⟨hq, .nil⟩
    | cons hst _ ih =>
        obtain ⟨hready, hw⟩ := h.waits hq hst fun heq => hno (heq ▸ List.mem_cons_self)
        obtain ⟨hend, hrest⟩ := ih (h.step hst) hready fun hin => hno (List.mem_cons_of_mem _ hin)
        exact ⟨hend, .cons hw hrest⟩
  have hleft : 0 < RoundRobin.left q s.round := by
    obtain ⟨sm, cp, sp⟩ := s
    cases cp with
    | none => exact Nat.succ_pos _
    | some p =>
        have hrun := (h.running p).2 rfl
        obtain rfl : sp = p := h.place p rfl
        refine RoundRobin.ahead_pos ?_
        show sp ≠ q
        rintro rfl
        rw [hq] at hrun
        exact absurd hrun (by simp)
  have hb := RoundRobin.Waits.bypassed hwaits
  have honce := hb.nodup
  have horder := hb.order
  have hlt := hb.turns_lt (RoundRobin.Waits.left_pos hwaits hleft)
  rw [served_round] at honce horder
  rw [turns_round] at hlt
  exact ⟨hready, honce, horder, hlt⟩

end

end RiscvOsLab.Kernel
