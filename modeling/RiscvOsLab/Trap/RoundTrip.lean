import RiscvOsLab.Trap.Transparent
import Mathlib.Logic.Relation

/-!
# From a trap to its return, and from a switch to the switch back

Between the two ends any calm run: other processes with their own traps, nested interrupts, switches.

* `UserTrip` : a process that trapped from user mode goes on with its registers and pc, after an ecall with `pc + 4` and
  the result in `a0`; the child of a `fork` with 0 in `a0`;
* `TrapTrip` : code of the kernel that was interrupted goes on with its registers, pc and `sstatus`;
* `SwitchTrip` : a thread that called `swtch` goes on with the registers of a context, at its `ra`.

`Inv.roundTrip` : each calm step from a state of the invariant begins such trips only.
-/

namespace RiscvOsLab.Trap

open Function Riscv
open RiscvOsLab.Kernel (NPROC TaskStatus)
open RiscvOsLab.Proc (Thread Ctx)

/-- A calm run all of whose steps meet a condition. -/
def Run (L : Layout) (ok : Sys → Event → Prop) : Sys → Sys → Prop :=
  Relation.ReflTransGen (Steps L fun s e => Calm s e ∧ ok s e)

/-- The slot an event makes a process in. -/
def Event.makes : Event → Option (Fin NPROC)
  | .userinit => some 0
  | .fork p => some p
  | _ => none

/-- Process `p` does not trap from user mode, and no process is made in its place. -/
def Inside (p : Fin NPROC) (s : Sys) (e : Event) : Prop :=
  e.makes ≠ some p ∧ ∀ cause, e = .userTrap cause → s.cur ≠ .proc p

/-- Thread `t` has more than `n` calls of `sys_trap_handler` to return from. -/
def Above (t : Thread) (n : Nat) (s : Sys) (_ : Event) : Prop := n < (s.stack t).length

/-- Thread `t` does not run, and no process is made in its place. -/
def Away (t : Thread) (s : Sys) (e : Event) : Prop := s.cur ≠ t ∧ ∀ p, t = .proc p → e.makes ≠ some p

/-- The call that process `p` makes has stored its result `v`, in a run from `s` to `t`. -/
def Stored (L : Layout) (p : Fin NPROC) (s t : Sys) (v : Word) : Prop :=
  ∃ u u', Run L (Inside p) s u ∧ u.cur = .proc p ∧ Step L u (.result v) u' ∧ Run L (Inside p) u' t

/-- What a trap taken with `i` is to bring back to user mode. -/
def Returns (cause : Cause) (i : Image) (stored : Word → Prop) (j : Image) : Prop :=
  match cause with
  | .ecall => ∃ v, stored v ∧ j = ⟨update i.reg .a0 v, i.pc + 4⟩
  | _ => j = i

/-- The trap of process `p` from `s` to `t`. -/
structure UserTrip (L : Layout) (s t : Sys) (cause : Cause) (p : Fin NPROC) : Prop where
  arguments : ∀ u q, Run L (Inside p) t u → At u p (.syscall q) → Arguments u.core.mem (u.tf q) s.core.reg
  returns : ∀ u v, Run L (Inside p) t u → u.cur = .proc p → Step L u .usertrapret v →
    v.core.user = true ∧ Returns cause ⟨s.core.reg, s.core.pc⟩ (Stored L p t u) ⟨v.core.reg, v.core.pc⟩
  child : ∀ c w w' u v, Run L (Inside p) t w → w.cur = .proc p → Step L w (.fork c) w' → Run L (Inside c) w' u →
    u.cur = .proc c → Step L u .usertrapret v →
    v.core.user = true ∧ v.core.reg = update s.core.reg .a0 0 ∧ v.core.pc = s.core.pc + 4

/-- The interrupt from `s` to `t`. -/
def TrapTrip (L : Layout) (s t : Sys) : Prop :=
  ∀ u v, Run L (Above s.cur (s.stack s.cur).length) t u → u.cur = s.cur →
    (u.stack s.cur).length = (s.stack s.cur).length + 1 → Step L u .trapReturn v →
    v.core.reg = s.core.reg ∧ v.core.pc = s.core.pc ∧ v.core.sstatus = ⟨s.core.sstatus.sie, true, false⟩ ∧
      v.core.user = false

/-- The switch from `s` to `t`. -/
def SwitchTrip (L : Layout) (s t : Sys) : Prop :=
  ∀ u e v, Run L (Away s.cur) t u → u.cur ≠ s.cur → Calm u e → Step L u e v → v.cur = s.cur →
    (∀ r ∈ context, v.core.reg r = s.core.reg r) ∧ v.core.pc = s.core.reg .ra

def RoundTrip (L : Layout) (s : Sys) : Event → Sys → Prop
  | .userTrap cause, t => ∀ p, s.cur = .proc p → UserTrip L s t cause p
  | .trap _, t => TrapTrip L s t
  | .dispatch, t => SwitchTrip L s t
  | .yield, t => SwitchTrip L s t
  | .block _, t => SwitchTrip L s t
  | _, _ => True

section Runs
variable {L : Layout} {s t u v : Sys} {ok : Sys → Event → Prop}

theorem Run.snoc {e : Event} (h : Run L ok s t) (hlost : t.lost = false) (hcalm : Calm t e) (hok : ok t e)
    (hst : Step L t e u) : Run L ok s u :=
  Relation.ReflTransGen.tail h ⟨hlost, e, ⟨hcalm, hok⟩, hst⟩

theorem Inv.run (hi : Inv L s) (h : Run L ok s t) : Inv L t := by
  induction h with
  | refl => exact hi
  | tail _ hst ih =>
      obtain ⟨-, e, ⟨hcalm, -⟩, hst⟩ := hst
      exact (ih.step hst hcalm).1

/-! ## Back to user mode -/

/-- What a step can do to where a process stands, and to what it is to go on with. -/
inductive Moves (s : Sys) (p : Fin NPROC) (t : Sys) : Event → Prop
  | stays {e : Event} : t.place p = s.place p → t.image p = s.image p → Moves s p t e
  | userTrap {cause : Cause} : s.cur = .proc p → t.place p = cause.place → t.image p = ⟨s.core.reg, s.core.pc⟩ →
      Moves s p t (.userTrap cause)
  | skip {q : Fin NPROC} : s.place p = .ecall → t.place p = .syscall q →
      t.image p = ⟨(s.image p).reg, (s.image p).pc + 4⟩ → Moves s p t .skip
  | result {q : Fin NPROC} {v : Word} : s.cur = .proc p → s.place p = .syscall q → t.place p = .ret →
      t.image p = ⟨update (s.image p).reg .a0 v, (s.image p).pc⟩ → Moves s p t (.result v)
  | made {e : Event} : e.makes = some p → t.place p = .ret → Moves s p t e
  | yielded {e : Event} : s.place p = .timer → t.place p = .ret → t.image p = s.image p → Moves s p t e
  | left {e : Event} : t.place p = .user → Moves s p t e

theorem setPlace_place (p : Fin NPROC) (pl : Place) : (s.setPlace p pl).place p = pl := update_self _ _ _

theorem swtch_image (old new : Ctx) : (s.swtch L old new).image = s.image := by
  unfold Sys.swtch
  simp only []
  split <;> rfl

theorem swtch_moves {e : Event} (old new : Ctx) (p : Fin NPROC) (hplace : s.place p = t.place p)
    (himage : s.image p = t.image p) : Moves t p (s.swtch L old new) e := by
  apply Moves.stays
  · rw [(swtch_keeps old new).place, hplace]
  · rw [swtch_image, himage]

theorem made_moves {e : Event} {c : Fin NPROC} {tf kstack : Word} {m : Memory} {i : Image} (h : e.makes = some c)
    (p : Fin NPROC) : Moves s p (s.made L c tf kstack m i) e := by
  have hplace : (s.made L c tf kstack m i).place = update s.place c .ret := rfl
  have himage : (s.made L c tf kstack m i).image = update s.image c i := rfl
  rcases eq_or_ne p c with rfl | hpc
  · exact .made h (by rw [hplace, update_self])
  · exact .stays (by rw [hplace, update_of_ne hpc]) (by rw [himage, update_of_ne hpc])

theorem Step.moves {e : Event} (hst : Step L s e t) (p : Fin NPROC) : Moves s p t e := by
  cases hst with
  | @userTrap q cause _ hcur _ =>
      have hplace : (s.userTrapped q cause).place = update s.place q cause.place := rfl
      have himage : (s.userTrapped q cause).image = update s.image q ⟨s.core.reg, s.core.pc⟩ := rfl
      rcases eq_or_ne p q with rfl | hpq
      · exact .userTrap hcur (by rw [hplace, update_self]) (by rw [himage, update_self])
      · exact .stays (by rw [hplace, update_of_ne hpq]) (by rw [himage, update_of_ne hpq])
  | @skip q r hat _ =>
      rcases eq_or_ne p q with rfl | hpq
      · exact .skip hat.place (update_self _ _ _) (update_self _ _ _)
      · exact .stays (update_of_ne hpq _ _) (update_of_ne hpq _ _)
  | @result q r v hat =>
      rcases eq_or_ne p q with rfl | hpq
      · exact .result hat.cur hat.place (update_self _ _ _) (update_self _ _ _)
      · exact .stays (update_of_ne hpq _ _) (update_of_ne hpq _ _)
  | userinit => exact made_moves rfl p
  | fork => exact made_moves rfl p
  | @passUser q hat =>
      rcases eq_or_ne p q with rfl | hpq
      · exact .yielded hat.place (update_self _ _ _) rfl
      · exact .stays (update_of_ne hpq _ _) rfl
  | @usertrapret q r hat =>
      rcases eq_or_ne p q with rfl | hpq
      · exact .left (update_self _ _ _)
      · exact .stays (update_of_ne hpq _ _) rfl
  | @yieldUser q r hat =>
      rcases eq_or_ne p q with rfl | hpq
      · apply Moves.yielded hat.place
        · rw [(swtch_keeps _ _).place]
          exact update_self _ _ _
        · rw [swtch_image]
          rfl
      · exact swtch_moves _ _ _ (update_of_ne hpq _ _) rfl
  | dispatch => exact swtch_moves _ _ _ rfl rfl
  | yieldTrap => exact swtch_moves _ _ _ rfl rfl
  | block => exact swtch_moves _ _ _ rfl rfl
  | _ => exact .stays rfl rfl

/-- How far a trap of process `p` is that was taken with `i`. -/
def Progress (cause : Cause) (i : Image) (stored : Word → Prop) (p : Fin NPROC) (s : Sys) : Prop :=
  match s.place p with
  | .user => True
  | .ecall => cause = .ecall ∧ s.image p = i
  | .syscall _ => cause = .ecall ∧ s.image p = ⟨i.reg, i.pc + 4⟩
  | .timer => cause ≠ .ecall ∧ s.image p = i
  | .ret => Returns cause i stored (s.image p)

theorem Returns.mono {cause : Cause} {i j : Image} {stored stored' : Word → Prop} (h : Returns cause i stored j)
    (hs : ∀ v, stored v → stored' v) : Returns cause i stored' j := by
  cases cause with
  | ecall =>
      obtain ⟨v, hv, hj⟩ := h
      exact ⟨v, hs v hv, hj⟩
  | timer => exact h
  | external => exact h

theorem Returns.of_ne {cause : Cause} {i : Image} {stored : Word → Prop} (h : cause ≠ .ecall) :
    Returns cause i stored i := by
  cases cause with
  | ecall => exact absurd rfl h
  | timer => rfl
  | external => rfl

/-- One step, `stored` being what was stored before and `stored'` what is stored after it. -/
theorem Progress.step {e : Event} {cause : Cause} {i : Image} {stored stored' : Word → Prop} {p : Fin NPROC}
    (h : Progress cause i stored p s) (hm : Moves s p t e) (hok : Inside p s e) (hs : ∀ v, stored v → stored' v)
    (hresult : ∀ v, e = .result v → s.cur = .proc p → stored' v) : Progress cause i stored' p t := by
  unfold Progress at h ⊢
  cases hm with
  | stays hplace himage =>
      rw [hplace, himage]
      cases hpl : s.place p with
      | ret =>
          rw [hpl] at h
          exact h.mono hs
      | _ =>
          rw [hpl] at h
          exact h
  | userTrap hcur => exact absurd hcur (hok.2 _ rfl)
  | skip hplace hplace' himage =>
      rw [hplace] at h
      rw [hplace', himage, h.2]
      exact ⟨h.1, rfl⟩
  | @result q v hcur hplace hplace' himage =>
      rw [hplace] at h
      rw [hplace', himage, h.2, h.1]
      exact ⟨v, hresult v rfl hcur, rfl⟩
  | made hmade => exact absurd hmade hok.1
  | yielded hplace hplace' himage =>
      rw [hplace] at h
      rw [hplace', himage, h.2]
      exact .of_ne h.1
  | left hplace =>
      rw [hplace]
      trivial

theorem Progress.run {cause : Cause} {i : Image} {p : Fin NPROC} (h : Progress cause i (Stored L p s s) p s)
    (hr : Run L (Inside p) s t) : Progress cause i (Stored L p s t) p t := by
  induction hr with
  | refl => exact h
  | @tail t u hr hst ih =>
      obtain ⟨hlost, e, ⟨hcalm, hok⟩, hst⟩ := hst
      apply ih.step (hst.moves p) hok
      · rintro v ⟨w, w', hw, hcur, hstw, hw'⟩
        exact ⟨w, w', hw, hcur, hstw, hw'.snoc hlost hcalm hok hst⟩
      · rintro v rfl hcur
        exact ⟨t, u, hr, hcur, hst, .refl⟩

/-- The return to user mode brings back what the trap is to bring back. -/
theorem Progress.returns {cause : Cause} {i : Image} {stored : Word → Prop} {p : Fin NPROC}
    (h : Progress cause i stored p s) (hi : Inv L s) (hcur : s.cur = .proc p) (hst : Step L s .usertrapret t) :
    t.core.user = true ∧ Returns cause i stored ⟨t.core.reg, t.core.pc⟩ := by
  obtain ⟨-, hback⟩ := hi.step hst trivial
  obtain ⟨hreg, hpc, huser⟩ := hback p hcur
  rw [hreg, hpc]
  refine ⟨huser, ?_⟩
  cases hst with
  | @usertrapret q _ hat =>
      obtain rfl : q = p := Thread.proc.inj (hat.cur.symm.trans hcur)
      unfold Progress at h
      rw [hat.place] at h
      exact h

/-- The call finds the registers the trap was taken with. -/
theorem Progress.arguments {cause : Cause} {i : Image} {stored : Word → Prop} {p q : Fin NPROC}
    (h : Progress cause i stored p s) (hi : Inv L s) (hat : At s p (.syscall q)) :
    Arguments s.core.mem (s.tf q) i.reg := by
  obtain rfl := hi.self p q hat.place
  have hrunning := (hi.running q hat.cur).2
  have hnotuser : ¬ InUser s q := by
    rintro ⟨huser, -⟩
    rw [hat.user] at huser
    cases huser
  unfold Progress at h
  rw [hat.place] at h
  have hholds := (hi.holds q (by rw [hrunning]; simp) hnotuser).arguments
  rw [h.2] at hholds
  exact hholds

theorem Inv.userTrip {cause : Cause} {p : Fin NPROC} (hi : Inv L s) (hst : Step L s (.userTrap cause) t)
    (hcur : s.cur = .proc p) : UserTrip L s t cause p := by
  obtain ⟨hi', hsaved⟩ := hi.step hst trivial
  obtain ⟨himage, -, -⟩ := hsaved p hcur
  have hplace : t.place p = cause.place := by
    cases hst with
    | @userTrap q _ _ hq =>
        obtain rfl : q = p := Thread.proc.inj (hq.symm.trans hcur)
        exact setPlace_place _ _
  have hstart : Progress cause ⟨s.core.reg, s.core.pc⟩ (Stored L p t t) p t := by
    unfold Progress
    rw [hplace]
    cases cause with
    | ecall => exact ⟨rfl, himage⟩
    | timer => exact ⟨by simp, himage⟩
    | external => exact himage
  refine ⟨fun u q hr hat => (hstart.run hr).arguments (hi'.run hr) hat, fun u v hr hu hret => ?_, ?_⟩
  · exact (hstart.run hr).returns (hi'.run hr) hu hret
  intro c w w' u v hr hw hfork hr' hu hret
  obtain ⟨hiw, hcopy⟩ := (hi'.run hr).step hfork trivial
  obtain ⟨hchild, -⟩ := hcopy p hw
  have hat : ∃ q, w.place p = .syscall q := by
    cases hfork with
    | @fork q r _ _ _ _ hat =>
        obtain rfl : q = p := Thread.proc.inj (hat.cur.symm.trans hw)
        exact ⟨r, hat.place⟩
  obtain ⟨q, hat⟩ := hat
  have hparent := hstart.run hr
  unfold Progress at hparent
  rw [hat] at hparent
  have hplace' : w'.place c = .ret := by
    cases hfork with
    | fork => exact update_self _ _ _
  -- the child's slot is as after an interrupt that was taken with its image
  have hbegin : Progress .external (w'.image c) (Stored L c w' w') c w' := by
    unfold Progress
    rw [hplace']
    rfl
  obtain ⟨huser, hback⟩ := (hbegin.run hr').returns (hiw.run hr') hu hret
  have himg : (⟨v.core.reg, v.core.pc⟩ : Image) = ⟨update s.core.reg .a0 0, s.core.pc + 4⟩ := by
    have hback : (⟨v.core.reg, v.core.pc⟩ : Image) = w'.image c := hback
    rw [hback, hchild, hparent.2]
    rfl
  exact ⟨huser, congrArg Image.reg himg, congrArg Image.pc himg⟩

/-! ## Back to the interrupted kernel -/

/-- What a step can do to the calls of `sys_trap_handler` that a thread has to return from. -/
inductive Restacks (s : Sys) (x : Thread) (t : Sys) : Prop
  | stays : t.stack x = s.stack x → Restacks s x t
  | push {a : Act} : t.stack x = a :: s.stack x → Restacks s x t
  | phase {a : Act} {k : List Act} {ph : Phase} : s.stack x = a :: k → t.stack x = { a with phase := ph } :: k →
      Restacks s x t
  | pop {a : Act} : s.stack x = a :: t.stack x → Restacks s x t
  | gone : t.stack x = [] → Restacks s x t

/-- A new stack for the running thread. -/
theorem Restacks.cur {x : Thread} {k : List Act} (hstack : t.stack = update s.stack s.cur k)
    (h : t.stack s.cur = k → Restacks s s.cur t) : Restacks s x t := by
  rcases eq_or_ne x s.cur with rfl | hx
  · exact h (by rw [hstack, update_self])
  · exact .stays (by rw [hstack, update_of_ne hx])

/-- The process that is made, or reaped, has none. -/
theorem Restacks.clear {x : Thread} {c : Fin NPROC} (hstack : t.stack = update s.stack (.proc c) []) :
    Restacks s x t := by
  rcases eq_or_ne x (.proc c) with rfl | hx
  · exact .gone (by rw [hstack, update_self])
  · exact .stays (by rw [hstack, update_of_ne hx])

theorem Inv.restacks {e : Event} (hi : Inv L s) (hst : Step L s e t) (hok : Calm s e) (x : Thread) :
    Restacks s x t := by
  cases hst with
  | userinit => exact .clear rfl
  | fork => exact .clear rfl
  | reap => exact .clear rfl
  | passTrap hs => exact .cur rfl fun h => .phase hs.stack h
  | trap => exact .cur rfl .push
  | writeSepc hs => exact .cur rfl fun h => .phase hs.stack h
  | trapReturn hs => exact .cur rfl fun h => .pop (by rw [h]; exact hs.stack)
  | dispatch hs hcpu hp =>
      obtain ⟨-, ⟨-, -, hstack⟩, -⟩ := hi.dispatch hs hcpu hp
      exact .stays (by rw [hstack])
  | @yieldUser p q hat hq hp =>
      obtain rfl := hi.myproc hat.cur hq
      obtain ⟨-, hstack, -⟩ := hi.yieldUser hat
      exact .stays (by rw [hstack])
  | @yieldTrap a k q hs hph hq hp =>
      cases hcur : s.cur with
      | sched => exact absurd hcur hok
      | proc p =>
          obtain rfl := hi.myproc hcur hq
          obtain ⟨-, hstack, -⟩ := hi.yieldTrap hs hcur
          exact .cur hstack fun h => .phase hs.stack h
  | @block p q r st hat hr hst =>
      obtain rfl := hi.myproc hat.cur hr
      have hfree : st ≠ .free := by
        rcases hst with rfl | rfl <;> simp
      obtain ⟨-, ⟨-, -, hstack⟩, -⟩ := hi.leave hat.cur hat.user hat.calm hfree
      exact .stays (by rw [hstack])
  | _ => exact .stays rfl

/-- The call `a` is under way on thread `x`, over those of `k`. -/
def UnderWay (x : Thread) (a : Act) (k : List Act) (s : Sys) : Prop :=
  ∃ k' b, s.stack x = k' ++ b :: k ∧ b.reg = a.reg ∧ b.sepc = a.sepc ∧ b.sstatus = a.sstatus

theorem UnderWay.step {x : Thread} {a : Act} {k : List Act} (h : UnderWay x a k s) (hst : Restacks s x t)
    (hlength : k.length < (t.stack x).length) : UnderWay x a k t := by
  obtain ⟨k', b, hstack, hb⟩ := h
  cases hst with
  | stays hsame => exact ⟨k', b, hsame.trans hstack, hb⟩
  | @push c hpush => exact ⟨c :: k', b, by rw [hpush, hstack]; rfl, hb⟩
  | @phase c l ph htop htop' =>
      rw [hstack] at htop
      cases k' with
      | nil =>
          obtain ⟨rfl, rfl⟩ := List.cons.inj htop
          exact ⟨[], { b with phase := ph }, htop', hb⟩
      | cons d k' =>
          obtain ⟨rfl, rfl⟩ := List.cons.inj htop
          exact ⟨{ d with phase := ph } :: k', b, htop', hb⟩
  | @pop c hpop =>
      rw [hstack] at hpop
      cases k' with
      | nil =>
          obtain ⟨-, hk⟩ := List.cons.inj hpop
          rw [← hk] at hlength
          exact absurd hlength (lt_irrefl _)
      | cons d k' =>
          obtain ⟨-, hrest⟩ := List.cons.inj hpop
          exact ⟨k', b, hrest.symm, hb⟩
  | gone hgone =>
      rw [hgone] at hlength
      exact absurd hlength (Nat.not_lt_zero _)

theorem UnderWay.run {x : Thread} {a : Act} {k : List Act} (hi : Inv L s) (h : UnderWay x a k s)
    (hr : Run L (Above x k.length) s t) (hlength : k.length < (t.stack x).length) : UnderWay x a k t := by
  induction hr with
  | refl => exact h
  | @tail t u hr hst ih =>
      obtain ⟨-, e, ⟨hcalm, habove⟩, hst⟩ := hst
      exact (ih habove).step ((hi.run hr).restacks hst hcalm x) hlength

theorem Inv.trapTrip {cause : Cause} (hi : Inv L s) (hst : Step L s (.trap cause) t) (hok : Calm s (.trap cause)) :
    TrapTrip L s t := by
  obtain ⟨hi', a, hstack, hreg, hsepc, hsstatus⟩ := hi.step hst hok
  have hcur : t.cur = s.cur := by
    cases hst with
    | trap => rfl
  rw [hcur] at hstack
  have hstart : UnderWay s.cur a (s.stack s.cur) t := ⟨[], a, hstack, rfl, rfl, rfl⟩
  intro u v hr hu hlength hret
  obtain ⟨k', b, hunder, hb⟩ := hstart.run hi' hr (by omega)
  have hk' : k' = [] := by
    rw [hunder, List.length_append, List.length_cons] at hlength
    exact List.eq_nil_of_length_eq_zero (by omega)
  rw [hk', ← hu] at hunder
  obtain ⟨hreg', hpc', hsstatus', huser'⟩ := ((hi'.run hr).step hret trivial).2 b _ hunder
  rw [hreg', hpc', hsstatus', huser', hb.1, hb.2.1, hb.2.2, hreg, hsepc, hsstatus]
  exact ⟨rfl, rfl, rfl, rfl⟩

/-! ## Back to the caller of `swtch` -/

/-- The steps that call `swtch`. -/
def IsSwitch : Event → Prop
  | .dispatch | .yield | .block _ => True
  | _ => False

theorem Step.cur_eq {e : Event} (hst : Step L s e t) (he : ¬ IsSwitch e) : t.cur = s.cur := by
  cases hst with
  | dispatch => exact absurd trivial he
  | yieldUser => exact absurd trivial he
  | yieldTrap => exact absurd trivial he
  | block => exact absurd trivial he
  | _ => rfl

theorem Inv.switched {e : Event} (hi : Inv L s) (hst : Step L s e t) (hok : Calm s e) (he : IsSwitch e) :
    Switched s t := by
  obtain ⟨-, htransparent⟩ := hi.step hst hok
  cases e with
  | dispatch => exact htransparent
  | yield => exact htransparent
  | block => exact htransparent
  | _ => exact absurd he id

theorem swtch_saved {old new c : Ctx} (h : c ≠ old) : (s.swtch L old new).saved c = s.saved c := by
  unfold Sys.swtch
  simp only []
  split <;> exact update_of_ne h _ _

theorem own_ne_made {e : Event} {x : Thread} {c : Fin NPROC} (h : ∀ p, x = .proc p → e.makes ≠ some p)
    (hmade : e.makes = some c) : own x ≠ .proc c := by
  cases x with
  | sched => simp [own]
  | proc p =>
      intro hown
      exact h p rfl (by rw [hmade, Ctx.proc.inj hown])

/-- A thread that does not run keeps its context. -/
theorem Inv.saved {e : Event} {x : Thread} (hi : Inv L s) (hst : Step L s e t) (hok : Calm s e)
    (haway : Away x s e) : t.saved (own x) = s.saved (own x) := by
  obtain ⟨hx, hfork⟩ := haway
  have hown : own x ≠ own s.cur := fun h => hx (own_inj h).symm
  cases hst with
  | userinit => exact update_of_ne (own_ne_made hfork rfl) _ _
  | fork => exact update_of_ne (own_ne_made hfork rfl) _ _
  | dispatch hs =>
      rw [hs.cur] at hown
      exact swtch_saved hown
  | @yieldUser p q hat hq =>
      obtain rfl := hi.myproc hat.cur hq
      rw [hat.cur] at hown
      exact swtch_saved hown
  | @yieldTrap a k q hs hph hq hp =>
      cases hcur : s.cur with
      | sched => exact absurd hcur hok
      | proc p =>
          obtain rfl := hi.myproc hcur hq
          rw [hcur] at hown
          exact swtch_saved hown
  | @block p q r st hat hr =>
      obtain rfl := hi.myproc hat.cur hr
      rw [hat.cur] at hown
      exact swtch_saved hown
  | _ => rfl

theorem Inv.switchTrip {e : Event} (hi : Inv L s) (hst : Step L s e t) (hok : Calm s e) (he : IsSwitch e) :
    SwitchTrip L s t := by
  obtain ⟨hi', -⟩ := hi.step hst hok
  obtain ⟨⟨k, hsaved, -, hkeeps⟩, -⟩ := hi.switched hst hok he
  intro u e' v hr hu hok' hst' hv
  have hrun : u.saved (own s.cur) = some k := by
    clear hu hok' hst' hv
    induction hr with
    | refl => exact hsaved
    | @tail u w hr hst ih =>
        obtain ⟨-, e, ⟨hcalm, haway⟩, hst⟩ := hst
        rw [(hi'.run hr).saved hst hcalm haway, ih]
  have hswitch : IsSwitch e' := by
    by_contra hno
    exact hu ((hst'.cur_eq hno).symm.trans hv)
  obtain ⟨-, k', hk', -, hloads, hpc⟩ := (hi'.run hr).switched hst' hok' hswitch
  rw [hv, hrun, Option.some.injEq] at hk'
  subst hk'
  refine ⟨fun r hreg => (hloads r hreg).trans (hkeeps r hreg), hpc.trans (hkeeps .ra (by decide))⟩

/-- Every calm step begins a round trip. -/
theorem Inv.roundTrip {e : Event} (hi : Inv L s) (hst : Step L s e t) (hok : Calm s e) : RoundTrip L s e t := by
  cases e with
  | userTrap cause => exact fun p hcur => hi.userTrip hst hcur
  | trap cause => exact hi.trapTrip hst hok
  | dispatch => exact hi.switchTrip hst hok trivial
  | yield => exact hi.switchTrip hst hok trivial
  | block st => exact hi.switchTrip hst hok trivial
  | _ => trivial

end Runs

end RiscvOsLab.Trap
