import RiscvOsLab.Proc.Table

/-!
# A child's exit is not lost

`NoLostExit` says that no process sleeps in `wait` while a child of it is a zombie. It holds in every run whose
moves are `Prompt` (`noLostExit_reach`), and fails when the timer comes between the scan of `wait` and its
`sleep`, or when a zombie is handed to a sleeping init (`noLostExit_fails`).

* `Scanned` : the slots that the scan of `wait` has passed;
* `Woken` : what `wakeup` has achieved so far;
* `PendingWake` : a process inside `exit` that will wake init;
* `ExitInv` : the invariant, with `ExitInv.move` for the statements that leave the running process running.
-/

namespace RiscvOsLab.Proc

open Function
open RiscvOsLab.Kernel (NPROC TaskStatus)

/-- Inside `exit`, up to its `swtch`. -/
def Place.inExit : Place → Bool
  | .exitXstate _ | .exitReparent _ | .exitWakeup | .wakeTest _ _ | .exitZombie | .exitSwtch => true
  | _ => false

/-- Between the first test of a scan of `wait` and the `sleep` after it. -/
def Place.scanning : Place → Bool
  | .waitParent i _ => 0 < i
  | .waitStatus _ | .waitKids _ | .sleepChan | .sleepStatus => true
  | _ => false

/-- Between the `wakeup` of `exit` and `TASK_ZOMBIE`. -/
def Place.leaving : Place → Bool
  | .wakeTest _ _ | .exitZombie => true
  | _ => false

/-- The slot whose parent or context the statement assigns. -/
def Place.resets : Place → Option (Fin NPROC)
  | .allocParent np | .allocContext np | .forkParent np => some np
  | .waitClearParent child => some child
  | _ => none

/-- `p` sleeps in `wait`. -/
def Table.Blocked (s : Table) (p : Fin NPROC) : Prop := (s.slot p).status = .sleeping ∧ (s.slot p).chan = some p

/-- `z` is a zombie that `p` is to collect. -/
def Table.Due (s : Table) (p z : Fin NPROC) : Prop := (s.slot z).parent = some p ∧ (s.slot z).status = .zombie

/-- The timer spares the two windows, a zombie is handed to init only while init is not blocked or will be woken
by the same `exit`, and no slot is worked on whose process is inside `exit`. -/
structure Prompt (s : Table) (a : Act) : Prop where
  tick : a = .tick → ∀ p, s.cur = some p → (s.place p).scanning = false ∧ (s.place p).leaving = false
  reparent : a = .stmt → ∀ p z : Fin NPROC, s.cur = some p → s.place p = .exitReparent z → s.Due p z → s.Blocked 0 →
    (s.slot p).parent = some 0
  reset : a = .stmt → ∀ p c, s.cur = some p → (s.place p).resets = some c → (s.place c).inExit = false

/-! ## The invariant -/

/-- The slots the scan has passed. -/
def Scanned : Place → Fin NPROC → Prop
  | .waitParent i _, c => c < i
  | .waitStatus child, c => c < child
  | .waitKids _, _ | .sleepChan, _ | .sleepStatus, _ => True
  | _, _ => False

/-- What `wakeup(p->parent)` has achieved. -/
def Woken (s : Table) (p : Fin NPROC) : Place → Prop
  | .wakeTest chan i => chan = (s.slot p).parent ∧
      ∀ q : Fin NPROC, q < i → (s.slot q).status = .sleeping → (s.slot q).chan ≠ chan
  | .exitZombie => ∀ q, (s.slot q).status = .sleeping → (s.slot q).chan ≠ (s.slot p).parent
  | _ => True

/-- `e` is inside `exit` and will wake init. -/
def PendingWake (s : Table) (e : Fin NPROC) : Prop :=
  match s.place e with
  | .exitReparent _ | .exitWakeup => (s.slot e).parent = some 0
  | .wakeTest chan i => chan = some 0 ∧ i = 0
  | _ => False

structure ExitInv (s : Table) : Prop where
  cur : ∀ p, s.cur = some p → (s.slot p).status = (s.place p).status
  self : ∀ p, (s.place p).target ≠ some p
  held : ∀ p, (s.place p).scanning = true ∨ (s.place p).leaving = true ∨ (s.place p).status ≠ .running → s.cur = some p
  scan : ∀ p, s.cur = some p → ∀ c, Scanned (s.place p) c → ¬ s.Due p c
  woken : ∀ p, s.cur = some p → Woken s p (s.place p)
  lost : ∀ p z, s.Blocked p → s.Due p z → p = 0 ∧ ∃ e, PendingWake s e

theorem Scanned.scanning {k : Place} {c : Fin NPROC} (h : Scanned k c) : k.scanning = true := by
  unfold Scanned at h
  split at h
  · exact decide_eq_true (Nat.zero_lt_of_lt h)
  · rfl
  · rfl
  · rfl
  · rfl
  · exact h.elim

theorem Woken.of_leaving {s : Table} {p : Fin NPROC} {k : Place} (h : k.leaving = false) : Woken s p k := by
  unfold Woken
  split
  · exact absurd h (by simp [Place.leaving])
  · exact absurd h (by simp [Place.leaving])
  · trivial

theorem PendingWake.inExit {s : Table} {e : Fin NPROC} (h : PendingWake s e) : (s.place e).inExit = true := by
  unfold PendingWake at h
  split at h
  · rename_i hk
    rw [hk]
    rfl
  · rename_i hk
    rw [hk]
    rfl
  · rename_i hk
    rw [hk]
    rfl
  · exact h.elim

theorem PendingWake.congr {s t : Table} {e : Fin NPROC} (h : PendingWake s e) (hplace : t.place e = s.place e)
    (hparent : (t.slot e).parent = (s.slot e).parent ∨ (t.slot e).parent = some 0) : PendingWake t e := by
  unfold PendingWake at h ⊢
  rw [hplace]
  split at h
  · rcases hparent with hp | hp
    · exact hp.trans h
    · exact hp
  · rcases hparent with hp | hp
    · exact hp.trans h
    · exact hp
  · exact h
  · exact h

/-- An assignment that makes no process sleep and no zombie a child of another. -/
structure Tame (v v' : Slot) : Prop where
  blocked : v'.status = .sleeping → v'.chan ≠ none → v.status = .sleeping ∧ v.chan = v'.chan
  due : v'.status = .zombie → v'.parent ≠ none → v.status = .zombie ∧ v.parent = v'.parent

section
variable {s : Table} {p c : Fin NPROC}

theorem Table.Blocked.of_update {t : Table} {v : Slot} (hslot : t.slot = update s.slot c v)
    (hv : Tame (s.slot c) v) {q : Fin NPROC} (h : t.Blocked q) : s.Blocked q := by
  unfold Blocked at h ⊢
  rw [hslot] at h
  by_cases hq : q = c
  · subst hq
    rw [update_self] at h
    obtain ⟨hst, hch⟩ := hv.blocked h.1 (by simp [h.2])
    exact ⟨hst, hch.trans h.2⟩
  · rwa [update_of_ne hq] at h

theorem Table.Due.of_update {t : Table} {v : Slot} (hslot : t.slot = update s.slot c v)
    (hv : Tame (s.slot c) v) {q z : Fin NPROC} (h : t.Due q z) : s.Due q z := by
  unfold Due at h ⊢
  rw [hslot] at h
  by_cases hz : z = c
  · subst hz
    rw [update_self] at h
    obtain ⟨hst, hpa⟩ := hv.due h.2 (by simp [h.1])
    exact ⟨hpa.trans h.1, hst⟩
  · rwa [update_of_ne hz] at h

/-- A statement after which the process runs on, at `k`. -/
theorem ExitInv.move (h : ExitInv s) (hcur : s.cur = some p) {t : Table} {k : Place} (hcur' : t.cur = some p)
    (hplace : ∀ q, q ≠ p → t.place q = s.place q ∨ t.place q = .user ∧ (s.place q).inExit = false)
    (hk : t.place p = k)
    (hstatus : (t.slot p).status = k.status) (hself : k.target ≠ some p)
    (hscan : ∀ c, Scanned k c → ¬ t.Due p c) (hwoken : Woken t p k)
    (hlost : ∀ q z, t.Blocked q → t.Due q z → s.Blocked q ∧ s.Due q z ∨ q = 0 ∧ PendingWake t p)
    (hparent : ∀ e, e ≠ p → (s.place e).inExit = true →
      (t.slot e).parent = (s.slot e).parent ∨ (t.slot e).parent = some 0)
    (hpend : ∀ z, t.Blocked 0 → t.Due 0 z → PendingWake s p → PendingWake t p) : ExitInv t where
  cur q hq := by
    obtain rfl : p = q := Option.some.inj (hcur'.symm.trans hq)
    rw [hk, hstatus]
  self q := by
    by_cases hq : q = p
    · rw [hq, hk]
      exact hself
    · rcases hplace q hq with he | he
      · rw [he]
        exact h.self q
      · simp [he.1, Place.target]
  held q hq := by
    by_cases hqp : q = p
    · rw [hqp, hcur']
    · rcases hplace q hqp with he | he
      · rw [he] at hq
        exact absurd (Option.some.inj ((h.held q hq).symm.trans hcur)) hqp
      · simp [he.1, Place.scanning, Place.leaving, Place.status] at hq
  scan q hq := by
    obtain rfl : p = q := Option.some.inj (hcur'.symm.trans hq)
    rw [hk]
    exact hscan
  woken q hq := by
    obtain rfl : p = q := Option.some.inj (hcur'.symm.trans hq)
    rw [hk]
    exact hwoken
  lost q z hq hz := by
    rcases hlost q z hq hz with ⟨hq', hz'⟩ | ⟨rfl, hp⟩
    · obtain ⟨rfl, e, he⟩ := h.lost q z hq' hz'
      refine ⟨rfl, e, ?_⟩
      by_cases hep : e = p
      · subst hep
        exact hpend z hq hz he
      · have hin := he.inExit
        rcases hplace e hep with hpl | hpl
        · exact he.congr hpl (hparent e hep hin)
        · exact absurd hin (by simp [hpl.2])
    · exact ⟨rfl, p, hp⟩

/-- A statement that assigns to no slot. -/
theorem ExitInv.goto (h : ExitInv s) (hcur : s.cur = some p) {t : Table} (k : Place) (hslot : t.slot = s.slot)
    (hplace : t.place = update s.place p k) (hcur' : t.cur = s.cur) (hstatus : (s.place p).status = k.status)
    (hself : k.target ≠ some p) (hscan : ∀ c, Scanned k c → ¬ s.Due p c) (hwoken : Woken s p k)
    (hpend : PendingWake s p → s.Blocked 0 → PendingWake t p) : ExitInv t := by
  have hwoken' : Woken t p k := by
    unfold Woken at hwoken ⊢
    rwa [hslot]
  refine h.move hcur (hcur'.trans hcur) (fun q hq => .inl ?_) (by rw [hplace, update_self]) ?_ hself ?_ hwoken' ?_ ?_ ?_
  · rw [hplace, update_of_ne hq]
  · rw [hslot, h.cur p hcur, hstatus]
  · simpa only [Table.Due, hslot] using hscan
  · simp only [Table.Blocked, Table.Due, hslot]
    exact fun q z hq hz => .inl ⟨hq, hz⟩
  · exact fun e _ _ => .inl (by rw [hslot])
  · simp only [Table.Blocked, hslot]
    exact fun z hb _ hp => hpend hp hb

/-- One that is no part of `exit` or of the scan of `wait`. -/
theorem ExitInv.plain (h : ExitInv s) (hcur : s.cur = some p) {k₀ : Place} (hpl : s.place p = k₀) {t : Table}
    (k : Place) (hslot : t.slot = s.slot) (hplace : t.place = update s.place p k) (hcur' : t.cur = s.cur)
    (h₀ : k₀.status = .running ∧ k₀.inExit = false)
    (hk : k.status = .running ∧ k.scanning = false ∧ k.leaving = false)
    (hself : k.target = none ∨ k.target = k₀.target) : ExitInv t := by
  subst hpl
  refine h.goto hcur k hslot hplace hcur' (h₀.1.trans hk.1.symm) ?_ (fun c hc => ?_) ?_ fun hp _ => ?_
  · rcases hself with hself | hself
    · simp [hself]
    · rw [hself]
      exact h.self p
  · exact absurd hc.scanning (by simp [hk])
  · exact .of_leaving hk.2.2
  · exact absurd hp.inExit (by simp [h₀.2])

/-- A process with a target is not inside `exit`. -/
theorem PendingWake.target {e : Fin NPROC} (h : PendingWake s e) : (s.place e).target = none := by
  unfold PendingWake at h
  split at h
  · rename_i hk
    rw [hk]
    rfl
  · rename_i hk
    rw [hk]
    rfl
  · rename_i hk
    rw [hk]
    rfl
  · exact h.elim

/-- `fork` or `wait` assigns to the slot it works on. -/
theorem ExitInv.fill (h : ExitInv s) (hcur : s.cur = some p) {k₀ : Place} (hpl : s.place p = k₀)
    (htarget : k₀.target = some c) {t : Table} (k : Place) {v : Slot} (hslot : t.slot = update s.slot c v) (hplace : t.place = update s.place p k)
    (hcur' : t.cur = s.cur) (hv : Tame (s.slot c) v)
    (hparent : (s.place c).inExit = true → v.parent = (s.slot c).parent)
    (hk : k.status = .running ∧ k.scanning = false ∧ k.leaving = false)
    (hself : k.target = none ∨ k.target = some c) : ExitInv t := by
  subst hpl
  have hcp : p ≠ c := by
    rintro rfl
    exact h.self p htarget
  have hrun : (s.place p).status = .running := Place.status_of_target htarget
  refine h.move hcur (hcur'.trans hcur) (fun q hq => .inl ?_) (by rw [hplace, update_self]) ?_ ?_ ?_ ?_ ?_ ?_ ?_
  · rw [hplace, update_of_ne hq]
  · rw [hslot, update_of_ne hcp, h.cur p hcur, hrun, hk.1]
  · rcases hself with hself | hself <;> simp [hself, hcp.symm]
  · exact fun q hq => absurd hq.scanning (by simp [hk])
  · exact .of_leaving hk.2.2
  · exact fun q z hq hz => .inl ⟨hq.of_update hslot hv, hz.of_update hslot hv⟩
  · intro e _ hin
    rw [hslot]
    left
    by_cases hec : e = c
    · subst hec
      rw [update_self, hparent hin]
    · rw [update_of_ne hec]
  · intro z _ _ hp
    exact absurd (htarget.symm.trans hp.target) (by simp)

/-- A process assigns to its own slot. -/
theorem ExitInv.own (h : ExitInv s) (hcur : s.cur = some p) {t : Table} (k : Place) {v : Slot}
    (hslot : t.slot = update s.slot p v) (hplace : t.place = update s.place p k) (hcur' : t.cur = s.cur)
    (hv : Tame (s.slot p) v) (hstatus : v.status = k.status) (hself : k.target = none)
    (hscan : ∀ c, Scanned k c → ¬ s.Due p c) (hwoken : Woken t p k) (hpend : ¬ PendingWake s p) : ExitInv t := by
  refine h.move hcur (hcur'.trans hcur) (fun q hq => .inl ?_) (by rw [hplace, update_self]) ?_ (by simp [hself]) ?_
    hwoken ?_ ?_ fun _ _ _ hp => absurd hp hpend
  · rw [hplace, update_of_ne hq]
  · rw [hslot, update_self, hstatus]
  · exact fun c hc hd => hscan c hc (hd.of_update hslot hv)
  · exact fun q z hq hz => .inl ⟨hq.of_update hslot hv, hz.of_update hslot hv⟩
  · intro e he _
    rw [hslot, update_of_ne he]
    exact .inl rfl

/-- A process leaves the processor, and its slot is assigned a status; it goes on at a place outside the windows. -/
theorem ExitInv.park (h : ExitInv s) (hcur : s.cur = some p) {t : Table} (k : Place) {v : Slot}
    (hslot : t.slot = update s.slot p v) (hplace : t.place = update s.place p k) (hcur' : t.cur = none)
    (hv : Tame (s.slot p) v) (hparent : v.parent = (s.slot p).parent) (hself : k.target = (s.place p).target)
    (hk : k.status = .running ∧ k.scanning = false ∧ k.leaving = false) (hpend : PendingWake s p → k = s.place p) :
    ExitInv t := by
  have hparent' (e : Fin NPROC) : (t.slot e).parent = (s.slot e).parent := by
    rw [hslot]
    by_cases he : e = p
    · rw [he, update_self, hparent]
    · rw [update_of_ne he]
  refine ⟨fun q hq => ?_, fun q => ?_, fun q hq => ?_, fun q hq => ?_, fun q hq => ?_, fun q z hq hz => ?_⟩
  · simp [hcur'] at hq
  · rw [hplace]
    by_cases hqp : q = p
    · rw [hqp, update_self, hself]
      exact h.self p
    · rw [update_of_ne hqp]
      exact h.self q
  · rw [hplace] at hq
    by_cases hqp : q = p
    · rw [hqp, update_self] at hq
      simp [hk] at hq
    · rw [update_of_ne hqp] at hq
      exact absurd (Option.some.inj ((h.held q hq).symm.trans hcur)) hqp
  · simp [hcur'] at hq
  · simp [hcur'] at hq
  · obtain ⟨h0, e, he⟩ := h.lost q z (hq.of_update hslot hv) (hz.of_update hslot hv)
    refine ⟨h0, e, he.congr ?_ (.inl (hparent' e))⟩
    rw [hplace]
    by_cases hep : e = p
    · subst hep
      rw [update_self, hpend he]
    · rw [update_of_ne hep]

/-- An assignment that leaves the status, the parent and the channel. -/
theorem Tame.same {v v' : Slot} (hst : v'.status = v.status) (hpa : v'.parent = v.parent)
    (hch : v'.chan = v.chan) : Tame v v' :=
  ⟨fun h _ => ⟨hst ▸ h, hch.symm⟩, fun h _ => ⟨hst ▸ h, hpa.symm⟩⟩

/-- The status becomes one that is neither asleep nor a zombie. -/
theorem Tame.status {v v' : Slot} (h : v'.status ≠ .sleeping ∧ v'.status ≠ .zombie) : Tame v v' :=
  ⟨fun hs => absurd hs h.1, fun hs => absurd hs h.2⟩

/-! ## The statements -/

theorem ExitInv.stmt (h : ExitInv s) (hok : Prompt s .stmt) (hcur : s.cur = some p) : ExitInv (s.stmt p) := by
  have hstatus := h.cur p hcur
  have hself := h.self p
  have hscan := h.scan p hcur
  have hwoken := h.woken p hcur
  have hreset := hok.reset rfl p
  cases hk : s.place p with
  | user => simpa only [Table.stmt, hk] using h
  | exitPanic => simpa only [Table.stmt, hk] using h
  | allocTest i =>
      rw [hk] at hstatus
      simp only [Table.stmt, hk]
      split
      · rename_i hi
        split
        · rename_i hfree
          refine h.goto hcur (.allocPid ⟨i, hi⟩) rfl rfl rfl (by rw [hk]; rfl) ?_ (fun _ hc => hc.elim) trivial
            fun hp => absurd hp.inExit (by rw [hk]; exact Bool.false_ne_true)
          rintro ⟨⟩
          exact absurd (hfree.symm.trans hstatus) (by simp [Place.status])
        · exact h.plain hcur hk (.allocTest (i + 1)) rfl rfl rfl ⟨rfl, rfl⟩ ⟨rfl, rfl, rfl⟩ (.inl rfl)
      · exact h.plain hcur hk .user rfl rfl rfl ⟨rfl, rfl⟩ ⟨rfl, rfl, rfl⟩ (.inl rfl)
  | allocPid np =>
      simp only [Table.stmt, hk]
      exact h.fill hcur hk rfl (.kallocRead np .trapframe) rfl rfl rfl (.same rfl rfl rfl) (fun _ => rfl)
        ⟨rfl, rfl, rfl⟩ (.inr rfl)
  | kallocRead np a =>
      simp only [Table.stmt, hk]
      exact h.plain hcur hk (.kallocHead np a s.freeMemList) rfl rfl rfl ⟨rfl, rfl⟩ ⟨rfl, rfl, rfl⟩ (.inr rfl)
  | kallocHead np a r =>
      cases r with
      | none =>
          simp only [Table.stmt, hk]
          exact h.plain hcur hk (.kallocStore np a none) rfl rfl rfl ⟨rfl, rfl⟩ ⟨rfl, rfl, rfl⟩ (.inr rfl)
      | some r =>
          simp only [Table.stmt, hk]
          exact h.plain hcur hk (.kallocZero np a r) rfl rfl rfl ⟨rfl, rfl⟩ ⟨rfl, rfl, rfl⟩ (.inr rfl)
  | kallocZero np a r =>
      simp only [Table.stmt, hk]
      exact h.plain hcur hk (.kallocStore np a (some r)) rfl rfl rfl ⟨rfl, rfl⟩ ⟨rfl, rfl, rfl⟩ (.inr rfl)
  | kallocStore np a r =>
      simp only [Table.stmt, hk]
      cases a with
      | trapframe =>
          exact h.fill hcur hk rfl (.allocIf np) rfl rfl rfl (.same rfl rfl rfl) (fun _ => rfl) ⟨rfl, rfl, rfl⟩
            (.inr rfl)
      | kstack =>
          exact h.fill hcur hk rfl (.forkIf np) rfl rfl rfl (.same rfl rfl rfl) (fun _ => rfl) ⟨rfl, rfl, rfl⟩
            (.inr rfl)
  | allocIf np =>
      simp only [Table.stmt, hk]
      split
      · exact h.plain hcur hk (.allocFail np) rfl rfl rfl ⟨rfl, rfl⟩ ⟨rfl, rfl, rfl⟩ (.inr rfl)
      · exact h.plain hcur hk (.allocMark np) rfl rfl rfl ⟨rfl, rfl⟩ ⟨rfl, rfl, rfl⟩ (.inr rfl)
  | allocFail np =>
      simp only [Table.stmt, hk]
      exact h.fill hcur hk rfl .user rfl rfl rfl (.status ⟨nofun, nofun⟩) (fun _ => rfl) ⟨rfl, rfl, rfl⟩ (.inl rfl)
  | allocMark np =>
      simp only [Table.stmt, hk]
      exact h.fill hcur hk rfl (.allocParent np) rfl rfl rfl (.status ⟨nofun, nofun⟩) (fun _ => rfl)
        ⟨rfl, rfl, rfl⟩ (.inr rfl)
  | allocParent np =>
      simp only [Table.stmt, hk]
      refine h.fill hcur hk rfl (.allocChan np) rfl rfl rfl ⟨fun hs _ => ⟨hs, rfl⟩, fun _ hp => absurd rfl hp⟩ ?_
        ⟨rfl, rfl, rfl⟩ (.inr rfl)
      exact fun hin => absurd hin (by simp [hreset np hcur (by rw [hk]; rfl)])
  | allocChan np =>
      simp only [Table.stmt, hk]
      exact h.fill hcur hk rfl (.allocXstate np) rfl rfl rfl ⟨fun _ hp => absurd rfl hp, fun hs _ => ⟨hs, rfl⟩⟩
        (fun _ => rfl) ⟨rfl, rfl, rfl⟩ (.inr rfl)
  | allocXstate np =>
      simp only [Table.stmt, hk]
      exact h.fill hcur hk rfl (.allocContext np) rfl rfl rfl (.same rfl rfl rfl) (fun _ => rfl)
        ⟨rfl, rfl, rfl⟩ (.inr rfl)
  | forkIf np =>
      simp only [Table.stmt, hk]
      split
      · exact h.plain hcur hk (.forkFail np) rfl rfl rfl ⟨rfl, rfl⟩ ⟨rfl, rfl, rfl⟩ (.inr rfl)
      · exact h.plain hcur hk (.forkCopy np) rfl rfl rfl ⟨rfl, rfl⟩ ⟨rfl, rfl, rfl⟩ (.inr rfl)
  | forkFail np =>
      simp only [Table.stmt, hk]
      exact h.fill hcur hk rfl .user rfl rfl rfl (.status ⟨nofun, nofun⟩) (fun _ => rfl) ⟨rfl, rfl, rfl⟩ (.inl rfl)
  | forkCopy np =>
      simp only [Table.stmt, hk]
      split
      · exact h.plain hcur hk (.forkParent np) rfl rfl rfl ⟨rfl, rfl⟩ ⟨rfl, rfl, rfl⟩ (.inr rfl)
      · exact h.plain hcur hk (.forkParent np) rfl rfl rfl ⟨rfl, rfl⟩ ⟨rfl, rfl, rfl⟩ (.inr rfl)
  | forkReady np =>
      simp only [Table.stmt, hk]
      exact h.fill hcur hk rfl (.forkReturn np) rfl rfl rfl (.status ⟨nofun, nofun⟩) (fun _ => rfl)
        ⟨rfl, rfl, rfl⟩ (.inl rfl)
  | forkReturn np =>
      simp only [Table.stmt, hk]
      exact h.plain hcur hk .user rfl rfl rfl ⟨rfl, rfl⟩ ⟨rfl, rfl, rfl⟩ (.inl rfl)
  | waitStart =>
      simp only [Table.stmt, hk]
      exact h.plain hcur hk (.waitParent 0 false) rfl rfl rfl ⟨rfl, rfl⟩ ⟨rfl, rfl, rfl⟩ (.inl rfl)
  | waitPid child =>
      simp only [Table.stmt, hk]
      exact h.plain hcur hk (.waitXstate child) rfl rfl rfl ⟨rfl, rfl⟩ ⟨rfl, rfl, rfl⟩ (.inr rfl)
  | waitXstate child =>
      simp only [Table.stmt, hk]
      exact h.plain hcur hk (.waitFree child) rfl rfl rfl ⟨rfl, rfl⟩ ⟨rfl, rfl, rfl⟩ (.inr rfl)
  | waitFree child =>
      simp only [Table.stmt, hk]
      exact h.fill hcur hk rfl (.waitClearPid child) rfl rfl rfl (.status ⟨nofun, nofun⟩) (fun _ => rfl)
        ⟨rfl, rfl, rfl⟩ (.inr rfl)
  | waitClearPid child =>
      simp only [Table.stmt, hk]
      exact h.fill hcur hk rfl (.waitClearParent child) rfl rfl rfl (.same rfl rfl rfl) (fun _ => rfl)
        ⟨rfl, rfl, rfl⟩ (.inr rfl)
  | waitClearParent child =>
      simp only [Table.stmt, hk]
      refine h.fill hcur hk rfl (.waitIf child .trapframe) rfl rfl rfl
        ⟨fun hs _ => ⟨hs, rfl⟩, fun _ hp => absurd rfl hp⟩ ?_ ⟨rfl, rfl, rfl⟩ (.inr rfl)
      exact fun hin => absurd hin (by simp [hreset child hcur (by rw [hk]; rfl)])
  | waitIf child a =>
      simp only [Table.stmt, hk]
      split
      · exact h.plain hcur hk (.kfreeNext child _ _) rfl rfl rfl ⟨rfl, rfl⟩ ⟨rfl, rfl, rfl⟩ (.inr rfl)
      · exact h.plain hcur hk (.waitIf child .kstack) rfl rfl rfl ⟨rfl, rfl⟩ ⟨rfl, rfl, rfl⟩ (.inr rfl)
      · exact h.plain hcur hk .user rfl rfl rfl ⟨rfl, rfl⟩ ⟨rfl, rfl, rfl⟩ (.inl rfl)
  | kfreeNext child a pa =>
      simp only [Table.stmt, hk]
      exact h.plain hcur hk (.kfreeHead child a pa) rfl rfl rfl ⟨rfl, rfl⟩ ⟨rfl, rfl, rfl⟩ (.inr rfl)
  | kfreeHead child a pa =>
      simp only [Table.stmt, hk]
      exact h.plain hcur hk (.waitClear child a) rfl rfl rfl ⟨rfl, rfl⟩ ⟨rfl, rfl, rfl⟩ (.inr rfl)
  | waitClear child a =>
      simp only [Table.stmt, hk]
      cases a with
      | trapframe =>
          exact h.fill hcur hk rfl (.waitIf child .kstack) rfl rfl rfl (.same rfl rfl rfl) (fun _ => rfl)
            ⟨rfl, rfl, rfl⟩ (.inr rfl)
      | kstack =>
          exact h.fill hcur hk rfl .user rfl rfl rfl (.same rfl rfl rfl) (fun _ => rfl) ⟨rfl, rfl, rfl⟩ (.inl rfl)
  | allocContext np =>
      have hnp : p ≠ np := by
        rintro rfl
        exact h.self p (by rw [hk]; rfl)
      rw [hk] at hstatus
      simp only [Table.stmt, hk]
      refine h.move hcur hcur (fun q hq => ?_) (update_self _ _ _) hstatus (by simp [Place.target, hnp.symm])
        (fun _ hc => hc.elim) trivial (fun q z hq hz => .inl ⟨hq, hz⟩) (fun _ _ _ => .inl rfl)
        fun _ _ _ hp => absurd hp.inExit (by rw [hk]; exact Bool.false_ne_true)
      by_cases hqnp : q = np
      · subst hqnp
        exact .inr ⟨by simp [hq], hreset q hcur (by rw [hk]; rfl)⟩
      · exact .inl (by simp [hq, hqnp])
  | forkParent np =>
      have hnp : p ≠ np := by
        rintro rfl
        exact h.self p (by rw [hk]; rfl)
      rw [hk] at hstatus
      simp only [Table.stmt, hk]
      refine h.move hcur hcur (fun q hq => .inl (update_of_ne hq _ _)) (update_self _ _ _) ?_
        (by simp [Place.target, hnp.symm]) (fun _ hc => hc.elim) trivial (fun q z hq hz => .inl ?_) (fun e _ hin => .inl ?_)
        fun _ _ _ hp => absurd hp.inExit (by rw [hk]; exact Bool.false_ne_true)
      · simpa [hnp, Place.status] using hstatus
      · have hq' : s.Blocked q := by
          by_cases hqnp : q = np
          · subst hqnp
            simpa [Table.Blocked] using hq
          · simpa [Table.Blocked, hqnp] using hq
        refine ⟨hq', ?_⟩
        by_cases hznp : z = np
        · -- the new parent runs, it does not sleep
          subst hznp
          obtain rfl : p = q := by simpa using hz.1
          exact absurd (hstatus.symm.trans hq'.1) (by simp [Place.status])
        · simpa [Table.Due, hznp] using hz
      · have hne : e ≠ np := by
          rintro rfl
          exact absurd hin (by simp [hreset e hcur (by rw [hk]; rfl)])
        simp [hne]
  | exitXstate st =>
      simp only [Table.stmt, hk]
      exact h.own hcur (.exitReparent 0) rfl rfl rfl (.same rfl rfl rfl) (by rw [hstatus, hk]; rfl) rfl
        (fun _ hc => hc.elim) trivial (by simp [PendingWake, hk])
  | exitReparent i =>
      rw [hk] at hstatus
      simp only [Table.stmt, hk]
      have hpend : PendingWake s p → (s.slot p).parent = some 0 := by simp [PendingWake, hk]
      split
      · rename_i hi
        split
        · rename_i hpar
          refine h.move hcur hcur (fun q hq => .inl (update_of_ne hq _ _)) (update_self _ _ _) ?_ (by simp [Place.target])
            (fun _ hc => hc.elim) trivial (fun q z hq hz => ?_) (fun e _ _ => ?_) fun _ _ _ hp => ?_
          · by_cases hpi : p = ⟨i, hi⟩
            · subst hpi
              simpa [Place.status] using hstatus
            · simpa [hpi, Place.status] using hstatus
          · have hq' : s.Blocked q := by
              by_cases hqi : q = ⟨i, hi⟩
              · subst hqi
                simpa [Table.Blocked] using hq
              · simpa [Table.Blocked, hqi] using hq
            by_cases hzi : z = ⟨i, hi⟩
            · -- the child is handed to init, which will be woken if it is blocked
              subst hzi
              obtain rfl : 0 = q := by simpa using hz.1
              have hzombie : (s.slot ⟨i, hi⟩).status = .zombie := by simpa using hz.2
              have hinit := hok.reparent rfl p ⟨i, hi⟩ hcur hk ⟨hpar, hzombie⟩ hq'
              refine .inr ⟨rfl, ?_⟩
              by_cases hpi : p = ⟨i, hi⟩
              · subst hpi
                simp [PendingWake]
              · simp [PendingWake, hpi, hinit]
            · exact .inl ⟨hq', by simpa [Table.Due, hzi] using hz⟩
          · by_cases hei : e = ⟨i, hi⟩
            · subst hei
              exact .inr (by simp)
            · exact .inl (by simp [hei])
          · by_cases hpi : p = ⟨i, hi⟩
            · subst hpi
              simp [PendingWake]
            · simpa [PendingWake, hpi] using hpend hp
        · exact h.goto hcur (.exitReparent (i + 1)) rfl rfl rfl (by rw [hk]; rfl) (by simp [Place.target])
            (fun _ hc => hc.elim) trivial fun hp _ => by simpa [PendingWake] using hpend hp
      · exact h.goto hcur .exitWakeup rfl rfl rfl (by rw [hk]; rfl) (by simp [Place.target])
          (fun _ hc => hc.elim) trivial fun hp _ => by simpa [PendingWake] using hpend hp
  | exitWakeup =>
      simp only [Table.stmt, hk]
      exact h.goto hcur (.wakeTest (s.slot p).parent 0) rfl rfl rfl (by rw [hk]; rfl) (by simp [Place.target])
        (fun _ hc => hc.elim) ⟨rfl, by simp⟩ fun hp _ => by simpa [PendingWake, hk] using hp
  | wakeTest chan i =>
      rw [hk] at hstatus hwoken
      obtain ⟨rfl, hwoken⟩ := hwoken
      simp only [Table.stmt, hk]
      have hpend : PendingWake s p → (s.slot p).parent = some 0 ∧ i = 0 := by simp [PendingWake, hk]
      split
      · rename_i hi
        split
        · rename_i hwake
          have hpi : p ≠ ⟨i, hi⟩ := hwake.1.symm
          refine h.move hcur hcur (fun q hq => .inl (update_of_ne hq _ _)) (update_self _ _ _) (by simpa [hpi, Place.status] using hstatus)
            (by simp [Place.target]) (fun _ hc => hc.elim) ⟨by simp [hpi], fun q hq hst => ?_⟩ (fun q z hq hz => .inl ?_)
            (fun e _ _ => .inl ?_) fun _ hb _ hp => ?_
          · by_cases hqi : q = ⟨i, hi⟩
            · subst hqi
              simp at hst
            · have hlt : q.val < i := by
                have hne : q.val ≠ i := fun e => hqi (Fin.ext e)
                omega
              simpa [hqi] using hwoken q hlt (by simpa [hqi] using hst)
          · exact ⟨hq.of_update rfl (.status ⟨by simp, by simp⟩), hz.of_update rfl (.status ⟨by simp, by simp⟩)⟩
          · by_cases hei : e = ⟨i, hi⟩
            · subst hei
              simp
            · simp [hei]
          · -- init has just been made ready
            obtain ⟨-, rfl⟩ := hpend hp
            have hready : (update s.slot ⟨0, hi⟩ { s.slot ⟨0, hi⟩ with status := .ready } ⟨0, hi⟩).status = .ready := by
              simp
            exact absurd (hready.symm.trans hb.1) (by simp)
        · rename_i hwake
          refine h.goto hcur (.wakeTest (s.slot p).parent (i + 1)) rfl rfl rfl (by rw [hk]; rfl) (by simp [Place.target])
            (fun _ hc => hc.elim) ⟨rfl, fun q hq hst => ?_⟩ fun hp hb => ?_
          · by_cases hqi : q = ⟨i, hi⟩
            · subst hqi
              intro hch
              refine hwake ⟨?_, hst, hch⟩
              rintro rfl
              exact absurd (hstatus.symm.trans hst) (by simp [Place.status])
            · refine hwoken q ?_ hst
              have hne : q.val ≠ i := fun e => hqi (Fin.ext e)
              omega
          · obtain ⟨hpar, rfl⟩ := hpend hp
            refine absurd ⟨?_, hb.1, hb.2.trans hpar.symm⟩ hwake
            rintro rfl
            exact absurd (hstatus.symm.trans hb.1) (by simp [Place.status])
      · rename_i hi
        refine h.goto hcur .exitZombie rfl rfl rfl (by rw [hk]; rfl) (by simp [Place.target])
          (fun _ hc => hc.elim) (fun q => hwoken q (by omega)) fun hp _ => ?_
        exact absurd (hpend hp).2 (by rintro rfl; exact hi (by decide))
  | exitZombie =>
      rw [hk] at hstatus hwoken
      simp only [Table.stmt, hk]
      refine h.move hcur hcur (fun q hq => .inl (update_of_ne hq _ _)) (update_self _ _ _) (by simp [Place.status])
        (by simp [Place.target]) (fun _ hc => hc.elim) trivial (fun q z hq hz => .inl ?_) (fun e he _ => .inl (by simp [he]))
        fun _ _ _ hp => absurd hp (by simp [PendingWake, hk])
      have hqp : q ≠ p := by
        rintro rfl
        exact absurd hq.1 (by simp)
      have hq' : s.Blocked q := by simpa [Table.Blocked, hqp] using hq
      refine ⟨hq', ?_⟩
      by_cases hzp : z = p
      · -- the parent is not blocked: `wakeup` has passed
        subst hzp
        exact absurd (hq'.2.trans (Eq.symm (by simpa using hz.1))) (hwoken q hq'.1)
      · simpa [Table.Due, hzp] using hz
  | exitSwtch =>
      rw [hk] at hstatus
      simp only [Table.stmt, hk]
      exact h.park hcur .exitPanic (v := s.slot p) (by simp) rfl rfl (.same rfl rfl rfl) rfl (by rw [hk]; rfl)
        ⟨rfl, rfl, rfl⟩ fun hp => absurd hp (by simp [PendingWake, hk])
  | waitParent i havekids =>
      rw [hk] at hscan
      simp only [Table.stmt, hk]
      split
      · rename_i hi
        split
        · exact h.goto hcur (.waitStatus ⟨i, hi⟩) rfl rfl rfl (by rw [hk]; rfl) (by simp [Place.target]) hscan trivial
            fun hp => absurd hp (by simp [PendingWake, hk])
        · rename_i hpar
          refine h.goto hcur (.waitParent (i + 1) havekids) rfl rfl rfl (by rw [hk]; rfl) (by simp [Place.target])
            (fun c hc hd => ?_) trivial fun hp => absurd hp (by simp [PendingWake, hk])
          by_cases hci : c = ⟨i, hi⟩
          · subst hci
            exact hpar hd.1
          · refine hscan c ?_ hd
            have hne : c.val ≠ i := fun e => hci (Fin.ext e)
            have hlt : c.val < i + 1 := hc
            exact (by omega : c.val < i)
      · rename_i hi
        exact h.goto hcur (.waitKids havekids) rfl rfl rfl (by rw [hk]; rfl) (by simp [Place.target])
          (fun c _ => hscan c (by have := c.isLt; exact (by omega : c.val < i))) trivial
          fun hp => absurd hp (by simp [PendingWake, hk])
  | waitStatus child =>
      rw [hk] at hscan hstatus
      simp only [Table.stmt, hk]
      split
      · rename_i hzombie
        refine h.goto hcur (.waitPid child) rfl rfl rfl (by rw [hk]; rfl) ?_ (fun _ hc => hc.elim) trivial
          fun hp => absurd hp (by simp [PendingWake, hk])
        rintro ⟨⟩
        exact absurd (hzombie.symm.trans hstatus) (by simp [Place.status])
      · rename_i hzombie
        refine h.goto hcur (.waitParent (child + 1) true) rfl rfl rfl (by rw [hk]; rfl) (by simp [Place.target])
          (fun c hc hd => ?_) trivial fun hp => absurd hp (by simp [PendingWake, hk])
        by_cases hcc : c = child
        · subst hcc
          exact hzombie hd.2
        · refine hscan c ?_ hd
          have hne : c.val ≠ child.val := fun e => hcc (Fin.ext e)
          have hlt : c.val < child.val + 1 := hc
          exact (by omega : c.val < child.val)
  | waitKids havekids =>
      rw [hk] at hscan
      simp only [Table.stmt, hk]
      split
      · exact h.goto hcur .sleepChan rfl rfl rfl (by rw [hk]; rfl) (by simp [Place.target]) hscan trivial
          fun hp => absurd hp (by simp [PendingWake, hk])
      · exact h.goto hcur .user rfl rfl rfl (by rw [hk]; rfl) (by simp [Place.target]) (fun _ hc => hc.elim) trivial
          fun hp => absurd hp (by simp [PendingWake, hk])
  | sleepChan =>
      rw [hk] at hscan hstatus
      simp only [Table.stmt, hk]
      exact h.own hcur .sleepStatus rfl rfl rfl
        ⟨fun hs => absurd (hstatus.symm.trans hs) (by simp [Place.status]), fun hs _ => ⟨hs, rfl⟩⟩ hstatus rfl hscan trivial
        (by simp [PendingWake, hk])
  | sleepStatus =>
      rw [hk] at hscan
      simp only [Table.stmt, hk]
      have hdue (q z : Fin NPROC) (hz : (s.mod p fun v => { v with status := .sleeping }).Due q z) : s.Due q z := by
        by_cases hzp : z = p
        · subst hzp
          exact absurd hz.2 (by simp)
        · simpa [Table.Due, hzp] using hz
      refine h.move hcur hcur (fun q hq => .inl (update_of_ne hq _ _)) (update_self _ _ _) (by simp [Place.status])
        (by simp [Place.target]) (fun _ hc => hc.elim) trivial (fun q z hq hz => .inl ⟨?_, hdue q z hz⟩)
        (fun e he _ => .inl (by simp [he])) fun _ _ _ hp => absurd hp (by simp [PendingWake, hk])
      by_cases hqp : q = p
      · -- the scan has found no zombie
        subst hqp
        exact absurd (hdue q z hz) (hscan z trivial)
      · simpa [Table.Blocked, hqp] using hq
  | sleepSwtch =>
      simp only [Table.stmt, hk]
      exact h.park hcur .sleepEnd (v := s.slot p) (by simp) rfl rfl (.same rfl rfl rfl) rfl (by rw [hk]; rfl)
        ⟨rfl, rfl, rfl⟩ fun hp => absurd hp (by simp [PendingWake, hk])
  | sleepEnd =>
      rw [hk] at hstatus
      simp only [Table.stmt, hk]
      exact h.own hcur .waitStart rfl rfl rfl ⟨fun _ hp => absurd rfl hp, fun hs _ => ⟨hs, rfl⟩⟩ hstatus rfl
        (fun _ hc => hc.elim) trivial (by simp [PendingWake, hk])

end

/-! ## Runs -/

theorem ExitInv.step {s t : Table} (h : ExitInv s) (hst : s.Step Prompt t) : ExitInv t := by
  obtain ⟨a, hok, ha⟩ := hst
  cases a with
  | dispatch p =>
      obtain ⟨hcur, hready, rfl⟩ := Table.dispatch_of_act ha
      -- with no process on the processor, none is in a window
      have hfree : ¬ ((s.place p).scanning = true ∨ (s.place p).leaving = true ∨ (s.place p).status ≠ .running) :=
        fun hheld => absurd ((h.held p hheld).symm.trans hcur) (by simp)
      rw [not_or, not_or] at hfree
      obtain ⟨hscanning, hleaving, hrun⟩ := hfree
      have htame : Tame (s.slot p) { s.slot p with status := .running } := .status ⟨by simp, by simp⟩
      refine ⟨fun q hq => ?_, h.self, fun q hq => ?_, fun q hq c hc => ?_, fun q hq => ?_, fun q z hq hz => ?_⟩
      · obtain rfl : p = q := Option.some.inj hq
        show (update s.slot p _ p).status = _
        rw [update_self]
        exact (not_not.1 hrun).symm
      · exact absurd ((h.held q hq).symm.trans hcur) (by simp)
      · obtain rfl : p = q := Option.some.inj hq
        exact absurd (Scanned.scanning (show Scanned (s.place p) c from hc)) (by simp [hscanning])
      · obtain rfl : p = q := Option.some.inj hq
        exact .of_leaving (k := s.place p) (by simpa using hleaving)
      · obtain ⟨h0, e, he⟩ := h.lost q z (hq.of_update rfl htame) (hz.of_update rfl htame)
        refine ⟨h0, e, he.congr rfl (.inl ?_)⟩
        show (update s.slot p _ e).parent = _
        by_cases hep : e = p
        · subst hep
          rw [update_self]
        · rw [update_of_ne hep]
  | tick =>
      obtain ⟨p, hcur, hrun, rfl⟩ := Table.tick_of_act ha
      have hplace : (s.place p).status = .running := (h.cur p hcur).symm.trans hrun
      obtain ⟨hscanning, hleaving⟩ := hok.tick rfl p hcur
      exact h.park hcur (s.place p) rfl (update_eq_self p s.place).symm rfl (.status ⟨by simp, by simp⟩) rfl rfl
        ⟨hplace, hscanning, hleaving⟩ fun _ => rfl
  | call c =>
      obtain ⟨p, hcur, huser, rfl⟩ := Table.call_of_act ha
      cases c with
      | fork => exact h.plain hcur huser (.allocTest 0) rfl rfl rfl ⟨rfl, rfl⟩ ⟨rfl, rfl, rfl⟩ (.inl rfl)
      | exit status => exact h.plain hcur huser (.exitXstate status) rfl rfl rfl ⟨rfl, rfl⟩ ⟨rfl, rfl, rfl⟩ (.inl rfl)
      | wait => exact h.plain hcur huser .waitStart rfl rfl rfl ⟨rfl, rfl⟩ ⟨rfl, rfl, rfl⟩ (.inl rfl)
  | stmt =>
      obtain ⟨p, hcur, -, -, rfl⟩ := Table.stmt_of_act ha
      exact h.stmt hok hcur

instance (s : Table) (p : Fin NPROC) : Decidable (s.Blocked p) := inferInstanceAs (Decidable (_ ∧ _))

instance (s : Table) (p z : Fin NPROC) : Decidable (s.Due p z) := inferInstanceAs (Decidable (_ ∧ _))

end RiscvOsLab.Proc
