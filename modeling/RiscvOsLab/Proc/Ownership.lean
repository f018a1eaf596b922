import RiscvOsLab.Proc.Table

/-!
# Slots and pages have one owner

`SoleOwners` says that a slot is claimed by one `fork` at a time and by none while `wait` releases it, that every
live slot has its two pages, and that no page has two owners or an owner and a place on the free list. It holds
in every run whose moves are `Apart` (`soleOwners_reach`), and fails when two calls of `fork` test the same slot
before one has marked it (`soleOwners_fails`).

* `Owner` : a field of a slot, or a process inside `kalloc` or `kfree`;
* `Table.Owns` : what is owned; a ledger `Page → Option Owner` says that the owner is one;
* `Knows` : what a process knows of the slot it works on and of the free list;
* `OwnInv` : the invariant, with `OwnInv.move` for the statements.
-/

namespace RiscvOsLab.Proc

open Function
open RiscvOsLab.Kernel (NPROC TaskStatus)

/-- A page that `kalloc` has taken off the free list and not yet given, or that `kfree` is to put on it. -/
def Place.hand : Place → Option Page
  | .kallocZero _ _ r => some r
  | .kallocStore _ _ r => r
  | .kfreeNext _ _ pa | .kfreeHead _ _ pa => some pa
  | _ => none

/-- The pages of its slot that `fork` has stored, or that `wait` has still to free. -/
def Place.keeps : Place → Fin NPROC → Area → Prop
  | .allocIf np, c, a | .allocMark np, c, a | .allocParent np, c, a | .allocChan np, c, a => c = np ∧ a = .trapframe
  | .allocXstate np, c, a | .allocContext np, c, a => c = np ∧ a = .trapframe
  | .kallocRead np b, c, a | .kallocHead np b _, c, a | .kallocZero np b _, c, a | .kallocStore np b _, c, a =>
      c = np ∧ b = .kstack ∧ a = .trapframe
  | .forkIf np, c, _ | .forkCopy np, c, _ | .forkParent np, c, _ | .forkReady np, c, _ => c = np
  | .waitClearPid child, c, _ | .waitClearParent child, c, _ => c = child
  | .waitIf child b, c, a => c = child ∧ (b = .kstack → a = .kstack)
  | .kfreeNext child b _, c, a | .kfreeHead child b _, c, a | .waitClear child b, c, a =>
      c = child ∧ b = .trapframe ∧ a = .kstack
  | _, _, _ => False

/-- Between the read and the write of `free_mem_list`. -/
def Place.linking : Place → Bool
  | .kallocHead _ _ _ | .kfreeHead _ _ _ => true
  | _ => false

/-- The statement reads `free_mem_list`. -/
def Place.reads : Place → Bool
  | .kallocRead _ _ | .kfreeNext _ _ _ => true
  | _ => false

/-- A slot in use. -/
def Live (st : TaskStatus) : Prop := st ≠ .free ∧ st ≠ .allocated

inductive Owner where
  | slot (c : Fin NPROC) (a : Area)
  | hand (p : Fin NPROC)
  deriving DecidableEq

def Table.Owns (s : Table) : Owner → Page → Prop
  | .slot c a, pa => (s.slot c).page a = some pa ∧ (Live (s.slot c).status ∨ ∃ p, (s.place p).keeps c a)
  | .hand p, pa => (s.place p).hand = some pa

/-- A slot is found free only while no other process works on it, and `free_mem_list` is read only while no other
process is between its read and its write. -/
structure Apart (s : Table) (a : Act) : Prop where
  claim : a = .stmt → ∀ p np : Fin NPROC, s.cur = some p → s.place p = .allocTest np → (s.slot np).status = .free →
    ∀ q, (s.place q).target ≠ some np
  link : a = .stmt → ∀ p, s.cur = some p → (s.place p).reads = true → ∀ q, (s.place q).linking = false

/-! ## The invariant -/

/-- The status of the slot a process works on. -/
def Place.targetStatus : Place → TaskStatus
  | .allocParent _ | .allocChan _ | .allocXstate _ | .allocContext _ => .allocated
  | .kallocRead _ .kstack | .kallocHead _ .kstack _ | .kallocZero _ .kstack _ | .kallocStore _ .kstack _ => .allocated
  | .forkIf _ | .forkFail _ | .forkCopy _ | .forkParent _ | .forkReady _ => .allocated
  | .waitPid _ | .waitXstate _ | .waitFree _ => .zombie
  | _ => .free

/-- The slot's parent is the process itself. -/
def Place.adopted : Place → Bool
  | .forkReady _ | .waitPid _ | .waitXstate _ | .waitFree _ | .waitClearPid _ | .waitClearParent _ => true
  | _ => false

/-- `fork` has found the page it stored not to be null. -/
def Place.filled : Place → Area → Prop
  | .allocMark _, a | .allocParent _, a | .allocChan _, a | .allocXstate _, a | .allocContext _, a => a = .trapframe
  | .kallocRead _ b, a | .kallocHead _ b _, a | .kallocZero _ b _, a | .kallocStore _ b _, a =>
      b = .kstack ∧ a = .trapframe
  | .forkIf _, a | .forkFail _, a => a = .trapframe
  | .forkCopy _, _ | .forkParent _, _ | .forkReady _, _ => True
  | _, _ => False

/-- The places at which a process knows more than its slot. -/
def Place.special : Place → Bool
  | .waitStatus _ | .kallocHead _ _ _ | .kfreeHead _ _ _ => true
  | _ => false

/-- What a process at a place knows. -/
structure Knows (s : Table) (p : Fin NPROC) (k : Place) : Prop where
  status : ∀ c, k.target = some c → (s.slot c).status = k.targetStatus
  parent : ∀ c, k.target = some c → (s.slot c).parent = if k.adopted then some p else none
  filled : ∀ c a, k.target = some c → k.filled a → ((s.slot c).page a).isSome
  child : ∀ c, k = .waitStatus c → (s.slot c).parent = some p
  head : ∀ c a r, k = .kallocHead c a r → r = s.freeMemList
  link : ∀ c a pa, k = .kfreeHead c a pa → s.next pa = s.freeMemList

/-- The free list, which no owner has a page of. -/
structure FreeList (own : Page → Option Owner) (l : List Page) (s : Table) : Prop where
  linked : Linked s.next s.freeMemList l
  nodup : l.Nodup
  free : ∀ pa ∈ l, own pa = none

structure OwnInv (own : Page → Option Owner) (l : List Page) (s : Table) : Prop where
  list : FreeList own l s
  ledger : ∀ o pa, s.Owns o pa → own pa = some o
  live : ∀ c, Live (s.slot c).status → ∀ a, ((s.slot c).page a).isSome
  knows : ∀ p, Knows s p (s.place p)
  busy : ∀ p q c, (s.place p).target = some c → (s.place q).target = some c → p = q
  window : ∀ p q, (s.place p).linking = true → (s.place q).linking = true → p = q
  active : ∀ p, (s.place p).target ≠ none → (s.slot p).status = .ready ∨ (s.slot p).status = .running
  kin : ∀ c p, (s.slot c).parent = some p → Live (s.slot c).status ∨ (s.place p).target = some c
  cur : ∀ p, s.cur = some p → (s.slot p).status = (s.place p).status
  held : ∀ p, (s.place p).status ≠ .running → s.cur = some p

section
variable {own own' : Page → Option Owner} {l l' : List Page} {s t : Table} {p : Fin NPROC} {k : Place}

theorem Live.ready : Live .ready := ⟨by simp, by simp⟩

theorem Live.running : Live .running := ⟨by simp, by simp⟩

/-- The status of a slot another process works on is that of no process that can run. -/
theorem Place.targetStatus_ne (k : Place) : k.targetStatus ≠ .ready ∧ k.targetStatus ≠ .running ∧ k.targetStatus ≠ .sleeping := by
  unfold targetStatus
  split <;> simp

theorem Place.linking_of_special (h : k.special = false) : k.linking = false := by
  unfold linking
  split
  · simp [special] at h
  · simp [special] at h
  · rfl

/-- How the step of `p` may change a slot other than the one it works on: its own, the parent of a child, or the
status of a process that is woken. -/
inductive Benign (p c : Fin NPROC) (v v' : Slot) : Prop
  | own : c = p → v.status = .ready ∨ v.status = .running → Live v'.status → v'.page = v.page → v'.parent = v.parent → Benign p c v v'
  | reparent : v'.status = v.status → v'.page = v.page → v.parent = some p → v'.parent = some 0 → Benign p c v v'
  | wake : v.status = .sleeping → v'.status = .ready → v'.page = v.page → v'.parent = v.parent → Benign p c v v'

theorem Benign.page {c : Fin NPROC} {v v' : Slot} (h : Benign p c v v') : v'.page = v.page := by
  cases h <;> assumption

theorem Benign.live {c : Fin NPROC} {v v' : Slot} (h : Benign p c v v') : Live v'.status ↔ Live v.status := by
  cases h with
  | own _ hrun hlive => rcases hrun with hrun | hrun <;> simp [hrun, hlive, Live.ready, Live.running]
  | reparent hst => rw [hst]
  | wake hs hs' => simp [hs, hs', Live]

/-- What another process knows of its slot is not touched. -/
theorem Benign.untouched {c q : Fin NPROC} {v : Slot} (h : Benign p c (s.slot c) v) (hqp : q ≠ p)
    (hq : Knows s q (s.place q)) (htarget : (s.place q).target = some c) :
    v.status = (s.slot c).status ∧ v.page = (s.slot c).page ∧ v.parent = (s.slot c).parent := by
  have hst := hq.status c htarget
  have hne := (s.place q).targetStatus_ne
  cases h with
  | own _ hrun =>
      rw [hst] at hrun
      exact absurd hrun (by simp [hne.1, hne.2.1])
  | reparent hs hp hpar =>
      have hpq := hq.parent c htarget
      rw [hpar] at hpq
      split at hpq
      · exact absurd (Option.some.inj hpq).symm hqp
      · simp at hpq
  | wake hs => exact absurd (hst.symm.trans hs) hne.2.2

/-- The parent of a child of another process is not touched. -/
theorem Benign.child {c q : Fin NPROC} {v v' : Slot} (h : Benign p c v v') (hqp : q ≠ p) (hpar : v.parent = some q) :
    v'.parent = some q := by
  cases h with
  | own _ _ _ _ he => rw [he, hpar]
  | reparent _ _ hp => exact absurd (Option.some.inj (hpar.symm.trans hp)) hqp
  | wake _ _ _ he => rw [he, hpar]

/-- What a process knows depends on its slot and, inside the window, on the free list. -/
theorem Knows.frame {q : Fin NPROC} (h : Knows s q k)
    (hslot : ∀ c, k.target = some c → (t.slot c).status = (s.slot c).status ∧ (t.slot c).page = (s.slot c).page ∧
      (t.slot c).parent = (s.slot c).parent)
    (hchild : ∀ c, k = .waitStatus c → (t.slot c).parent = some q)
    (hlink : k.linking = true → t.freeMemList = s.freeMemList ∧ ∀ pa, k.hand = some pa → t.next pa = s.next pa) :
    Knows t q k where
  status c hc := by rw [(hslot c hc).1, h.status c hc]
  parent c hc := by rw [(hslot c hc).2.2, h.parent c hc]
  filled c a hc ha := by
    rw [(hslot c hc).2.1]
    exact h.filled c a hc ha
  child := hchild
  head c a r hk := by
    rw [(hlink (by rw [hk]; rfl)).1]
    exact h.head c a r hk
  link c a pa hk := by
    obtain ⟨hfree, hnext⟩ := hlink (by rw [hk]; rfl)
    rw [hfree, hnext pa (by rw [hk]; rfl)]
    exact h.link c a pa hk

/-- A step of `p`, which is at `k` afterwards. -/
theorem OwnInv.change (h : OwnInv own l s) (hcur : ∀ q, s.cur = some q → q = p)
    (hcur' : t.cur = some p ∨ t.cur = none ∧ k.status = .running)
    (hplace : ∀ q, q ≠ p → t.place q = s.place q ∨ t.place q = .user ∧ (s.place q).target = none)
    (hk : t.place p = k) (hlist : FreeList own' l' t) (hledger : ∀ o pa, t.Owns o pa → own' pa = some o)
    (hslot : ∀ c, (s.place p).target ≠ some c → t.slot c = s.slot c ∨ Benign p c (s.slot c) (t.slot c))
    (hlink : ∀ q, q ≠ p → (s.place q).linking = true →
      t.freeMemList = s.freeMemList ∧ ∀ pa, (s.place q).hand = some pa → t.next pa = s.next pa)
    (hlive : ∀ c, (s.place p).target = some c → Live (t.slot c).status → ∀ a, ((t.slot c).page a).isSome)
    (hkin : ∀ c q, (s.place p).target = some c → (t.slot c).parent = some q →
      Live (t.slot c).status ∨ q = p ∧ k.target = some c)
    (hknows : Knows t p k) (hbusy : ∀ q c, q ≠ p → k.target = some c → (s.place q).target ≠ some c)
    (hwindow : k.linking = true → ∀ q, q ≠ p → (s.place q).linking = false)
    (hstatus : t.cur = some p → (t.slot p).status = k.status)
    (hactive : k.target ≠ none → (t.slot p).status = .ready ∨ (t.slot p).status = .running) : OwnInv own' l' t := by
  -- the slots of the others
  have hother (q c : Fin NPROC) (hqp : q ≠ p) (hc : (s.place q).target = some c) :
      (t.slot c).status = (s.slot c).status ∧ (t.slot c).page = (s.slot c).page ∧
        (t.slot c).parent = (s.slot c).parent := by
    rcases hslot c (fun hpc => hqp (h.busy q p c hc hpc)) with he | hb
    · simp [he]
    · exact hb.untouched hqp (h.knows q) hc
  have hchild (q c : Fin NPROC) (hqp : q ≠ p) (hc : s.place q = .waitStatus c) : (t.slot c).parent = some q := by
    have hpar := (h.knows q).child c hc
    by_cases hpc : (s.place p).target = some c
    · have hpar' := (h.knows p).parent c hpc
      rw [hpar] at hpar'
      split at hpar'
      · exact absurd (Option.some.inj hpar') hqp
      · simp at hpar'
    · rcases hslot c hpc with he | hb
      · rw [he, hpar]
      · exact hb.child hqp hpar
  refine ⟨hlist, hledger, fun c hc a => ?_, fun q => ?_, fun q r c hq hr => ?_, fun q r hq hr => ?_, fun q hq => ?_,
    fun c q hc => ?_, fun q hq => ?_, fun q hq => ?_⟩
  · by_cases hpc : (s.place p).target = some c
    · exact hlive c hpc hc a
    · rcases hslot c hpc with he | hb
      · rw [he] at hc ⊢
        exact h.live c hc a
      · rw [hb.page]
        exact h.live c (hb.live.1 hc) a
  · by_cases hqp : q = p
    · rw [hqp, hk]
      exact hknows
    · rcases hplace q hqp with he | ⟨he, -⟩
      · rw [he]
        exact (h.knows q).frame (fun c => hother q c hqp) (fun c => hchild q c hqp) (hlink q hqp)
      · rw [he]
        exact ⟨nofun, nofun, nofun, nofun, nofun, nofun⟩
  · by_cases hqp : q = p <;> by_cases hrp : r = p
    · rw [hqp, hrp]
    · rw [hqp, hk] at hq
      rcases hplace r hrp with he | ⟨he, -⟩
      · exact absurd (he ▸ hr) (hbusy r c hrp hq)
      · simp [he, Place.target] at hr
    · rw [hrp, hk] at hr
      rcases hplace q hqp with he | ⟨he, -⟩
      · exact absurd (he ▸ hq) (hbusy q c hqp hr)
      · simp [he, Place.target] at hq
    · rcases hplace q hqp with he | ⟨he, -⟩
      · rcases hplace r hrp with he' | ⟨he', -⟩
        · exact h.busy q r c (he ▸ hq) (he' ▸ hr)
        · simp [he', Place.target] at hr
      · simp [he, Place.target] at hq
  · by_cases hqp : q = p <;> by_cases hrp : r = p
    · rw [hqp, hrp]
    · rw [hqp, hk] at hq
      rcases hplace r hrp with he | ⟨he, -⟩
      · exact absurd (he ▸ hr) (by simp [hwindow hq r hrp])
      · simp [he, Place.linking] at hr
    · rw [hrp, hk] at hr
      rcases hplace q hqp with he | ⟨he, -⟩
      · exact absurd (he ▸ hq) (by simp [hwindow hr q hqp])
      · simp [he, Place.linking] at hq
    · rcases hplace q hqp with he | ⟨he, -⟩
      · rcases hplace r hrp with he' | ⟨he', -⟩
        · exact h.window q r (he ▸ hq) (he' ▸ hr)
        · simp [he', Place.linking] at hr
      · simp [he, Place.linking] at hq
  · by_cases hqp : q = p
    · subst hqp
      rw [hk] at hq
      exact hactive hq
    · rcases hplace q hqp with he | ⟨he, -⟩
      · rw [he] at hq
        have hact := h.active q hq
        have hpq : (s.place p).target ≠ some q := by
          intro hp
          have hne := (s.place p).targetStatus_ne
          rw [(h.knows p).status q hp] at hact
          exact hact.elim hne.1 hne.2.1
        rcases hslot q hpq with he' | hb
        · rwa [he']
        · cases hb with
          | own he' => exact absurd he' hqp
          | reparent hst => rwa [hst]
          | wake hs => simp [hs] at hact
      · simp [he, Place.target] at hq
  · by_cases hpc : (s.place p).target = some c
    · rcases hkin c q hpc hc with hl | ⟨rfl, hkc⟩
      · exact .inl hl
      · exact .inr (by rw [hk, hkc])
    · rcases hslot c hpc with he | hb
      · rw [he] at hc ⊢
        rcases h.kin c q hc with hl | hq
        · exact .inl hl
        · have hqp : q ≠ p := fun e => hpc (e ▸ hq)
          rcases hplace q hqp with he | ⟨-, he⟩
          · exact .inr (he ▸ hq)
          · exact absurd (he.symm.trans hq) (by simp)
      · rw [hb.live]
        cases hb with
        | own _ hrun => rcases hrun with hrun | hrun <;> exact .inl (by simp [hrun, Live])
        | wake hs => exact .inl (by simp [hs, Live])
        | reparent _ _ hpar =>
            rcases h.kin c p hpar with hl | hp
            · exact .inl hl
            · exact absurd hp hpc
  · rcases hcur' with he | ⟨he, -⟩
    · obtain rfl : p = q := Option.some.inj (he.symm.trans hq)
      rw [hk, hstatus he]
    · simp [he] at hq
  · by_cases hqp : q = p
    · subst hqp
      rw [hk] at hq
      rcases hcur' with he | ⟨-, he⟩
      · exact he
      · exact absurd he hq
    · rcases hplace q hqp with he | ⟨he, -⟩
      · rw [he] at hq
        exact absurd (hcur q (h.held q hq)) hqp
      · simp [he, Place.status] at hq

/-- A statement of `p`, after which it runs on at `k`. -/
theorem OwnInv.move (h : OwnInv own l s) (hcur : s.cur = some p) (hcur' : t.cur = some p)
    (hplace : ∀ q, q ≠ p → t.place q = s.place q ∨ t.place q = .user ∧ (s.place q).target = none)
    (hk : t.place p = k) (hlist : FreeList own' l' t) (hledger : ∀ o pa, t.Owns o pa → own' pa = some o)
    (hslot : ∀ c, (s.place p).target ≠ some c → t.slot c = s.slot c ∨ Benign p c (s.slot c) (t.slot c))
    (hlink : ∀ q, q ≠ p → (s.place q).linking = true →
      t.freeMemList = s.freeMemList ∧ ∀ pa, (s.place q).hand = some pa → t.next pa = s.next pa)
    (hlive : ∀ c, (s.place p).target = some c → Live (t.slot c).status → ∀ a, ((t.slot c).page a).isSome)
    (hkin : ∀ c q, (s.place p).target = some c → (t.slot c).parent = some q →
      Live (t.slot c).status ∨ q = p ∧ k.target = some c)
    (hknows : Knows t p k) (hbusy : ∀ q c, q ≠ p → k.target = some c → (s.place q).target ≠ some c)
    (hwindow : k.linking = true → ∀ q, q ≠ p → (s.place q).linking = false)
    (hstatus : (t.slot p).status = k.status) : OwnInv own' l' t := by
  refine h.change (fun q hq => Option.some.inj (hq.symm.trans hcur)) (.inl hcur') hplace hk hlist hledger hslot hlink
    hlive hkin hknows hbusy hwindow (fun _ => hstatus) fun hkt => ?_
  obtain ⟨c, hc⟩ := Option.ne_none_iff_exists'.1 hkt
  rw [hstatus]
  exact .inr (Place.status_of_target hc)

/-! ## The statements, by what they assign -/

theorem Table.Owns.slot_back {c : Fin NPROC} {a : Area} {pa : Page} (ho : t.Owns (.slot c a) pa)
    (hplace : ∀ q, q ≠ p → t.place q = s.place q ∨ t.place q = .user) (hk : t.place p = k)
    (hpage : (t.slot c).page a = some pa → (s.slot c).page a = some pa)
    (hlive : Live (t.slot c).status → Live (s.slot c).status ∨ (s.place p).keeps c a)
    (hkeeps : k.keeps c a → Live (s.slot c).status ∨ (s.place p).keeps c a) : s.Owns (.slot c a) pa := by
  refine ⟨hpage ho.1, ?_⟩
  rcases ho.2 with hl | ⟨q, hq⟩
  · exact (hlive hl).imp id fun hp => ⟨p, hp⟩
  · by_cases hqp : q = p
    · subst hqp
      exact (hkeeps (hk ▸ hq)).imp id fun hp => ⟨q, hp⟩
    · rcases hplace q hqp with he | he
      · exact .inr ⟨q, he ▸ hq⟩
      · rw [he] at hq
        exact hq.elim

theorem Table.Owns.hand_back {q : Fin NPROC} {pa : Page} (ho : t.Owns (.hand q) pa) (hqp : q ≠ p)
    (hplace : ∀ q, q ≠ p → t.place q = s.place q ∨ t.place q = .user) : s.Owns (.hand q) pa := by
  rcases hplace q hqp with he | he
  · show (s.place q).hand = some pa
    rw [← he]
    exact ho
  · have hu : (t.place q).hand = some pa := ho
    simp [he, Place.hand] at hu

/-- A step after which nothing is owned that was not. -/
theorem OwnInv.ledger_of (h : OwnInv own l s) (hplace : ∀ q, q ≠ p → t.place q = s.place q ∨ t.place q = .user)
    (hk : t.place p = k) (hpage : ∀ c a pa, (t.slot c).page a = some pa → (s.slot c).page a = some pa)
    (hlive : ∀ c a, Live (t.slot c).status → Live (s.slot c).status ∨ (s.place p).keeps c a)
    (hkeeps : ∀ c a, k.keeps c a → Live (s.slot c).status ∨ (s.place p).keeps c a)
    (hhand : ∀ pa, k.hand = some pa → (s.place p).hand = some pa) : ∀ o pa, t.Owns o pa → own pa = some o := by
  intro o pa ho
  apply h.ledger
  cases o with
  | slot c a => exact ho.slot_back hplace hk (hpage c a pa) (hlive c a) (hkeeps c a)
  | hand q =>
      by_cases hqp : q = p
      · subst hqp
        exact hhand pa (hk ▸ ho)
      · exact ho.hand_back hqp hplace

theorem place_update (hplace : t.place = update s.place p k) :
    (∀ q, q ≠ p → t.place q = s.place q) ∧ t.place p = k := by
  rw [hplace]
  exact ⟨fun q hq => update_of_ne hq _ _, update_self _ _ _⟩

/-- What is known is passed on to the next statement. -/
theorem Knows.next {k₀ : Place} (h : Knows s p k₀) (htarget : k.target = k₀.target)
    (hst : k.targetStatus = k₀.targetStatus) (hadopt : k.adopted = k₀.adopted)
    (hfilled : ∀ a, k.filled a → k₀.filled a) (hspecial : k.special = false) : Knows s p k where
  status c hc := by rw [h.status c (htarget ▸ hc), hst]
  parent c hc := by rw [h.parent c (htarget ▸ hc), hadopt]
  filled c a hc ha := h.filled c a (htarget ▸ hc) (hfilled a ha)
  child c hc := by simp [hc, Place.special] at hspecial
  head c a r hc := by simp [hc, Place.special] at hspecial
  link c a pa hc := by simp [hc, Place.special] at hspecial

/-- At a statement of a process that works on no slot nothing is known. -/
theorem Knows.idle (htarget : k.target = none) (hspecial : k.special = false) : Knows s p k where
  status c hc := by simp [htarget] at hc
  parent c hc := by simp [htarget] at hc
  filled c a hc := by simp [htarget] at hc
  child c hc := by simp [hc, Place.special] at hspecial
  head c a r hc := by simp [hc, Place.special] at hspecial
  link c a pa hc := by simp [hc, Place.special] at hspecial

/-- A statement that assigns to no slot and leaves the list and what is owned; with no target it may leave the slot
it worked on. It may write to a page that is not on the list nor in the hands of another process. -/
theorem OwnInv.write (h : OwnInv own l s) (hcur : s.cur = some p) {k₀ : Place} (hpl : s.place p = k₀) (k : Place)
    (hslot : t.slot = s.slot) (hplace : t.place = update s.place p k) (hcur' : t.cur = s.cur)
    (hfree : t.freeMemList = s.freeMemList) (hlinked : Linked t.next s.freeMemList l)
    (hnext : ∀ q pa, q ≠ p → (s.place q).hand = some pa → t.next pa = s.next pa) (h₀ : k₀.status = .running)
    (hk : k.status = .running) (hknows : Knows t p k)
    (htarget : k.target = k₀.target ∨ k₀.adopted = false ∧ ∀ q c, q ≠ p → k.target = some c → (s.place q).target ≠ some c)
    (hkeeps : ∀ c a, k.keeps c a → Live (s.slot c).status ∨ k₀.keeps c a)
    (hhand : ∀ pa, k.hand = some pa → k₀.hand = some pa)
    (hwindow : k.linking = true → ∀ q, q ≠ p → (s.place q).linking = false) : OwnInv own l t := by
  subst hpl
  obtain ⟨hplace, hkp⟩ := place_update hplace
  refine h.move hcur (hcur'.trans hcur) (fun q hq => .inl (hplace q hq)) hkp
    ⟨hfree ▸ hlinked, h.list.nodup, h.list.free⟩ ?_ (fun c _ => .inl (by rw [hslot]))
    (fun q hq _ => ⟨hfree, fun pa => hnext q pa hq⟩) ?_ ?_ hknows ?_ hwindow ?_
  · exact h.ledger_of (fun q hq => .inl (hplace q hq)) hkp (fun c a pa => by rw [hslot]; exact id)
      (fun c a hl => .inl (by rwa [hslot] at hl)) hkeeps hhand
  · rw [hslot]
    exact fun c _ hc => h.live c hc
  · intro c q hc hq
    rw [hslot] at hq ⊢
    have hpar := (h.knows p).parent c hc
    rw [hq] at hpar
    rcases htarget with he | ⟨he, -⟩
    · split at hpar
      · exact .inr ⟨Option.some.inj hpar, he ▸ hc⟩
      · simp at hpar
    · simp [he] at hpar
  · rcases htarget with he | ⟨-, he⟩
    · exact fun q c hq hc hqc => hq (h.busy q p c hqc (he ▸ hc))
    · exact he
  · rw [hslot, h.cur p hcur, h₀, hk]

/-- One that writes to no page. -/
theorem OwnInv.plain (h : OwnInv own l s) (hcur : s.cur = some p) {k₀ : Place} (hpl : s.place p = k₀) (k : Place)
    (hslot : t.slot = s.slot) (hplace : t.place = update s.place p k) (hcur' : t.cur = s.cur)
    (hfree : t.freeMemList = s.freeMemList) (hnext : t.next = s.next) (h₀ : k₀.status = .running)
    (hk : k.status = .running) (hknows : Knows s p k)
    (htarget : k.target = k₀.target ∨ k₀.adopted = false ∧ ∀ q c, q ≠ p → k.target = some c → (s.place q).target ≠ some c)
    (hkeeps : ∀ c a, k.keeps c a → Live (s.slot c).status ∨ k₀.keeps c a)
    (hhand : ∀ pa, k.hand = some pa → k₀.hand = some pa)
    (hwindow : k.linking = true → ∀ q, q ≠ p → (s.place q).linking = false) : OwnInv own l t := by
  refine h.write hcur hpl k hslot hplace hcur' hfree (hnext ▸ h.list.linked) (fun q pa _ _ => by rw [hnext]) h₀ hk ?_
    htarget hkeeps hhand hwindow
  exact hknows.frame (fun c _ => by simp [hslot]) (fun c hc => by rw [hslot]; exact hknows.child c hc)
    fun _ => ⟨hfree, fun pa _ => by rw [hnext]⟩

/-- A page of an owner that is no other process is written to. -/
theorem OwnInv.linked_update (h : OwnInv own l s) {b : Page} {o : Owner} (ho : s.Owns o b) (hne : ∀ q, q ≠ p → o ≠ .hand q)
    (x : Option Page) : Linked (update s.next b x) s.freeMemList l ∧
      ∀ q pa', q ≠ p → (s.place q).hand = some pa' → update s.next b x pa' = s.next pa' := by
  have hown := h.ledger o b ho
  refine ⟨h.list.linked.frame x fun hm => ?_, fun q pa' hq hpa' => update_of_ne ?_ _ _⟩
  · exact absurd (hown.symm.trans (h.list.free b hm)) (by simp)
  · rintro rfl
    exact hne q hq (Option.some.inj (hown.symm.trans (h.ledger (.hand q) pa' hpa')))

/-- `fork` or `wait` assigns to the slot it works on, and gives it no page. -/
theorem OwnInv.fill (h : OwnInv own l s) (hcur : s.cur = some p) {k₀ : Place} (hpl : s.place p = k₀)
    {c : Fin NPROC} (hc : k₀.target = some c) (k : Place) {v : Slot} (hslot : t.slot = update s.slot c v)
    (hplace : t.place = update s.place p k) (hcur' : t.cur = s.cur)
    (hfree : t.freeMemList = s.freeMemList) (hnext : t.next = s.next) (hk : k.status = .running)
    (htarget : k.target = some c ∧ v.status = k.targetStatus ∧ v.parent = (if k.adopted then some p else none) ∧
        (∀ a, k.filled a → (v.page a).isSome) ∨
      k.target = none ∧ (v.parent = none ∨ Live v.status))
    (hspecial : k.special = false) (hpage : ∀ a pa, v.page a = some pa → (s.slot c).page a = some pa)
    (hlive : Live v.status → ∀ a, (Live (s.slot c).status ∨ k₀.keeps c a) ∧ (v.page a).isSome)
    (hkeeps : ∀ c a, k.keeps c a → Live (s.slot c).status ∨ k₀.keeps c a) (hhand : k.hand = none) :
    OwnInv own l t := by
  subst hpl
  obtain ⟨hplace, hkp⟩ := place_update hplace
  have hcp : p ≠ c := by
    rintro rfl
    have hact := h.active p (by simp [hc])
    have hne := (s.place p).targetStatus_ne
    rw [(h.knows p).status p hc] at hact
    exact hact.elim hne.1 hne.2.1
  have hc' : t.slot c = v := by rw [hslot, update_self]
  have hne {d : Fin NPROC} (hd : d ≠ c) : t.slot d = s.slot d := by rw [hslot, update_of_ne hd]
  have hsome {d : Fin NPROC} (hd : (s.place p).target = some d) : d = c := Option.some.inj (hd.symm.trans hc)
  refine h.move hcur (hcur'.trans hcur) (fun q hq => .inl (hplace q hq)) hkp ?_ ?_ (fun d hd => .inl (hne ?_))
    (fun q _ _ => ⟨hfree, fun pa _ => by rw [hnext]⟩) (fun d hd hl => ?_) (fun d q hd hq => ?_) ?_ ?_ ?_ ?_
  · exact ⟨by rw [hnext, hfree]; exact h.list.linked, h.list.nodup, h.list.free⟩
  · refine h.ledger_of (fun q hq => .inl (hplace q hq)) hkp (fun d a pa hd => ?_) (fun d a hl => ?_) hkeeps (by simp [hhand])
    · by_cases hdc : d = c
      · subst hdc
        exact hpage a pa (hc' ▸ hd)
      · rwa [hne hdc] at hd
    · by_cases hdc : d = c
      · subst hdc
        exact (hlive (hc' ▸ hl) a).1
      · exact .inl (by rwa [hne hdc] at hl)
  · rintro rfl
    exact hd hc
  · obtain rfl := hsome hd
    rw [hc'] at hl ⊢
    exact fun a => (hlive hl a).2
  · obtain rfl := hsome hd
    rw [hc'] at hq ⊢
    rcases htarget with ⟨hkc, -, hpar, -⟩ | ⟨-, hpar | hl⟩
    · rw [hq] at hpar
      split at hpar
      · exact .inr ⟨Option.some.inj hpar, hkc⟩
      · simp at hpar
    · simp [hpar] at hq
    · exact .inl hl
  · rcases htarget with ⟨hkc, hst, hpar, hfilled⟩ | ⟨hkc, -⟩
    · have hd {d : Fin NPROC} (hd : k.target = some d) : d = c := Option.some.inj (hd.symm.trans hkc)
      refine ⟨fun d hkd => ?_, fun d hkd => ?_, fun d a hkd ha => ?_, fun d hkd => ?_, fun d a r hkd => ?_,
        fun d a pa hkd => ?_⟩
      · rw [hd hkd, hc', hst]
      · rw [hd hkd, hc', hpar]
      · rw [hd hkd, hc']
        exact hfilled a ha
      · simp [hkd, Place.special] at hspecial
      · simp [hkd, Place.special] at hspecial
      · simp [hkd, Place.special] at hspecial
    · exact .idle hkc hspecial
  · rcases htarget with ⟨hkc, -⟩ | ⟨hkc, -⟩
    · intro q d hq hkd hqd
      obtain rfl : d = c := Option.some.inj (hkd.symm.trans hkc)
      exact hq (h.busy q p d hqd hc)
    · simp [hkc]
  · simp [Place.linking_of_special hspecial]
  · rw [hne hcp, h.cur p hcur, hk, Place.status_of_target hc]

/-- A process that works on no slot assigns to its own slot, to a child's, or to one it wakes. -/
theorem OwnInv.benign (h : OwnInv own l s) (hcur : s.cur = some p) {k₀ : Place} (hpl : s.place p = k₀)
    (h₀ : k₀.target = none) (k : Place) {c : Fin NPROC} {v : Slot} (hslot : t.slot = update s.slot c v)
    (hplace : t.place = update s.place p k) (hcur' : t.cur = s.cur)
    (hfree : t.freeMemList = s.freeMemList) (hnext : t.next = s.next) (hb : Benign p c (s.slot c) v)
    (htarget : k.target = none) (hspecial : k.special = false) (hkeeps : ∀ c a, ¬ k.keeps c a) (hhand : k.hand = none)
    (hstatus : (t.slot p).status = k.status) : OwnInv own l t := by
  subst hpl
  obtain ⟨hplace, hkp⟩ := place_update hplace
  have hd (d : Fin NPROC) : t.slot d = s.slot d ∨ Benign p d (s.slot d) (t.slot d) := by
    rw [hslot]
    by_cases hdc : d = c
    · subst hdc
      rw [update_self]
      exact .inr hb
    · rw [update_of_ne hdc]
      exact .inl rfl
  refine h.move hcur (hcur'.trans hcur) (fun q hq => .inl (hplace q hq)) hkp ?_ ?_ (fun d _ => hd d)
    (fun q _ _ => ⟨hfree, fun pa _ => by rw [hnext]⟩) (by simp [h₀]) (by simp [h₀]) (.idle htarget hspecial)
    (by simp [htarget]) (by simp [Place.linking_of_special hspecial]) hstatus
  · exact ⟨by rw [hnext, hfree]; exact h.list.linked, h.list.nodup, h.list.free⟩
  · refine h.ledger_of (fun q hq => .inl (hplace q hq)) hkp (fun d a pa hpa => ?_) (fun d a hl => .inl ?_)
      (fun d a ha => absurd ha (hkeeps d a)) (by simp [hhand])
    · rcases hd d with he | hb
      · rwa [he] at hpa
      · rwa [hb.page] at hpa
    · rcases hd d with he | hb
      · rwa [he] at hl
      · exact hb.live.1 hl

/-! ## The statements that move a page -/

theorem Place.target_of_keeps {c : Fin NPROC} {a : Area} (h : k.keeps c a) : k.target = some c := by
  unfold keeps at h
  split at h
  all_goals first
    | exact congrArg some h.1.symm
    | exact congrArg some h.symm
    | exact False.elim h

/-- Of the slot a process works on, the others own nothing. -/
theorem OwnInv.keeps_self (h : OwnInv own l s) {q c : Fin NPROC} {a : Area} (hc : (s.place p).target = some c)
    (hq : (s.place q).keeps c a) : q = p :=
  h.busy q p c (Place.target_of_keeps hq) hc

/-- A slot another process works on, other than a zombie, is not live. -/
theorem OwnInv.not_live (h : OwnInv own l s) {c : Fin NPROC} (hc : (s.place p).target = some c)
    (hst : (s.place p).targetStatus = .free ∨ (s.place p).targetStatus = .allocated) : ¬ Live (s.slot c).status := by
  rw [(h.knows p).status c hc]
  rcases hst with hst | hst <;> simp [hst, Live]

/-- `free_mem_list = r->next` in `kalloc`: the first page goes from the list to the hands of the process. -/
theorem OwnInv.take (h : OwnInv own l s) (hcur : s.cur = some p) {np : Fin NPROC} {a : Area} {r : Page}
    (hpl : s.place p = .kallocHead np a (some r)) :
    ∃ own' l', OwnInv own' l' ({ s with freeMemList := s.next r }.goto p (.kallocZero np a r)) := by
  have hkn := h.knows p
  rw [hpl] at hkn
  have htarget : (s.place p).target = some np := by rw [hpl]; rfl
  obtain ⟨l', rfl, hl'⟩ : ∃ l', l = r :: l' ∧ Linked s.next (s.next r) l' :=
    Linked.pop (hkn.head np a _ rfl ▸ h.list.linked)
  have hr : own r = none := h.list.free r List.mem_cons_self
  have hnodup := List.nodup_cons.1 h.list.nodup
  obtain ⟨hplace, hkp⟩ := place_update (s := s) (t := { s with freeMemList := s.next r }.goto p (.kallocZero np a r)) rfl
  refine ⟨update own r (some (.hand p)), l', h.move hcur hcur (fun q hq => .inl (hplace q hq)) hkp ⟨hl', hnodup.2, ?_⟩ ?_
    (fun _ _ => .inl rfl) ?_ (fun c _ hc => h.live c hc) ?_ ?_ ?_ nofun ?_⟩
  · intro pa hpa
    have hne : pa ≠ r := fun e => hnodup.1 (e ▸ hpa)
    rw [update_of_ne hne]
    exact h.list.free pa (List.mem_cons_of_mem _ hpa)
  · intro o pa ho
    by_cases hop : o = .hand p
    · subst hop
      obtain rfl : r = pa := Option.some.inj ((congrArg Place.hand hkp).symm.trans ho)
      rw [update_self]
    · have ho' : s.Owns o pa := by
        cases o with
        | slot c b =>
            refine ho.slot_back (fun q hq => .inl (hplace q hq)) hkp id .inl fun hk => .inr ?_
            rw [hpl]
            exact hk
        | hand q => exact ho.hand_back (fun e => hop (e ▸ rfl)) fun q hq => .inl (hplace q hq)
      have hown := h.ledger o pa ho'
      have hne : pa ≠ r := by
        rintro rfl
        exact absurd (hown.symm.trans hr) (by simp)
      rw [update_of_ne hne, hown]
  · intro q hq hlq
    exact absurd (h.window q p hlq (by rw [hpl]; rfl)) hq
  · intro c q hc hq
    exact absurd (hq.symm.trans ((h.knows p).parent c hc)) (by simp [hpl, Place.adopted])
  · cases a <;> exact ⟨hkn.status, hkn.parent, hkn.filled, nofun, nofun, nofun⟩
  · exact fun q c hq hc hqc => hq (h.busy q p c hqc (htarget.trans hc))
  · exact (h.cur p hcur).trans (by rw [hpl]; rfl)

/-- `free_mem_list = r` in `kfree`: the page goes to the list. -/
theorem OwnInv.give (h : OwnInv own l s) (hcur : s.cur = some p) {child : Fin NPROC} {a : Area} {pa : Page}
    (hpl : s.place p = .kfreeHead child a pa) :
    ∃ own' l', OwnInv own' l' ({ s with freeMemList := some pa }.goto p (.waitClear child a)) := by
  have hkn := h.knows p
  rw [hpl] at hkn
  have htarget : (s.place p).target = some child := by rw [hpl]; rfl
  have hown : own pa = some (.hand p) := h.ledger (.hand p) pa (by show (s.place p).hand = _; rw [hpl]; rfl)
  obtain ⟨hplace, hkp⟩ := place_update (s := s) (t := { s with freeMemList := some pa }.goto p (.waitClear child a)) rfl
  have hmem : pa ∉ l := fun hm => absurd (hown.symm.trans (h.list.free pa hm)) (by simp)
  refine ⟨update own pa none, pa :: l, h.move hcur hcur (fun q hq => .inl (hplace q hq)) hkp
    ⟨h.list.linked.push (hkn.link child a pa rfl), List.nodup_cons.2 ⟨hmem, h.list.nodup⟩, ?_⟩ ?_
    (fun _ _ => .inl rfl) ?_ (fun c _ hc => h.live c hc) ?_ ?_ ?_ nofun ?_⟩
  · intro pb hpb
    rcases List.mem_cons.1 hpb with rfl | hpb
    · exact update_self _ _ _
    · have hne : pb ≠ pa := fun e => hmem (e ▸ hpb)
      rw [update_of_ne hne]
      exact h.list.free pb hpb
  · intro o pb ho
    have hback := h.ledger_of (fun q hq => .inl (hplace q hq)) hkp (fun _ _ _ => id) (fun _ _ => .inl)
      (fun c b hk => .inr (by rw [hpl]; exact hk)) nofun o pb ho
    have hne : pb ≠ pa := by
      rintro rfl
      obtain rfl : Owner.hand p = o := Option.some.inj (hown.symm.trans hback)
      exact absurd ((congrArg Place.hand hkp).symm.trans ho) (by simp [Place.hand])
    rw [update_of_ne hne, hback]
  · intro q hq hlq
    exact absurd (h.window q p hlq (by rw [hpl]; rfl)) hq
  · intro c q hc hq
    exact absurd (hq.symm.trans ((h.knows p).parent c hc)) (by simp [hpl, Place.adopted])
  · exact ⟨hkn.status, hkn.parent, hkn.filled, nofun, nofun, nofun⟩
  · exact fun q c hq hc hqc => hq (h.busy q p c hqc (htarget.trans hc))
  · exact (h.cur p hcur).trans (by rw [hpl]; rfl)

/-- `p->trapframe = kalloc()` and `np->kstack = kalloc()`: the page goes from the hands of the process to the slot. -/
theorem OwnInv.store (h : OwnInv own l s) (hcur : s.cur = some p) {np : Fin NPROC} {a : Area} {r : Option Page}
    (hpl : s.place p = .kallocStore np a r) (k : Place) (hk : k = match a with | .trapframe => .allocIf np | .kstack => .forkIf np) :
    ∃ own', OwnInv own' l ((s.mod np fun v => { v with page := update v.page a r }).goto p k) := by
  have hkn := h.knows p
  rw [hpl] at hkn
  have htarget : (s.place p).target = some np := by rw [hpl]; rfl
  have hdead : ¬ Live (s.slot np).status := h.not_live htarget (by rw [hpl]; cases a <;> simp [Place.targetStatus])
  have hpnp : p ≠ np := by
    rintro rfl
    have hst := h.cur p hcur
    rw [hpl] at hst
    exact hdead (hst ▸ Live.running)
  set t := (s.mod np fun v => { v with page := update v.page a r }).goto p k with ht
  obtain ⟨hplace, hkp⟩ := place_update (s := s) (t := t) rfl
  have hkt : k.target = some np := by subst hk; cases a <;> rfl
  have hself : t.slot np = { s.slot np with page := update (s.slot np).page a r } := update_self _ _ _
  have hne {c : Fin NPROC} (hc : c ≠ np) : t.slot c = s.slot c := update_of_ne hc _ _
  -- what is owned afterwards was owned before, the stored page apart
  have hback (o : Owner) (pa : Page) (ho : t.Owns o pa) : o = .slot np a ∧ r = some pa ∨ o ≠ .hand p ∧ s.Owns o pa := by
    cases o with
    | hand q =>
        by_cases hqp : q = p
        · subst hqp
          have hnone : k.hand = none := by subst hk; cases a <;> rfl
          exact absurd ((congrArg Place.hand hkp).symm.trans ho) (by simp [hnone])
        · exact .inr ⟨fun e => hqp (Owner.hand.inj e), ho.hand_back hqp fun q hq => .inl (hplace q hq)⟩
    | slot c b =>
        by_cases hc : c = np
        · subst hc
          by_cases hb : b = a
          · subst hb
            refine .inl ⟨rfl, ?_⟩
            have hpg := ho.1
            rw [hself] at hpg
            simpa using hpg
          · refine .inr ⟨nofun, ho.slot_back (fun q hq => .inl (hplace q hq)) hkp (fun hpg => ?_) (fun hl => ?_) fun hkeep => ?_⟩
            · rw [hself] at hpg
              simpa [hb] using hpg
            · rw [hself] at hl
              exact absurd hl hdead
            · right
              rw [hpl]
              subst hk
              cases a with
              | trapframe => exact absurd hkeep.2 hb
              | kstack => cases b with
                | trapframe => exact ⟨rfl, rfl, rfl⟩
                | kstack => exact absurd rfl hb
        · refine .inr ⟨nofun, ho.slot_back (fun q hq => .inl (hplace q hq)) hkp (fun hpg => ?_) (fun hl => ?_) fun hkeep => ?_⟩
          · rwa [hne hc] at hpg
          · exact .inl (by rwa [hne hc] at hl)
          · exact absurd (Option.some.inj (hkt.symm.trans (Place.target_of_keeps hkeep))).symm hc
  have hhand (pa : Page) (hr : r = some pa) : own pa = some (.hand p) :=
    h.ledger (.hand p) pa (by show (s.place p).hand = _; rw [hpl, hr]; rfl)
  have hmem (pa : Page) (hr : r = some pa) : pa ∉ l :=
    fun hm => absurd ((hhand pa hr).symm.trans (h.list.free pa hm)) (by simp)
  refine ⟨fun pa => if r = some pa then some (.slot np a) else own pa, h.move hcur hcur (fun q hq => .inl (hplace q hq)) hkp
    ⟨h.list.linked, h.list.nodup, fun pa hpa => ?_⟩ (fun o pa ho => ?_) (fun c hc => .inl (hne ?_)) (fun q hq _ => ⟨rfl, fun _ _ => rfl⟩)
    (fun c hc hl => ?_) (fun c q hc hq => ?_) ?_ (fun q c hq hc hqc => ?_) ?_ ?_⟩
  · rw [if_neg (fun e => hmem pa e hpa)]
    exact h.list.free pa hpa
  · rcases hback o pa ho with ⟨rfl, hr⟩ | ⟨hop, ho'⟩
    · exact if_pos hr
    · have hown := h.ledger o pa ho'
      rw [if_neg (fun e => hop (Option.some.inj (hown.symm.trans (hhand pa e)))), hown]
  · rintro rfl
    exact hc htarget
  · obtain rfl := Option.some.inj (hc.symm.trans htarget)
    rw [hself] at hl
    exact absurd hl hdead
  · obtain rfl := Option.some.inj (hc.symm.trans htarget)
    rw [hself] at hq
    exact absurd (hq.symm.trans (hkn.parent c rfl)) (by simp [Place.adopted])
  · have hst := hkn.status np rfl
    have hpar := hkn.parent np rfl
    subst hk
    cases a with
    | trapframe =>
        refine ⟨?_, ?_, nofun, nofun, nofun, nofun⟩ <;> rintro _ ⟨⟩ <;> rw [hself]
        · exact hst
        · exact hpar
    | kstack =>
        refine ⟨?_, ?_, ?_, nofun, nofun, nofun⟩
        · rintro _ ⟨⟩
          rw [hself]
          exact hst
        · rintro _ ⟨⟩
          rw [hself]
          exact hpar
        · rintro _ _ ⟨⟩ rfl
          rw [hself]
          simpa using hkn.filled np .trapframe rfl ⟨rfl, rfl⟩
  · exact hq (h.busy q p c hqc (htarget.trans (hkt.symm.trans hc)))
  · subst hk
    cases a <;> nofun
  · rw [hne hpnp, h.cur p hcur, hpl]
    subst hk
    cases a <;> rfl

/-- `kfree(child->trapframe)` and `kfree(child->kstack)`: the page goes from the slot to the hands of the process. -/
theorem OwnInv.drop (h : OwnInv own l s) (hcur : s.cur = some p) {child : Fin NPROC} {a : Area} {pa : Page}
    (hpl : s.place p = .waitIf child a) (hpa : (s.slot child).page a = some pa) :
    ∃ own', OwnInv own' l (s.goto p (.kfreeNext child a pa)) := by
  have hkn := h.knows p
  rw [hpl] at hkn
  have htarget : (s.place p).target = some child := by rw [hpl]; rfl
  have hdead : ¬ Live (s.slot child).status := h.not_live htarget (by rw [hpl]; exact .inl rfl)
  have hown : own pa = some (.slot child a) :=
    h.ledger (.slot child a) pa ⟨hpa, .inr ⟨p, by rw [hpl]; exact ⟨rfl, id⟩⟩⟩
  obtain ⟨hplace, hkp⟩ := place_update (s := s) (t := s.goto p (.kfreeNext child a pa)) rfl
  have hmem : pa ∉ l := fun hm => absurd (hown.symm.trans (h.list.free pa hm)) (by simp)
  have hback (o : Owner) (pb : Page) (ho : (s.goto p (.kfreeNext child a pa)).Owns o pb) :
      o = .hand p ∧ pb = pa ∨ o ≠ .slot child a ∧ s.Owns o pb := by
    cases o with
    | hand q =>
        by_cases hqp : q = p
        · subst hqp
          exact .inl ⟨rfl, Option.some.inj (ho.symm.trans (congrArg Place.hand hkp))⟩
        · exact .inr ⟨nofun, ho.hand_back hqp fun q hq => .inl (hplace q hq)⟩
    | slot c b =>
        refine .inr ⟨fun e => ?_, ho.slot_back (fun q hq => .inl (hplace q hq)) hkp id .inl fun hkeep => .inr ?_⟩
        · obtain ⟨rfl, rfl⟩ := Owner.slot.inj e
          rcases ho.2 with hl | ⟨q, hq⟩
          · exact hdead hl
          · by_cases hqp : q = p
            · subst hqp
              rw [hkp] at hq
              exact absurd (hq.2.1.symm.trans hq.2.2) (by simp)
            · rw [hplace q hqp] at hq
              exact hqp (h.keeps_self htarget hq)
        · rw [hpl]
          exact ⟨hkeep.1, fun _ => hkeep.2.2⟩
  refine ⟨update own pa (some (.hand p)), h.move hcur hcur (fun q hq => .inl (hplace q hq)) hkp
    ⟨h.list.linked, h.list.nodup, fun pb hpb => ?_⟩ (fun o pb ho => ?_) (fun _ _ => .inl rfl) (fun q hq _ => ⟨rfl, fun _ _ => rfl⟩)
    (fun c _ hc => h.live c hc) (fun c q hc hq => ?_) ⟨hkn.status, hkn.parent, hkn.filled, nofun, nofun, nofun⟩
    (fun q c hq hc hqc => hq (h.busy q p c hqc (htarget.trans hc))) nofun ((h.cur p hcur).trans (by rw [hpl]; rfl))⟩
  · have hne : pb ≠ pa := fun e => hmem (e ▸ hpb)
    rw [update_of_ne hne]
    exact h.list.free pb hpb
  · rcases hback o pb ho with ⟨rfl, rfl⟩ | ⟨hoc, ho'⟩
    · exact update_self _ _ _
    · have hob := h.ledger o pb ho'
      have hne : pb ≠ pa := by
        rintro rfl
        exact hoc (Option.some.inj (hob.symm.trans hown))
      rw [update_of_ne hne, hob]
  · exact absurd (hq.symm.trans ((h.knows p).parent c hc)) (by simp [hpl, Place.adopted])

/-- The slot a process works on is not its own. -/
theorem OwnInv.target_ne (h : OwnInv own l s) {c : Fin NPROC} (hc : (s.place p).target = some c) : p ≠ c := by
  rintro rfl
  have hact := h.active p (by simp [hc])
  have hne := (s.place p).targetStatus_ne
  rw [(h.knows p).status p hc] at hact
  exact hact.elim hne.1 hne.2.1

/-- `np->context.ra = forkret`: the thread of the slot will start in user mode. -/
theorem OwnInv.context (h : OwnInv own l s) (hcur : s.cur = some p) {np : Fin NPROC}
    (hpl : s.place p = .allocContext np) :
    OwnInv own l ((s.goto np .user).goto p (.kallocRead np .kstack)) := by
  have hkn := h.knows p
  rw [hpl] at hkn
  have htarget : (s.place p).target = some np := by rw [hpl]; rfl
  have hpnp := h.target_ne htarget
  have hidle : (s.place np).target = none := by
    by_contra hne
    have hact := h.active np hne
    rw [hkn.status np rfl] at hact
    simp [Place.targetStatus] at hact
  have hplace (q : Fin NPROC) (hq : q ≠ p) :
      ((s.goto np .user).goto p (.kallocRead np .kstack)).place q = s.place q ∨
        ((s.goto np .user).goto p (.kallocRead np .kstack)).place q = .user ∧ (s.place q).target = none := by
    by_cases hqnp : q = np
    · subst hqnp
      exact .inr ⟨by simp [hq], hidle⟩
    · exact .inl (by simp [hq, hqnp])
  refine h.move hcur hcur hplace (update_self _ _ _) ⟨h.list.linked, h.list.nodup, h.list.free⟩ ?_ (fun _ _ => .inl rfl)
    (fun q hq _ => ⟨rfl, fun _ _ => rfl⟩) (fun c _ hc => h.live c hc) (fun c q hc hq => ?_)
    ⟨hkn.status, hkn.parent, ?_, nofun, nofun, nofun⟩ (fun q c hq hc hqc => hq (h.busy q p c hqc (htarget.trans hc)))
    nofun ((h.cur p hcur).trans (by rw [hpl]; rfl))
  · refine h.ledger_of (fun q hq => (hplace q hq).imp id And.left) (update_self _ _ _) (fun _ _ _ => id) (fun _ _ => .inl)
      (fun c a hk => .inr ?_) nofun
    rw [hpl]
    exact ⟨hk.1, hk.2.2⟩
  · exact absurd (hq.symm.trans ((h.knows p).parent c hc)) (by simp [hpl, Place.adopted])
  · exact fun c a hc ha => hkn.filled c a hc ha.2

/-- `swtch(&p->context, &cpu->context)` in `sleep` and `exit`. -/
theorem OwnInv.leave (h : OwnInv own l s) (hcur : s.cur = some p) (hnone : (s.place p).target = none)
    (hk : k.target = none ∧ k.special = false ∧ k.status = .running) (hkeeps : ∀ c a, ¬ k.keeps c a)
    (hhand : k.hand = none) : OwnInv own l (s.swtch p k) := by
  obtain ⟨hplace, hkp⟩ := place_update (s := s) (t := s.swtch p k) rfl
  refine h.change (fun q hq => Option.some.inj (hq.symm.trans hcur)) (.inr ⟨rfl, hk.2.2⟩) (fun q hq => .inl (hplace q hq))
    hkp ⟨h.list.linked, h.list.nodup, h.list.free⟩ ?_ (fun _ _ => .inl rfl) (fun _ _ _ => ⟨rfl, fun _ _ => rfl⟩) (by simp [hnone])
    (by simp [hnone]) (.idle hk.1 hk.2.1) (by simp [hk.1]) (by simp [Place.linking_of_special hk.2.1]) nofun (by simp [hk.1])
  exact h.ledger_of (fun q hq => .inl (hplace q hq)) hkp (fun _ _ _ => id) (fun _ _ => .inl)
    (fun c a hc => absurd hc (hkeeps c a)) (by simp [hhand])

/-- The scheduler or the timer changes the status of `p` between ready and running. -/
theorem OwnInv.switch (h : OwnInv own l s) (hcur : ∀ q, s.cur = some q → q = p) {st : TaskStatus}
    (hrun : (s.slot p).status = .ready ∨ (s.slot p).status = .running) (hst : st = .ready ∨ st = .running)
    (hpl : (s.place p).status = .running) (hslot : t.slot = update s.slot p { s.slot p with status := st })
    (hplace : t.place = s.place) (hfree : t.freeMemList = s.freeMemList) (hnext : t.next = s.next)
    (hcur' : t.cur = some p ∧ st = .running ∨ t.cur = none) : OwnInv own l t := by
  have hself : t.slot p = { s.slot p with status := st } := by rw [hslot, update_self]
  have hne {c : Fin NPROC} (hc : c ≠ p) : t.slot c = s.slot c := by rw [hslot, update_of_ne hc]
  have htarget {c : Fin NPROC} (hc : (s.place p).target = some c) : t.slot c = s.slot c := hne (h.target_ne hc).symm
  have hb (c : Fin NPROC) : t.slot c = s.slot c ∨ Benign p c (s.slot c) (t.slot c) := by
    by_cases hc : c = p
    · subst hc
      rw [hself]
      exact .inr (.own rfl hrun (by rcases hst with rfl | rfl <;> simp [Live]) rfl rfl)
    · exact .inl (hne hc)
  have hparent (c : Fin NPROC) : (t.slot c).parent = (s.slot c).parent := by
    by_cases hc : c = p
    · rw [hc, hself]
    · rw [hne hc]
  refine h.change hcur (hcur'.imp And.left fun e => ⟨e, hpl⟩) (fun q _ => .inl (by rw [hplace])) (by rw [hplace])
    ⟨by rw [hnext, hfree]; exact h.list.linked, h.list.nodup, h.list.free⟩ ?_ (fun c _ => hb c)
    (fun q _ _ => ⟨hfree, fun _ _ => by rw [hnext]⟩) (fun c hc hl => ?_) (fun c q hc hq => ?_) ?_
    (fun q c hq hc hqc => hq (h.busy q p c hqc hc)) (fun hp q hq => ?_) (fun hc => ?_) fun _ => ?_
  · refine h.ledger_of (p := p) (fun q _ => .inl (by rw [hplace])) (congrFun hplace p) (fun c a pa hpa => ?_)
      (fun c a hl => .inl ?_) (fun _ _ => .inr) (fun _ => id)
    · rcases hb c with he | hb
      · rwa [he] at hpa
      · rwa [hb.page] at hpa
    · rcases hb c with he | hb
      · rwa [he] at hl
      · exact hb.live.1 hl
  · rw [htarget hc] at hl ⊢
    exact h.live c hl
  · rw [htarget hc] at hq ⊢
    rcases h.kin c q hq with hl | hqc
    · exact .inl hl
    · exact .inr ⟨h.busy q p c hqc hc, hc⟩
  · exact (h.knows p).frame (fun c hc => by simp [htarget hc]) (fun c hc => (hparent c).trans ((h.knows p).child c hc))
      fun _ => ⟨hfree, fun _ _ => by rw [hnext]⟩
  · by_contra hlq
    exact hq (h.window q p (by simpa using hlq) hp)
  · rcases hcur' with ⟨-, rfl⟩ | he
    · rw [hself, hpl]
    · simp [he] at hc
  · rwa [hself]

/-! ## The statements -/

theorem OwnInv.stmt (h : OwnInv own l s) (hok : Apart s .stmt) (hcur : s.cur = some p) :
    ∃ own' l', OwnInv own' l' (s.stmt p) := by
  have hstatus := h.cur p hcur
  have hkn := h.knows p
  cases hk : s.place p with
  | user => exact ⟨own, l, by simpa only [Table.stmt, hk] using h⟩
  | exitPanic => exact ⟨own, l, by simpa only [Table.stmt, hk] using h⟩
  | allocTest i =>
      refine ⟨own, l, ?_⟩
      simp only [Table.stmt, hk]
      split
      · rename_i hi
        split
        · rename_i hfree
          have hno := hok.claim rfl p ⟨i, hi⟩ hcur hk hfree
          have hpar : (s.slot ⟨i, hi⟩).parent = none := by
            by_contra hne
            obtain ⟨q, hq⟩ := Option.ne_none_iff_exists'.1 hne
            rcases h.kin _ q hq with hl | hq
            · exact hl.1 hfree
            · exact hno q hq
          refine h.plain hcur hk (.allocPid ⟨i, hi⟩) rfl rfl rfl rfl rfl rfl rfl ?_ (.inr ⟨rfl, ?_⟩) nofun nofun nofun
          · refine ⟨?_, ?_, nofun, nofun, nofun, nofun⟩
            · rintro _ ⟨⟩
              exact hfree
            · rintro _ ⟨⟩
              exact hpar
          · rintro q _ - ⟨⟩
            exact hno q
        · exact h.plain hcur hk (.allocTest (i + 1)) rfl rfl rfl rfl rfl rfl rfl (.idle rfl rfl) (.inl rfl) nofun nofun nofun
      · exact h.plain hcur hk .user rfl rfl rfl rfl rfl rfl rfl (.idle rfl rfl) (.inl rfl) nofun nofun nofun
  | allocPid np =>
      rw [hk] at hkn
      refine ⟨own, l, ?_⟩
      simp only [Table.stmt, hk]
      exact h.fill hcur hk rfl (.kallocRead np .trapframe) rfl rfl rfl rfl rfl rfl
        (.inl ⟨rfl, hkn.status np rfl, hkn.parent np rfl, fun a ha => absurd ha.1 (by simp)⟩) rfl (fun _ _ => id)
        (fun hl => absurd (hkn.status np rfl) hl.1) (fun c a hc => absurd hc.2.1 (by simp)) rfl
  | kallocRead np a =>
      rw [hk] at hkn
      refine ⟨own, l, ?_⟩
      simp only [Table.stmt, hk]
      have hknows : Knows s p (.kallocHead np a s.freeMemList) := by
        cases a <;> exact ⟨hkn.status, hkn.parent, hkn.filled, nofun, by rintro _ _ _ ⟨⟩; rfl, nofun⟩
      exact h.plain hcur hk (.kallocHead np a s.freeMemList) rfl rfl rfl rfl rfl rfl rfl hknows (.inl rfl)
        (fun _ _ hc => .inr hc) nofun fun _ q _ => hok.link rfl p hcur (by rw [hk]; rfl) q
  | kallocHead np a r =>
      cases r with
      | none =>
          rw [hk] at hkn
          refine ⟨own, l, ?_⟩
          simp only [Table.stmt, hk]
          have hknows : Knows s p (.kallocStore np a none) := by
            cases a <;> exact hkn.next rfl rfl rfl (fun _ ha => ha) rfl
          exact h.plain hcur hk (.kallocStore np a none) rfl rfl rfl rfl rfl rfl rfl hknows (.inl rfl)
            (fun _ _ hc => .inr hc) nofun nofun
      | some r =>
          simp only [Table.stmt, hk]
          exact h.take hcur hk
  | kallocZero np a r =>
      rw [hk] at hkn
      refine ⟨own, l, ?_⟩
      simp only [Table.stmt, hk]
      obtain ⟨hlinked, hnext⟩ := h.linked_update (p := p) (b := r) (o := .hand p)
        (show (s.place p).hand = _ by rw [hk]; rfl) (fun q hq e => hq (Owner.hand.inj e).symm) none
      have hknows : Knows s p (.kallocStore np a (some r)) := by
        cases a <;> exact hkn.next rfl rfl rfl (fun _ ha => ha) rfl
      exact h.write hcur hk (.kallocStore np a (some r)) rfl rfl rfl rfl hlinked hnext rfl rfl
        ⟨hknows.status, hknows.parent, hknows.filled, nofun, nofun, nofun⟩ (.inl rfl)
        (fun _ _ hc => .inr hc) (fun _ => id) nofun
  | kallocStore np a r =>
      simp only [Table.stmt, hk]
      cases a with
      | trapframe =>
          obtain ⟨own', h'⟩ := h.store hcur hk (.allocIf np) rfl
          exact ⟨own', l, h'⟩
      | kstack =>
          obtain ⟨own', h'⟩ := h.store hcur hk (.forkIf np) rfl
          exact ⟨own', l, h'⟩
  | allocIf np =>
      rw [hk] at hkn
      refine ⟨own, l, ?_⟩
      simp only [Table.stmt, hk]
      split
      · exact h.plain hcur hk (.allocFail np) rfl rfl rfl rfl rfl rfl rfl (hkn.next rfl rfl rfl (fun _ ha => ha) rfl)
          (.inl rfl) nofun nofun nofun
      · rename_i hsome
        refine h.plain hcur hk (.allocMark np) rfl rfl rfl rfl rfl rfl rfl ⟨hkn.status, hkn.parent, ?_, nofun, nofun, nofun⟩
          (.inl rfl) (fun _ _ hc => .inr hc) nofun nofun
        rintro _ _ ⟨⟩ rfl
        exact Option.isSome_iff_ne_none.2 hsome
  | allocFail np =>
      rw [hk] at hkn
      refine ⟨own, l, ?_⟩
      simp only [Table.stmt, hk]
      exact h.fill hcur hk rfl .user rfl rfl rfl rfl rfl rfl (.inr ⟨rfl, .inl (hkn.parent np rfl)⟩) rfl (fun _ _ => id)
        (fun hl => absurd rfl hl.1) nofun rfl
  | allocMark np =>
      rw [hk] at hkn
      refine ⟨own, l, ?_⟩
      simp only [Table.stmt, hk]
      exact h.fill hcur hk rfl (.allocParent np) rfl rfl rfl rfl rfl rfl
        (.inl ⟨rfl, rfl, hkn.parent np rfl, fun a => hkn.filled np a rfl⟩) rfl (fun _ _ => id)
        (fun hl => absurd rfl hl.2) (fun _ _ hc => .inr hc) rfl
  | allocParent np =>
      rw [hk] at hkn
      refine ⟨own, l, ?_⟩
      simp only [Table.stmt, hk]
      exact h.fill hcur hk rfl (.allocChan np) rfl rfl rfl rfl rfl rfl
        (.inl ⟨rfl, hkn.status np rfl, rfl, fun a => hkn.filled np a rfl⟩) rfl (fun _ _ => id)
        (fun hl => absurd (hkn.status np rfl) hl.2) (fun _ _ hc => .inr hc) rfl
  | allocChan np =>
      rw [hk] at hkn
      refine ⟨own, l, ?_⟩
      simp only [Table.stmt, hk]
      exact h.fill hcur hk rfl (.allocXstate np) rfl rfl rfl rfl rfl rfl
        (.inl ⟨rfl, hkn.status np rfl, hkn.parent np rfl, fun a => hkn.filled np a rfl⟩) rfl (fun _ _ => id)
        (fun hl => absurd (hkn.status np rfl) hl.2) (fun _ _ hc => .inr hc) rfl
  | allocXstate np =>
      rw [hk] at hkn
      refine ⟨own, l, ?_⟩
      simp only [Table.stmt, hk]
      exact h.fill hcur hk rfl (.allocContext np) rfl rfl rfl rfl rfl rfl
        (.inl ⟨rfl, hkn.status np rfl, hkn.parent np rfl, fun a => hkn.filled np a rfl⟩) rfl (fun _ _ => id)
        (fun hl => absurd (hkn.status np rfl) hl.2) (fun _ _ hc => .inr hc) rfl
  | allocContext np =>
      simp only [Table.stmt, hk]
      exact ⟨own, l, h.context hcur hk⟩
  | forkIf np =>
      rw [hk] at hkn
      refine ⟨own, l, ?_⟩
      simp only [Table.stmt, hk]
      split
      · exact h.plain hcur hk (.forkFail np) rfl rfl rfl rfl rfl rfl rfl (hkn.next rfl rfl rfl (fun _ ha => ha) rfl)
          (.inl rfl) nofun nofun nofun
      · rename_i hsome
        refine h.plain hcur hk (.forkCopy np) rfl rfl rfl rfl rfl rfl rfl ⟨hkn.status, hkn.parent, ?_, nofun, nofun, nofun⟩
          (.inl rfl) (fun _ _ hc => .inr hc) nofun nofun
        rintro _ a ⟨⟩ -
        cases a with
        | trapframe => exact hkn.filled np .trapframe rfl rfl
        | kstack => exact Option.isSome_iff_ne_none.2 hsome
  | forkFail np =>
      rw [hk] at hkn
      refine ⟨own, l, ?_⟩
      simp only [Table.stmt, hk]
      exact h.fill hcur hk rfl .user rfl rfl rfl rfl rfl rfl (.inr ⟨rfl, .inl (hkn.parent np rfl)⟩) rfl (fun _ _ => id)
        (fun hl => absurd rfl hl.1) nofun rfl
  | forkCopy np =>
      rw [hk] at hkn
      refine ⟨own, l, ?_⟩
      simp only [Table.stmt, hk]
      split
      · rename_i dst hdst
        obtain ⟨hlinked, hnext⟩ := h.linked_update (p := p) (b := dst) (o := .slot np .trapframe)
          ⟨hdst, .inr ⟨p, by rw [hk]; exact rfl⟩⟩ (fun _ _ => nofun) (s.nextOf ((s.slot p).page .trapframe))
        exact h.write hcur hk (.forkParent np) rfl rfl rfl rfl hlinked hnext rfl rfl
          ⟨hkn.status, hkn.parent, hkn.filled, nofun, nofun, nofun⟩ (.inl rfl) (fun _ _ hc => .inr hc) nofun nofun
      · exact h.plain hcur hk (.forkParent np) rfl rfl rfl rfl rfl rfl rfl
          (hkn.next rfl rfl rfl (fun _ ha => ha) rfl) (.inl rfl) (fun _ _ hc => .inr hc) nofun nofun
  | forkParent np =>
      rw [hk] at hkn
      refine ⟨own, l, ?_⟩
      simp only [Table.stmt, hk]
      exact h.fill hcur hk rfl (.forkReady np) rfl rfl rfl rfl rfl rfl
        (.inl ⟨rfl, hkn.status np rfl, rfl, fun a => hkn.filled np a rfl⟩) rfl (fun _ _ => id)
        (fun hl => absurd (hkn.status np rfl) hl.2) (fun _ _ hc => .inr hc) rfl
  | forkReady np =>
      rw [hk] at hkn
      refine ⟨own, l, ?_⟩
      simp only [Table.stmt, hk]
      exact h.fill hcur hk rfl (.forkReturn np) rfl rfl rfl rfl rfl rfl (.inr ⟨rfl, .inr Live.ready⟩) rfl (fun _ _ => id)
        (fun _ a => ⟨.inr rfl, hkn.filled np a rfl trivial⟩) nofun rfl
  | forkReturn np =>
      refine ⟨own, l, ?_⟩
      simp only [Table.stmt, hk]
      exact h.plain hcur hk .user rfl rfl rfl rfl rfl rfl rfl (.idle rfl rfl) (.inl rfl) nofun nofun nofun
  | exitXstate st =>
      rw [hk] at hstatus
      refine ⟨own, l, ?_⟩
      simp only [Table.stmt, hk]
      exact h.benign hcur hk rfl (.exitReparent 0) rfl rfl rfl rfl rfl
        (.own rfl (.inr hstatus) (hstatus ▸ Live.running) rfl rfl) rfl rfl nofun rfl (by simp [hstatus, Place.status])
  | exitReparent i =>
      rw [hk] at hstatus
      refine ⟨own, l, ?_⟩
      simp only [Table.stmt, hk]
      split
      · rename_i hi
        split
        · rename_i hpar
          refine h.benign hcur hk rfl (.exitReparent (i + 1)) rfl rfl rfl rfl rfl (.reparent rfl rfl hpar rfl) rfl rfl nofun
            rfl ?_
          by_cases hpi : p = ⟨i, hi⟩
          · subst hpi
            simpa [Place.status] using hstatus
          · simpa [hpi, Place.status] using hstatus
        · exact h.plain hcur hk (.exitReparent (i + 1)) rfl rfl rfl rfl rfl rfl rfl (.idle rfl rfl) (.inl rfl) nofun nofun
            nofun
      · exact h.plain hcur hk .exitWakeup rfl rfl rfl rfl rfl rfl rfl (.idle rfl rfl) (.inl rfl) nofun nofun nofun
  | exitWakeup =>
      refine ⟨own, l, ?_⟩
      simp only [Table.stmt, hk]
      exact h.plain hcur hk (.wakeTest _ 0) rfl rfl rfl rfl rfl rfl rfl (.idle rfl rfl) (.inl rfl) nofun nofun nofun
  | wakeTest chan i =>
      rw [hk] at hstatus
      refine ⟨own, l, ?_⟩
      simp only [Table.stmt, hk]
      split
      · rename_i hi
        split
        · rename_i hwake
          refine h.benign hcur hk rfl (.wakeTest chan (i + 1)) rfl rfl rfl rfl rfl (.wake hwake.2.1 rfl rfl rfl) rfl rfl nofun
            rfl ?_
          have hpi : p ≠ ⟨i, hi⟩ := hwake.1.symm
          simpa [hpi, Place.status] using hstatus
        · exact h.plain hcur hk (.wakeTest chan (i + 1)) rfl rfl rfl rfl rfl rfl rfl (.idle rfl rfl) (.inl rfl) nofun nofun
            nofun
      · exact h.plain hcur hk .exitZombie rfl rfl rfl rfl rfl rfl rfl (.idle rfl rfl) (.inl rfl) nofun nofun nofun
  | exitZombie =>
      rw [hk] at hstatus
      refine ⟨own, l, ?_⟩
      simp only [Table.stmt, hk]
      exact h.benign hcur hk rfl .exitSwtch rfl rfl rfl rfl rfl (.own rfl (.inr hstatus) ⟨by simp, by simp⟩ rfl rfl) rfl rfl
        nofun rfl (by simp [Place.status])
  | exitSwtch =>
      refine ⟨own, l, ?_⟩
      simp only [Table.stmt, hk]
      exact h.leave hcur (k := .exitPanic) (by rw [hk]; rfl) ⟨rfl, rfl, rfl⟩ nofun rfl
  | waitStart =>
      refine ⟨own, l, ?_⟩
      simp only [Table.stmt, hk]
      exact h.plain hcur hk (.waitParent 0 false) rfl rfl rfl rfl rfl rfl rfl (.idle rfl rfl) (.inl rfl) nofun nofun nofun
  | waitParent i havekids =>
      refine ⟨own, l, ?_⟩
      simp only [Table.stmt, hk]
      split
      · rename_i hi
        split
        · rename_i hpar
          refine h.plain hcur hk (.waitStatus ⟨i, hi⟩) rfl rfl rfl rfl rfl rfl rfl ⟨nofun, nofun, nofun, ?_, nofun, nofun⟩
            (.inl rfl) nofun nofun nofun
          rintro _ ⟨⟩
          exact hpar
        · exact h.plain hcur hk (.waitParent (i + 1) havekids) rfl rfl rfl rfl rfl rfl rfl (.idle rfl rfl) (.inl rfl) nofun
            nofun nofun
      · exact h.plain hcur hk (.waitKids havekids) rfl rfl rfl rfl rfl rfl rfl (.idle rfl rfl) (.inl rfl) nofun nofun nofun
  | waitStatus child =>
      rw [hk] at hkn
      refine ⟨own, l, ?_⟩
      simp only [Table.stmt, hk]
      split
      · rename_i hzombie
        have hpar := hkn.child child rfl
        refine h.plain hcur hk (.waitPid child) rfl rfl rfl rfl rfl rfl rfl ⟨?_, ?_, nofun, nofun, nofun, nofun⟩
          (.inr ⟨rfl, ?_⟩) nofun nofun nofun
        · rintro _ ⟨⟩
          exact hzombie
        · rintro _ ⟨⟩
          exact hpar
        · -- another process that works on a zombie is its parent
          rintro q _ hq ⟨⟩ hqc
          have hqpar := (h.knows q).parent child hqc
          rw [hpar] at hqpar
          split at hqpar
          · exact hq (Option.some.inj hqpar).symm
          · simp at hqpar
      · exact h.plain hcur hk (.waitParent (child + 1) true) rfl rfl rfl rfl rfl rfl rfl (.idle rfl rfl) (.inl rfl) nofun
          nofun nofun
  | waitPid child =>
      rw [hk] at hkn
      refine ⟨own, l, ?_⟩
      simp only [Table.stmt, hk]
      exact h.plain hcur hk (.waitXstate child) rfl rfl rfl rfl rfl rfl rfl (hkn.next rfl rfl rfl (fun _ ha => ha) rfl)
        (.inl rfl) nofun nofun nofun
  | waitXstate child =>
      rw [hk] at hkn
      refine ⟨own, l, ?_⟩
      simp only [Table.stmt, hk]
      exact h.plain hcur hk (.waitFree child) rfl rfl rfl rfl rfl rfl rfl (hkn.next rfl rfl rfl (fun _ ha => ha) rfl)
        (.inl rfl) nofun nofun nofun
  | waitFree child =>
      rw [hk] at hkn
      refine ⟨own, l, ?_⟩
      simp only [Table.stmt, hk]
      refine h.fill hcur hk rfl (.waitClearPid child) rfl rfl rfl rfl rfl rfl
        (.inl ⟨rfl, rfl, hkn.parent child rfl, nofun⟩) rfl (fun _ _ => id) (fun hl => absurd rfl hl.1) ?_ rfl
      rintro _ _ rfl
      exact .inl (by simp [hkn.status _ rfl, Place.targetStatus, Live])
  | waitClearPid child =>
      rw [hk] at hkn
      refine ⟨own, l, ?_⟩
      simp only [Table.stmt, hk]
      exact h.fill hcur hk rfl (.waitClearParent child) rfl rfl rfl rfl rfl rfl
        (.inl ⟨rfl, hkn.status child rfl, hkn.parent child rfl, nofun⟩) rfl (fun _ _ => id)
        (fun hl => absurd (hkn.status child rfl) hl.1) (fun _ _ hc => .inr hc) rfl
  | waitClearParent child =>
      rw [hk] at hkn
      refine ⟨own, l, ?_⟩
      simp only [Table.stmt, hk]
      exact h.fill hcur hk rfl (.waitIf child .trapframe) rfl rfl rfl rfl rfl rfl
        (.inl ⟨rfl, hkn.status child rfl, rfl, nofun⟩) rfl (fun _ _ => id)
        (fun hl => absurd (hkn.status child rfl) hl.1) (fun _ _ hc => .inr hc.1) rfl
  | waitIf child a =>
      rw [hk] at hkn
      simp only [Table.stmt, hk]
      split
      · rename_i pa hpa
        obtain ⟨own', h'⟩ := h.drop hcur hk hpa
        exact ⟨own', l, h'⟩
      · exact ⟨own, l, h.plain hcur hk (.waitIf child .kstack) rfl rfl rfl rfl rfl rfl rfl
          (hkn.next rfl rfl rfl (fun _ ha => ha) rfl) (.inl rfl) (fun _ _ hc => .inr ⟨hc.1, nofun⟩) nofun nofun⟩
      · exact ⟨own, l, h.plain hcur hk .user rfl rfl rfl rfl rfl rfl rfl (.idle rfl rfl) (.inr ⟨rfl, nofun⟩) nofun nofun nofun⟩
  | kfreeNext child a pa =>
      rw [hk] at hkn
      refine ⟨own, l, ?_⟩
      simp only [Table.stmt, hk]
      obtain ⟨hlinked, hnext⟩ := h.linked_update (p := p) (b := pa) (o := .hand p)
        (show (s.place p).hand = _ by rw [hk]; rfl) (fun q hq e => hq (Owner.hand.inj e).symm) s.freeMemList
      refine h.write hcur hk (.kfreeHead child a pa) rfl rfl rfl rfl hlinked hnext rfl rfl
        ⟨hkn.status, hkn.parent, hkn.filled, nofun, nofun, ?_⟩ (.inl rfl) (fun _ _ hc => .inr hc) (fun _ => id)
        fun _ q _ => hok.link rfl p hcur (by rw [hk]; rfl) q
      rintro _ _ _ ⟨⟩
      exact update_self _ _ _
  | kfreeHead child a pa =>
      simp only [Table.stmt, hk]
      exact h.give hcur hk
  | waitClear child a =>
      rw [hk] at hkn
      refine ⟨own, l, ?_⟩
      have hpage (b : Area) (pa : Page) (hb : update (s.slot child).page a none b = some pa) :
          (s.slot child).page b = some pa := by
        by_cases hba : b = a
        · subst hba
          simp at hb
        · rwa [update_of_ne hba] at hb
      simp only [Table.stmt, hk]
      cases a with
      | trapframe =>
          exact h.fill hcur hk rfl (.waitIf child .kstack) rfl rfl rfl rfl rfl rfl
            (.inl ⟨rfl, hkn.status child rfl, hkn.parent child rfl, nofun⟩) rfl hpage
            (fun hl => absurd (hkn.status child rfl) hl.1) (fun _ _ hc => .inr ⟨hc.1, rfl, hc.2 rfl⟩) rfl
      | kstack =>
          exact h.fill hcur hk rfl .user rfl rfl rfl rfl rfl rfl (.inr ⟨rfl, .inl (hkn.parent child rfl)⟩) rfl hpage
            (fun hl => absurd (hkn.status child rfl) hl.1) nofun rfl
  | waitKids havekids =>
      refine ⟨own, l, ?_⟩
      simp only [Table.stmt, hk]
      split
      · exact h.plain hcur hk .sleepChan rfl rfl rfl rfl rfl rfl rfl (.idle rfl rfl) (.inl rfl) nofun nofun nofun
      · exact h.plain hcur hk .user rfl rfl rfl rfl rfl rfl rfl (.idle rfl rfl) (.inl rfl) nofun nofun nofun
  | sleepChan =>
      rw [hk] at hstatus
      refine ⟨own, l, ?_⟩
      simp only [Table.stmt, hk]
      exact h.benign hcur hk rfl .sleepStatus rfl rfl rfl rfl rfl
        (.own rfl (.inr hstatus) (hstatus ▸ Live.running) rfl rfl) rfl rfl nofun rfl (by simp [hstatus, Place.status])
  | sleepStatus =>
      rw [hk] at hstatus
      refine ⟨own, l, ?_⟩
      simp only [Table.stmt, hk]
      exact h.benign hcur hk rfl .sleepSwtch rfl rfl rfl rfl rfl (.own rfl (.inr hstatus) ⟨by simp, by simp⟩ rfl rfl) rfl rfl
        nofun rfl (by simp [Place.status])
  | sleepSwtch =>
      refine ⟨own, l, ?_⟩
      simp only [Table.stmt, hk]
      exact h.leave hcur (k := .sleepEnd) (by rw [hk]; rfl) ⟨rfl, rfl, rfl⟩ nofun rfl
  | sleepEnd =>
      rw [hk] at hstatus
      refine ⟨own, l, ?_⟩
      simp only [Table.stmt, hk]
      exact h.benign hcur hk rfl .waitStart rfl rfl rfl rfl rfl
        (.own rfl (.inr hstatus) (hstatus ▸ Live.running) rfl rfl) rfl rfl nofun rfl (by simp [hstatus, Place.status])

theorem OwnInv.step (h : OwnInv own l s) (hst : s.Step Apart t) : ∃ own' l', OwnInv own' l' t := by
  obtain ⟨a, hok, ha⟩ := hst
  cases a with
  | dispatch p =>
      obtain ⟨hcur, hready, rfl⟩ := Table.dispatch_of_act ha
      have hpl : (s.place p).status = .running := by
        by_contra hne
        exact absurd ((h.held p hne).symm.trans hcur) (by simp)
      exact ⟨own, l, h.switch (p := p) (fun q hq => absurd (hq.symm.trans hcur) (by simp)) (.inl hready) (.inr rfl) hpl rfl rfl rfl
        rfl (.inl ⟨rfl, rfl⟩)⟩
  | tick =>
      obtain ⟨p, hcur, hrun, rfl⟩ := Table.tick_of_act ha
      exact ⟨own, l, h.switch (fun q hq => Option.some.inj (hq.symm.trans hcur)) (.inr hrun) (.inl rfl)
        ((h.cur p hcur).symm.trans hrun) rfl rfl rfl rfl (.inr rfl)⟩
  | call c =>
      obtain ⟨p, hcur, huser, rfl⟩ := Table.call_of_act ha
      refine ⟨own, l, ?_⟩
      cases c with
      | fork =>
          exact h.plain hcur huser (.allocTest 0) rfl rfl rfl rfl rfl rfl rfl (.idle rfl rfl) (.inl rfl) nofun nofun nofun
      | exit status =>
          exact h.plain hcur huser (.exitXstate status) rfl rfl rfl rfl rfl rfl rfl (.idle rfl rfl) (.inl rfl) nofun nofun nofun
      | wait =>
          exact h.plain hcur huser .waitStart rfl rfl rfl rfl rfl rfl rfl (.idle rfl rfl) (.inl rfl) nofun nofun nofun
  | stmt =>
      obtain ⟨p, hcur, -, -, rfl⟩ := Table.stmt_of_act ha
      exact h.stmt hok hcur

end

/-! ## Runs -/

end RiscvOsLab.Proc
