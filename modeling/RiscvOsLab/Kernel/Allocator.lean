import RiscvOsLab.Kernel.Kalloc
import RiscvOsLab.Lib.Pool
import RiscvOsLab.Lib.Trans

/-!
# The page allocator and its clients

After `kinit` the clients take and return pages, one call at a time, and write to the pages they hold.

* `Represents P c` : the pool `P` is what `c` is about, the free list being the free pages of `P`;
* `ClientStep.refines` : a call is a step of the pool;
* `allocator_reach` : the contract in every state of every run.
-/

namespace RiscvOsLab.Kernel

open Prog Function

/-- Memory, and the pages that the clients hold. -/
structure Memory where
  phys : Phys
  held : Finset Nat

/-- A client calls `kalloc`, or `kfree` with a page it holds, or writes to pages it holds. -/
inductive ClientStep : Memory → Memory → Prop
  | kalloc {c : Memory} {r : Nat} {t : Phys} : kalloc.run c.phys = .ok (r, t) →
      ClientStep c ⟨t, if r = 0 then c.held else insert r c.held⟩
  | kfree {c : Memory} {pa : Nat} {t : Phys} : pa ∈ c.held → (kfree pa).run c.phys = .ok ((), t) →
      ClientStep c ⟨t, c.held.erase pa⟩
  | write {c : Memory} {mem : Nat → UInt64} : (∀ a, (∀ pa ∈ c.held, ¬ OnPage pa a) → mem a = c.phys.mem a) →
      ClientStep c ⟨{ c.phys with mem }, c.held⟩

/-- `kinit` has run over memory of any contents, and nobody holds a page. -/
def Initialized (endAddress : Nat) (c : Memory) : Prop :=
  (∃ s : Phys, s.endAddress = endAddress ∧ s.freeMemList = 0 ∧ kinit.run s = .ok ((), c.phys)) ∧ c.held = ∅

/-- A page-aligned frame that lies wholly in `[end_address, PHYSTOP)`. -/
structure Frame (endAddress pa : Nat) : Prop where
  aligned : pa % PGSIZE = 0
  lower : endAddress ≤ pa
  upper : pa + PGSIZE ≤ PHYSTOP

/-- The free list is a finite list without repetitions, and the frames that count are free or held, and not both. -/
def Partitions (counts : Nat → Prop) (c : Memory) : Prop :=
  ∃ l, Linked (fun a => pointer (c.phys.mem a).toNat) (pointer c.phys.freeMemList) l ∧ l.Nodup ∧
    (∀ a, counts a ↔ a ∈ l ∨ a ∈ c.held) ∧ ∀ a ∈ l, a ∉ c.held

/-- What the clients rely on. -/
structure Contract (endAddress : Nat) (c : Memory) : Prop where
  partitions : Partitions (fun a => Frame endAddress a ∧ a ≠ 0) c
  kalloc : ∃ r t, kalloc.run c.phys = .ok (r, t) ∧
    (r = 0 ∧ (∀ a, Frame endAddress a → a ≠ 0 → a ∈ c.held) ∨
      r ≠ 0 ∧ r ∉ c.held ∧ Frame endAddress r ∧ ∀ a, OnPage r a → t.mem a = 0)
  kfree : ∀ pa ∈ c.held, ∃ t, (kfree pa).run c.phys = .ok ((), t)

/-- Memory is about a pool of the frames. -/
structure Represents (endAddress : Nat) (P : Pool Nat) (l : List Nat) (c : Memory) : Prop where
  free : FreeList c.phys l
  list : l.toFinset = P.free
  held : c.held = P.held
  units : ∀ a, a ∈ P.units ↔ Frame endAddress a ∧ a ≠ 0
  endAddress : c.phys.endAddress = endAddress

theorem mem_initialPages {endAddress a : Nat} :
    a ∈ initialPages endAddress (npages endAddress) ↔ Frame endAddress a ∧ a ≠ 0 := by
  rw [initialPages, List.mem_filter, mem_pagesFrom_iff, decide_eq_true_iff]
  refine and_congr_left fun _ => ⟨?_, fun h => ?_⟩
  · rintro ⟨i, hi, rfl⟩
    have hlow := le_pgroundup endAddress
    have hal := pgroundup_aligned endAddress
    refine ⟨?_, by omega, ?_⟩
    · rw [Nat.add_mul_mod_self_right]
      exact hal
    · have hle := Nat.div_mul_le_self (PHYSTOP - pgroundup endAddress) PGSIZE
      have hmul := Nat.mul_le_mul_right PGSIZE (Nat.succ_le_of_lt hi)
      have hpos : 0 < (i + 1) * PGSIZE := Nat.mul_pos (Nat.succ_pos i) (by decide)
      rw [Nat.succ_mul] at hmul hpos
      unfold npages at hmul
      omega
  · obtain ⟨hal, hlo, hhi⟩ := h
    have hstop : PHYSTOP / PGSIZE * PGSIZE = PHYSTOP := by
      rw [phystop_eq]
      rfl
    refine ⟨(a - pgroundup endAddress) / PGSIZE, ?_, ?_⟩
    · simp only [npages, pgroundup, PGSIZE] at *
      omega
    · simp only [pgroundup, PGSIZE] at *
      omega

variable {endAddress : Nat} {P : Pool Nat} {l : List Nat} {c d : Memory}

namespace Represents

theorem page (h : Represents endAddress P l c) {a : Nat} (ha : a ∈ P.units) : IsPage c.phys.endAddress a := by
  obtain ⟨⟨hal, hlo, hhi⟩, hne⟩ := (h.units a).1 ha
  refine ⟨hal, h.endAddress.symm ▸ hlo, Nat.lt_of_lt_of_le ?_ hhi, Nat.pos_of_ne_zero hne⟩
  exact Nat.lt_add_of_pos_right (by decide)

theorem mem_list (h : Represents endAddress P l c) {a : Nat} : a ∈ l ↔ a ∈ P.free := by
  rw [← h.list, List.mem_toFinset]

theorem notMem_held (h : Represents endAddress P l c) {a : Nat} (ha : a ∈ l) : a ∉ c.held :=
  h.held.symm ▸ P.disjoint a (h.mem_list.1 ha)

/-- After `kinit` every frame is free. -/
theorem start (h : Initialized endAddress c) :
    Represents endAddress (.full (initialPages endAddress (npages endAddress)).toFinset)
      (initialPages endAddress (npages endAddress)) c := by
  obtain ⟨⟨s, rfl, hnull, hrun⟩, hheld⟩ := h
  obtain ⟨hfree, hend⟩ := wp_ok (E := fun _ => False) (wp_kinit_frames hnull) hrun
  refine ⟨hfree, rfl, hheld, fun a => ?_, hend⟩
  rw [Pool.units_full, List.mem_toFinset, mem_initialPages]

/-- Clients cannot reach the links. -/
theorem write (h : Represents endAddress P l c) {mem : Nat → UInt64}
    (hmem : ∀ a, (∀ pa ∈ c.held, ¬ OnPage pa a) → mem a = c.phys.mem a) :
    Represents endAddress P l ⟨{ c.phys with mem }, c.held⟩ := by
  refine ⟨h.free.congr (fun a ha => hmem a fun pa hpa hon => ?_) rfl rfl, h.list, h.held, h.units, h.endAddress⟩
  have hpage := h.page (Finset.mem_union_right _ (h.held ▸ hpa))
  have heq : pa = a := hon.eq hpage.aligned (h.free.page a ha).aligned (onPage_self a)
  exact h.notMem_held ha (heq ▸ hpa)

/-- `kalloc` takes a unit, zeroed, unless none is free. -/
theorem kalloc (h : Represents endAddress P l c) : ∃ r t, kalloc.run c.phys = .ok (r, t) ∧
    (r = 0 ∧ t = c.phys ∧ P.free = ∅ ∨
      r ≠ 0 ∧ r ∈ P.free ∧ (∀ a, OnPage r a → t.mem a = 0) ∧
        ∃ m, Represents endAddress (P.take r) m ⟨t, insert r c.held⟩) := by
  obtain ⟨r, t, hrun, htaken⟩ := wp_total (wp_kalloc h.free)
  refine ⟨r, t, hrun, ?_⟩
  cases htaken with
  | none => exact .inl ⟨rfl, rfl, h.list.symm⟩
  | @page t a m hfree hnew hpage hmem hend =>
      have ha : r ∈ P.free := h.mem_list.1 List.mem_cons_self
      refine .inr ⟨Nat.pos_iff_ne_zero.1 hpage.pos, ha, fun b hb => hmem ▸ zeroPage_on hb, m, hfree, ?_, ?_,
        fun b => ?_, hend.trans h.endAddress⟩
      · show m.toFinset = P.free.erase r
        rw [← h.list, List.toFinset_cons, Finset.erase_insert (fun hin => hnew (List.mem_toFinset.1 hin))]
      · show insert r c.held = insert r P.held
        rw [h.held]
      · rw [Pool.units_take ha]
        exact h.units b

/-- `kfree` gives a unit back. -/
theorem kfree (h : Represents endAddress P l c) {pa : Nat} (hpa : pa ∈ c.held) :
    ∃ t, (kfree pa).run c.phys = .ok ((), t) ∧ Represents endAddress (P.give pa) (pa :: l) ⟨t, c.held.erase pa⟩ := by
  have hheld : pa ∈ P.held := h.held ▸ hpa
  have hnew : pa ∉ l := fun hin => h.notMem_held hin hpa
  obtain ⟨_, t, hrun, ht⟩ := wp_total (wp_kfree h.free (h.page (Finset.mem_union_right _ hheld)) hnew)
  refine ⟨t, hrun, ht.free, ?_, ?_, fun b => ?_, ht.endAddress.trans h.endAddress⟩
  · show (pa :: l).toFinset = insert pa P.free
    rw [List.toFinset_cons, h.list]
  · show c.held.erase pa = P.held.erase pa
    rw [h.held]
  · rw [Pool.units_give hheld]
    exact h.units b

theorem partitions (h : Represents endAddress P l c) : Partitions (fun a => Frame endAddress a ∧ a ≠ 0) c := by
  refine ⟨l, h.free.linked, h.free.nodup, fun a => ?_, fun a => h.notMem_held⟩
  show Frame endAddress a ∧ a ≠ 0 ↔ _
  rw [← h.units a, Pool.units, Finset.mem_union, h.mem_list, h.held]

theorem contract (h : Represents endAddress P l c) : Contract endAddress c := by
  refine ⟨h.partitions, ?_, fun pa hpa => ?_⟩
  · obtain ⟨r, t, hrun, ⟨hr, -, hempty⟩ | ⟨hr, hfree, hzero, -⟩⟩ := h.kalloc
    · refine ⟨r, t, hrun, .inl ⟨hr, fun a ha hne => ?_⟩⟩
      have hunit := (h.units a).2 ⟨ha, hne⟩
      rw [Pool.units, hempty, Finset.empty_union] at hunit
      exact h.held ▸ hunit
    · refine ⟨r, t, hrun, .inr ⟨hr, ?_, ((h.units r).1 (Finset.mem_union_left _ hfree)).1, hzero⟩⟩
      exact h.notMem_held (h.mem_list.2 hfree)
  · obtain ⟨t, hrun, -⟩ := h.kfree hpa
    exact ⟨t, hrun⟩

end Represents

/-- A call is a step of the pool, a write none. -/
theorem ClientStep.refines (hst : ClientStep c d) (h : Represents endAddress P l c) :
    ∃ Q m, (P.Step Q ∨ Q = P) ∧ Represents endAddress Q m d := by
  cases hst with
  | kalloc hrun =>
      obtain ⟨r, t, hrun', ⟨rfl, rfl, hempty⟩ | ⟨hr, hfree, -, m, hm⟩⟩ := h.kalloc
      · obtain ⟨rfl, rfl⟩ := Prod.mk.inj (Except.ok.inj (hrun.symm.trans hrun'))
        exact ⟨P, l, .inl (.none hempty), h⟩
      · obtain ⟨rfl, rfl⟩ := Prod.mk.inj (Except.ok.inj (hrun.symm.trans hrun'))
        refine ⟨P.take _, m, .inl (.take hfree), ?_⟩
        rw [if_neg hr]
        exact hm
  | @kfree pa _ hpa hrun =>
      obtain ⟨t, hrun', ht⟩ := h.kfree hpa
      obtain ⟨-, rfl⟩ := Prod.mk.inj (Except.ok.inj (hrun.symm.trans hrun'))
      exact ⟨P.give pa, pa :: l, .inl (.give (h.held ▸ hpa)), ht⟩
  | write hmem => exact ⟨P, l, .inr rfl, h.write hmem⟩

theorem pointer_ne {a b : Nat} (h : pointer a = some b) : b ≠ 0 := by
  unfold pointer at h
  split at h
  · exact absurd h (by simp)
  · rename_i hne
    exact Option.some.inj h ▸ hne

/-- The cells of a list are not null. -/
theorem pointer_notMem {mem : Nat → UInt64} : ∀ {head : Nat} {l : List Nat},
    Linked (fun a => pointer (mem a).toNat) (pointer head) l → 0 ∉ l
  | _, [], _ => List.not_mem_nil
  | _, a :: l, h => by
      intro hin
      rcases List.mem_cons.1 hin with rfl | hin
      · exact pointer_ne h.1 rfl
      · exact pointer_notMem h.2 hin

/-- **`kinit` succeeds, and the contract holds in every state that the clients reach.** -/
theorem allocator_reach (endAddress : Nat) :
    (∀ s : Phys, s.endAddress = endAddress → s.freeMemList = 0 → ∃ t, kinit.run s = .ok ((), t)) ∧
    ∀ c, Reach (Initialized endAddress) ClientStep c → Contract endAddress c := by
  refine ⟨fun s _ hnull => ?_, fun c hc => ?_⟩
  · obtain ⟨_, t, hrun, -⟩ := wp_total (wp_kinit_frames hnull)
    exact ⟨t, hrun⟩
  · obtain ⟨P, l, h⟩ := hc.invariant (fun c => ∃ P l, Represents endAddress P l c) (fun c hc => ⟨_, _, .start hc⟩)
      fun c d ⟨P, l, h⟩ hst => by
        obtain ⟨Q, m, -, hQ⟩ := hst.refines h
        exact ⟨Q, m, hQ⟩
    exact h.contract

theorem initialized_of_run {s t : Phys} (hend : s.endAddress = endAddress) (hnull : s.freeMemList = 0)
    (hrun : kinit.run s = .ok ((), t)) : Initialized endAddress ⟨t, ∅⟩ := ⟨⟨s, hend, hnull, hrun⟩, rfl⟩

theorem clientStep_first {s t : Phys} {r : Nat} (hrun : kalloc.run s = .ok (r, t)) (hne : r ≠ 0) :
    ClientStep ⟨s, ∅⟩ ⟨t, {r}⟩ := by
  have hstep := ClientStep.kalloc (c := ⟨s, ∅⟩) hrun
  rw [if_neg hne, insert_empty_eq] at hstep
  exact hstep

/-- Memory with room for one frame. -/
def oneFrame : Phys := ⟨PHYSTOP - PGSIZE, 0, fun _ => 1⟩

theorem allocator_oneFrame : ∃ r, kalloc.run (kinit.exec oneFrame) = .ok (r, kalloc.exec (kinit.exec oneFrame)) ∧
    r ≠ 0 ∧ Contract (PHYSTOP - PGSIZE) ⟨kalloc.exec (kinit.exec oneFrame), {r}⟩ := by
  have hinit : kinit.run oneFrame = .ok ((), kinit.exec oneFrame) := run_exec_eq (by decide +kernel)
  have htake : kalloc.run (kinit.exec oneFrame) = .ok (PHYSTOP - PGSIZE, kalloc.exec (kinit.exec oneFrame)) :=
    run_exec_eq (by decide +kernel)
  have hend : oneFrame.endAddress = PHYSTOP - PGSIZE := by simp only [oneFrame]
  have hnull : oneFrame.freeMemList = 0 := by simp only [oneFrame]
  have hstart := initialized_of_run hend hnull hinit
  have hne : PHYSTOP - PGSIZE ≠ 0 := by decide
  generalize PHYSTOP - PGSIZE = r at htake hne hstart ⊢
  exact ⟨r, htake, hne, (allocator_reach r).2 _ (.next (.start hstart) (clientStep_first htake hne))⟩

/-- A null frame is never on the list. -/
theorem allocator_fails : ¬ ∀ endAddress < PHYSTOP, ∀ c, Reach (Initialized endAddress) ClientStep c →
    Partitions (Frame endAddress) c := by
  intro hall
  obtain ⟨_, t, hrun, -⟩ := wp_total (s := ⟨0, 0, fun _ => 0⟩) (wp_kinit_frames rfl)
  obtain ⟨l, hlinked, -, hcounts, -⟩ := hall 0 (by decide) ⟨t, ∅⟩ (.start (initialized_of_run rfl rfl hrun))
  have hnull : Frame 0 0 := ⟨rfl, Nat.le_refl 0, by decide⟩
  rcases (hcounts 0).1 hnull with hin | hheld
  · exact pointer_notMem hlinked hin
  · exact absurd hheld (Finset.notMem_empty 0)

end RiscvOsLab.Kernel
