import RiscvOsLab.Kernel.Exhaustion
import RiscvOsLab.Kernel.Isolation

/-!
# How many pages there are

A page is free, or a slot that is in use has it, or the kernel keeps it for good, or a `fork` has lost it.

* `Leaks s t` : a `fork` that takes the last page for a trapframe, and loses it;
* `balance_step` : what a step does to the number of free pages and of slots in use;
* `pages_conserved` : the balance of every run.
-/

namespace RiscvOsLab.Kernel

open Prog Function

/-- How many slots are in use. -/
def slots (s : Machine) : Nat := (Finset.univ.filter fun q => (s.proc q).status ≠ .free).card

/-- A `fork` that fails with one page left. -/
def Leaks (s t : Machine) : Prop := FailedFork s t ∧ LastPage s

section
variable {s t : Machine} {l m : List Nat} {c p : Fin NPROC} {R : Nat → Prop}

theorem slots_congr (h : ∀ q, (t.proc q).status = .free ↔ (s.proc q).status = .free) : slots t = slots s := by
  unfold slots
  congr 1
  ext q
  simp only [Finset.mem_filter, ne_eq, h]

/-- A free slot is put to use. -/
theorem slots_take (hc : (s.proc c).status = .free) (hc' : (t.proc c).status ≠ .free)
    (h : ∀ q, q ≠ c → (t.proc q).status = (s.proc q).status) : slots t = slots s + 1 := by
  have hset : (Finset.univ.filter fun q => (t.proc q).status ≠ .free) =
      insert c (Finset.univ.filter fun q => (s.proc q).status ≠ .free) := by
    ext q
    by_cases hq : q = c
    · rw [hq]
      simp [hc']
    · simp [hq, h q hq]
  unfold slots
  rw [hset]
  apply Finset.card_insert_of_notMem
  simp [hc]

theorem Leaks.free (h : Leaks s t) (hl : FreeList s.phys l) (hm : FreeList t.phys m) : l.length = 1 ∧ m = [] := by
  obtain ⟨hfailed, hslot, a, ha⟩ := h
  obtain rfl := hl.unique ha
  refine ⟨rfl, ?_⟩
  cases hfailed.exits ha with
  | full hc => exact absurd hc hslot
  | noStack _ hfree => exact hm.unique hfree

/-- A `fork` that succeeds takes two pages. -/
theorem wp_fork_takes {E : Halt → Prop} (h : FreeList s.phys l) :
    (fork p).wp (fun r t => r ≠ none → ∃ m, FreeList t.phys m ∧ l.length = m.length + 2) E s := by
  unfold fork
  refine wp_seq (wp_allocproc_pages h) fun r t ht => ?_
  cases ht with
  | full => exact fun hne => absurd rfl hne
  | failed => exact fun hne => absurd rfl hne
  | @done _ c a l _ he _ hfree =>
      simp only [wp_bind, wp_modify, wp_liftPhys, wp_ite, wp_gets, wp_pure]
      refine wp_post (wp_kalloc hfree) fun k u hu => ?_
      cases hu with
      | none => exact ⟨fun _ hne => absurd rfl hne, fun hne => absurd rfl hne⟩
      | @page _ _ m hm _ hpage =>
          refine ⟨fun hz => absurd hz (Nat.pos_iff_ne_zero.1 hpage.pos), fun _ => ?_⟩
          have hks := he.modProc fun v => { v with kstack := k }
          simp only [putWord, copyPage, wp_modify, Machine.modProc_self, he.self]
          refine fun _ => ⟨m, hm.congr (fun b hb => ?_) rfl rfl, rfl⟩
          have ha := h.page a List.mem_cons_self
          have hbl : b ∈ k :: m := List.mem_cons_of_mem k hb
          have hbp := h.page b (List.mem_cons_of_mem a hbl)
          have hnodup := List.nodup_cons.1 h.nodup
          exact copied_off fun hon => hnodup.1 (hon.eq ha.aligned hbp.aligned (onPage_self b) ▸ hbl)

/-- A child that is reaped gives two pages back. -/
theorem wp_waitPass_gives {E : Halt → Prop} (h : Pages R s l) :
    (waitPass p).wp (fun r t => ∃ m, FreeList t.phys m ∧
      m.length = l.length + match r with
        | .reaped _ _ => 2
        | _ => 0) E s := by
  unfold waitPass
  simp only [wp_bind, wp_get]
  split
  · rename_i c hfind
    have hfound : (s.proc c).parent = some p ∧ (s.proc c).status = .zombie := by simpa using List.find?_some hfind
    have hc : Occupied s c := by
      rw [Occupied, hfound.2]
      simp
    have htf := h.page (c, false) hc
    have hks := h.page (c, true) hc
    simp only [wp_bind, wp_gets, wp_modify, wp_pure, kfreePtr, wp_ite, wp_liftPhys]
    refine ⟨fun _ => ?_, fun hnull => absurd htf.pos (fun hpos => hnull (Nat.pos_iff_ne_zero.1 hpos))⟩
    refine wp_post (wp_kfree h.free htf (h.taken (c, false) hc)) fun _ u hu => ?_
    refine ⟨fun _ => ?_, fun hnull => absurd hks.pos (fun hpos => hnull (Nat.pos_iff_ne_zero.1 hpos))⟩
    have hin : ownPage s (c, true) ∉ ownPage s (c, false) :: l := by
      rw [List.mem_cons, not_or]
      refine ⟨fun heq => ?_, h.taken (c, true) hc⟩
      exact absurd (congrArg Prod.snd (h.distinct _ _ hc hc heq)) (by simp)
    refine wp_post (wp_kfree hu.free (hu.endAddress.symm ▸ hks) hin) fun _ w hw => ?_
    exact ⟨_, hw.free, rfl⟩
  · rw [wp_ite]
    refine ⟨fun _ => ?_, fun _ => ⟨l, h.free, rfl⟩⟩
    simp only [wp_bind, wp_modify, wp_pure]
    exact ⟨l, h.free, rfl⟩

/-! ## Steps -/

/-- The free pages and those of the slots in use are as many as before, and not fewer are free. -/
structure Settled (s : Machine) (l : List Nat) (t : Machine) (m : List Nat) : Prop where
  free : FreeList t.phys m
  le : l.length ≤ m.length
  balance : m.length + 2 * slots t = l.length + 2 * slots s

/-- The free pages and those of the slots in use are as many as before, but for one that is lost. -/
structure Balanced (s : Machine) (l : List Nat) (t : Machine) (m : List Nat) : Prop where
  free : FreeList t.phys m
  lost : Leaks s t → m.length + 2 * slots t + 1 = l.length + 2 * slots s
  kept : ¬ Leaks s t → m.length + 2 * slots t = l.length + 2 * slots s

namespace Settled

theorem balanced (h : Settled s l t m) (hl : FreeList s.phys l) : Balanced s l t m := by
  refine ⟨h.free, fun hleak => ?_, fun _ => h.balance⟩
  obtain ⟨hone, rfl⟩ := hleak.free hl h.free
  have hle := h.le
  rw [hone] at hle
  exact absurd hle (by simp)

theorem trans {u : Machine} {k : List Nat} (h : Settled s l t m) (h' : Settled t m u k) : Settled s l u k :=
  ⟨h'.free, Nat.le_trans h.le h'.le, h'.balance.trans h.balance⟩

/-- No page and no slot changes hands. -/
theorem same (hfree : FreeList t.phys l) (hslot : ∀ q, (t.proc q).status = .free ↔ (s.proc q).status = .free) :
    Settled s l t l := by
  refine ⟨hfree, Nat.le_refl _, ?_⟩
  rw [slots_congr hslot]

/-- One slot in use is edited, and stays in use. -/
theorem edited {n : Nat} {v : Proc} (he : Edited s p n v t) (hfree : FreeList t.phys l) (hp : (s.proc p).status ≠ .free)
    (hv : v.status ≠ .free) : Settled s l t l := by
  apply same hfree
  intro q
  by_cases hq : q = p
  · rw [hq, he.self]
    exact iff_of_false hv hp
  · rw [he.of_ne hq]

theorem waited {r : WaitEnd} (h : Pages R s l) (hp : Occupied s p) (hrun : (waitPass p).run s = .ok (r, t)) :
    ∃ m, Settled s l t m := by
  obtain ⟨m, hm, hlen⟩ := wp_ok (E := fun _ => False) (wp_waitPass_gives h) hrun
  cases wp_ok (wp_waitPass s p) hrun with
  | @reaped _ c v _ hz he hfree =>
      have hslots : slots s = slots t + 1 := by
        apply slots_take (by rw [he.self, hfree])
        · rw [hz]
          simp
        · intro q hq
          rw [he.of_ne hq]
      have htwo : m.length = l.length + 2 := hlen
      exact ⟨m, hm, by omega, by omega⟩
  | nokids => exact ⟨l, same h.free fun _ => Iff.rfl⟩
  | asleep he =>
      have hsame : m.length = l.length := hlen
      have hslots : slots t = slots s := by
        apply slots_congr
        intro q
        by_cases hq : q = p
        · rw [hq, he.self]
          exact iff_of_false (by simp) hp
        · rw [he.of_ne hq]
      exact ⟨m, hm, hsame.ge, by rw [hsame, hslots]⟩

/-- A process that slept in `wait` goes on. -/
theorem woken {r : WaitEnd} (h : Pages R s l) (hp : Occupied s p) (hrun : (waitResume p).run s = .ok (r, t)) :
    ∃ m, Settled s l t m := by
  have he := (edited_self s p).modProc fun v => { v with chan := none }
  rw [waitResume, run_bind] at hrun
  obtain ⟨m, hm⟩ := waited (h.edited he rfl hp rfl rfl) (by rw [Occupied, he.self]; exact hp) hrun
  exact ⟨m, (edited he h.free hp hp).trans hm⟩

end Settled

theorem balance_fork {r : Option (Fin NPROC)} (h : FreeList s.phys l) (hrun : (fork p).run s = .ok (r, t)) :
    ∃ m, Balanced s l t m := by
  cases r with
  | some np =>
      obtain ⟨m, hm, hlen⟩ := wp_ok (E := fun _ => False) (wp_fork_takes h) hrun (by simp)
      cases wp_ok (wp_fork s p) hrun with
      | done hc he hready =>
          have hslots : slots t = slots s + 1 := by
            apply slots_take (freeSlot_free hc)
            · rw [he.self, hready]
              simp
            · intro q hq
              rw [he.of_ne hq]
          refine ⟨m, hm, fun hleak => ?_, fun _ => by omega⟩
          obtain ⟨hone, -⟩ := hleak.free h hm
          omega
  | none =>
      have hfailed : FailedFork s t := ⟨p, hrun⟩
      have hslot : ∀ q, (t.proc q).status = .free ↔ (s.proc q).status = .free := by
        intro q
        cases wp_ok (wp_fork s p) hrun with
        | full _ hproc => rw [hproc]
        | @failed _ c v hc he hfree =>
            by_cases hq : q = c
            · rw [hq, he.self, hfree, freeSlot_free hc]
            · rw [he.of_ne hq]
      cases hfailed.exits h with
      | full => exact ⟨l, (Settled.same h hslot).balanced h⟩
      | noTrapframe _ _ hphys => exact ⟨[], (Settled.same (hphys ▸ h) hslot).balanced h⟩
      | @noStack _ c a hc hfree =>
          refine ⟨[], hfree, fun _ => ?_, fun hno => absurd ⟨hfailed, by simp [hc], a, h⟩ hno⟩
          rw [slots_congr hslot, List.length_nil, List.length_singleton]
          exact Nat.add_right_comm _ _ _

theorem balance_step {mayExit : Machine → Fin NPROC → Prop} (hst : Step mayExit s t) (h : Pages R s l) :
    ∃ m, Balanced s l t m := by
  cases hst with
  | @dispatch p _ hp =>
      have he := (edited_self s p).modProc fun v => { v with status := .running }
      exact ⟨l, (Settled.edited he h.free (by simp [hp]) (by simp)).balanced h.free⟩
  | @tick p hp =>
      have he := (edited_self s p).modProc fun v => { v with status := .ready }
      exact ⟨l, (Settled.edited he h.free (by simp [hp]) (by simp)).balanced h.free⟩
  | file _ _ hrun =>
      have ho := wp_ok (wp_fileCall_owners _ _ _ _) hrun
      exact ⟨l, (Settled.same (ho.phys ▸ h.free) fun q => by rw [ho.status]).balanced h.free⟩
  | fork _ _ hrun => exact balance_fork h.free hrun
  | @exit _ p _ _ _ hp _ hrun =>
      have hx := wp_ok (E := fun _ => False) (wp_exit _ _ _) hrun
      have hslot : ∀ q, (t.proc q).status = .free ↔ (s.proc q).status = .free := by
        intro q
        by_cases hq : q = p
        · rw [hq, hx.zombie, hp]
          simp
        · rcases hx.status q hq with heq | ⟨hsleep, hready⟩
          · rw [heq]
          · rw [hready, hsleep]
            simp
      exact ⟨l, (Settled.same (hx.phys ▸ h.free) hslot).balanced h.free⟩
  | wait hp _ hrun =>
      obtain ⟨m, hm⟩ := Settled.waited h (by simp [Occupied, hp]) hrun
      exact ⟨m, hm.balanced h.free⟩
  | woken hp _ hrun =>
      obtain ⟨m, hm⟩ := Settled.woken h (by simp [Occupied, hp]) hrun
      exact ⟨m, hm.balanced h.free⟩

/-! ## Runs -/

namespace Space

variable {etext root code stack : Nat} {T : PageTable}

/-- What a process may write to is no link of the free list. -/
theorem free_not_writable (h : Space etext root code stack T s) (hl : Pages (Reserved T code stack) s l)
    (hp : Occupied s p) {a : Nat} (ha : a ∈ l) : ¬ Writable root s p a := by
  have hal := (hl.free.page a ha).aligned
  have hown (k : Bool) : ¬ OnPage (ownPage s (p, k)) a := fun hon =>
    hl.off_free (x := (p, k)) hp ha hon (onPage_self a)
  rintro (hon | hon | ⟨va, hva, e, he, hu, -, hon⟩)
  · exact hown false hon
  · exact hown true hon
  · rcases h.userPage_of_leaf hva he hu hon with hon | hon
    · exact hl.apart a ha (.inr (.inl (hon.eq h.codePage.aligned hal (onPage_self a)).symm))
    · exact hl.apart a ha (.inr (.inr (hon.eq h.stackPage.aligned hal (onPage_self a)).symm))

/-- The links of the free list are not in the two user pages. -/
theorem store_free (h : Space etext root code stack T s) (hl : Pages (Reserved T code stack) s l) {a : Nat}
    {data : List UInt8} (hdata : ∀ i < data.length, UserPage code stack (a + i)) :
    Pages (Reserved T code stack) (s.store a data) l := by
  refine hl.scribbled rfl rfl rfl fun b hb => ?_
  apply storeBytes_off
  intro i hi heq
  have hal := (hl.free.page b hb).aligned
  rcases hdata i hi with hon | hon
  · have hword := heq ▸ onPage_word_of_byte h.codePage.aligned hon
    exact hl.apart b hb (.inr (.inl (hword.eq h.codePage.aligned hal (onPage_self b)).symm))
  · have hword := heq ▸ onPage_word_of_byte h.stackPage.aligned hon
    exact hl.apart b hb (.inr (.inr (hword.eq h.stackPage.aligned hal (onPage_self b)).symm))

theorem balance (h : Space etext root code stack T s) (hl : Pages (Reserved T code stack) s l)
    (hst : SpaceStep root (UserPage code stack) s t) : ∃ m, Balanced s l t m := by
  cases hst with
  | call hst => exact balance_step hst hl
  | @user p mem hp hmem =>
      have hocc : Occupied s p := by simp [Occupied, hp]
      have hlink (a : Nat) (ha : a ∈ l) : mem a = s.phys.mem a := hmem a (h.free_not_writable hl hocc ha)
      have hkept : Settled s l { s with phys := { s.phys with mem } } l := .same (hl.free.congr hlink rfl rfl) fun _ => Iff.rfl
      exact ⟨l, hkept.balanced hl.free⟩
  | @read u p a n data hp hc hrun hdata =>
      have ho := wp_ok (wp_fileCall_owners _ _ _ _) hrun
      have hu := (h.step (.file hp hc hrun)).store_free (ho.pages hl) hdata
      have hkept : Settled s l (u.store a.a1.toNat data) l := .same hu.free fun q => by rw [← ho.status]; rfl
      exact ⟨l, hkept.balanced hl.free⟩
  | @wait _ p addr _ x hp _ hrun hdata =>
      have hstored := h.store_free hl (length_intBytes x ▸ hdata)
      have hkept : Settled s l (s.store addr (intBytes x)) l := .same hstored.free fun _ => Iff.rfl
      obtain ⟨m, hm⟩ := Settled.waited hstored (by simp [Occupied, Machine.store, hp]) hrun
      exact ⟨m, (hkept.trans hm).balanced hl.free⟩
  | @woken _ p addr _ x hp _ hrun hdata =>
      have hstored := h.store_free hl (length_intBytes x ▸ hdata)
      have hkept : Settled s l (s.store addr (intBytes x)) l := .same hstored.free fun _ => Iff.rfl
      obtain ⟨m, hm⟩ := Settled.woken hstored (by simp [Occupied, Machine.store, hp]) hrun
      exact ⟨m, (hkept.trans hm).balanced hl.free⟩

end Space

end

end RiscvOsLab.Kernel
