import RiscvOsLab.Kernel.Space

/-!
# The pages of one process under the steps of the others

Trapframes and kernel stacks are pages of `kalloc`, the page table is shared, and the kernel writes through addresses
that are both virtual and physical.

* `Undisturbed` : the pages of the processes that stay, and what is in them;
* `wp_fork_kept`, `wp_waitPass_kept` : the calls that take pages and give them back;
* `undisturbed_step` : no call writes to the pages of a process that stays.
-/

namespace RiscvOsLab.Kernel

open Prog Function

/-- A process that is there before and after keeps its pages, and the words in them. -/
def Undisturbed (s t : Machine) : Prop :=
  ∀ x, Occupied s x.1 → Occupied t x.1 → ownPage t x = ownPage s x ∧
    ∀ b, OnPage (ownPage s x) b → t.phys.mem b = s.phys.mem b

section
variable {R : Nat → Prop} {s t : Machine} {l : List Nat} {p : Fin NPROC}

namespace Pages

/-- A page in use has no word of a free page. -/
theorem off_free (h : Pages R s l) {x : Fin NPROC × Bool} (hx : Occupied s x.1) {a b : Nat} (ha : a ∈ l)
    (hb : OnPage (ownPage s x) b) : ¬ OnPage a b := fun hon =>
  h.taken x hx (hb.eq (h.page x hx).aligned (h.free.page a ha).aligned hon ▸ ha)

/-- Two pages in use have no word in common. -/
theorem off_other (h : Pages R s l) {x y : Fin NPROC × Bool} (hx : Occupied s x.1) (hy : Occupied s y.1) (hxy : x ≠ y)
    {b : Nat} (hb : OnPage (ownPage s x) b) : ¬ OnPage (ownPage s y) b := fun hon =>
  hxy (h.distinct x y hx hy (hb.eq (h.page x hx).aligned (h.page y hy).aligned hon))

/-- A page in use has no word of a reserved page. -/
theorem off_reserved (h : Pages R s l) {x : Fin NPROC × Bool} (hx : Occupied s x.1) {r b : Nat} (hr : R r)
    (hal : r % PGSIZE = 0) (hb : OnPage (ownPage s x) b) : ¬ OnPage r b := fun hon =>
  h.spare x hx (hb.eq (h.page x hx).aligned hal hon ▸ hr)

end Pages

theorem Undisturbed.of_phys (h : t.phys = s.phys) (htf : ∀ q, Occupied s q → (t.proc q).trapframe = (s.proc q).trapframe)
    (hks : ∀ q, Occupied s q → (t.proc q).kstack = (s.proc q).kstack) : Undisturbed s t := fun x hx _ =>
  ⟨ownPage_congr (htf x.1 hx) (hks x.1 hx), fun b _ => by rw [h]⟩

theorem Undisturbed.trans {u : Machine} (h : Undisturbed s t) (h' : Undisturbed t u)
    (hocc : ∀ q, Occupied s q → Occupied t q) : Undisturbed s u := by
  intro x hx hx'
  obtain ⟨hown, hmem⟩ := h x hx (hocc x.1 hx)
  obtain ⟨hown', hmem'⟩ := h' x (hocc x.1 hx) hx'
  refine ⟨hown'.trans hown, fun b hb => ?_⟩
  rw [hmem' b (hown ▸ hb), hmem b hb]

/-- A slot that was free is edited, and words on free pages are written. -/
theorem Pages.undisturbed (h : Pages R s l) {c : Fin NPROC} {n : Nat} {v : Proc} (he : Edited s c n v t)
    (hc : (s.proc c).status = .free) (hmem : ∀ b, (∀ a ∈ l, ¬ OnPage a b) → t.phys.mem b = s.phys.mem b) :
    Undisturbed s t := by
  intro x hx _
  have hne : x.1 ≠ c := by
    rintro rfl
    exact hx hc
  refine ⟨ownPage_congr (by rw [he.of_ne hne]) (by rw [he.of_ne hne]), fun b hb => hmem b fun a ha => ?_⟩
  exact h.off_free hx ha hb

/-- The trapframe of a child is its parent's, but for `a0`. -/
def ChildFrame (s t : Machine) (p c : Fin NPROC) : Prop :=
  ∀ o < PGSIZE, t.phys.mem ((t.proc c).trapframe + o) =
    if o = TF_A0 then 0 else s.phys.mem ((s.proc p).trapframe + o)

theorem wp_fork_kept {E : Halt → Prop} (h : Pages R s l) (hp : Occupied s p) :
    (fork p).wp (fun r t => Undisturbed s t ∧ ∀ c, r = some c → ChildFrame s t p c) E s := by
  unfold fork
  refine wp_seq (wp_allocproc_pages h.free) fun r t ht => ?_
  cases ht with
  | full => exact ⟨.of_phys rfl (fun _ _ => rfl) fun _ _ => rfl, fun _ hc => absurd hc (by simp)⟩
  | failed hc he hphys =>
      exact ⟨h.undisturbed he (freeSlot_free hc) fun b _ => by rw [hphys], fun _ hc => absurd hc (by simp)⟩
  | @done _ c a l hc he hpos hfree hmem hend =>
      have hfreeSlot := freeSlot_free hc
      simp only [wp_bind, wp_modify, wp_liftPhys, wp_ite, wp_gets, wp_pure]
      refine wp_post (wp_kalloc hfree) fun k u hu => ?_
      cases hu with
      | none =>
          refine ⟨fun _ => ⟨?_, fun _ hc => absurd hc (by simp)⟩, fun hne => absurd rfl hne⟩
          have hlast := (he.modProc fun v => { v with kstack := 0 }).modProc fun v => { v with status := .free }
          refine h.undisturbed hlast hfreeSlot fun b hb => ?_
          show t.phys.mem b = s.phys.mem b
          rw [hmem, zeroPage_off (hb a List.mem_cons_self)]
      | @page _ _ m hm hnew hpage hmem' hend' =>
          refine ⟨fun hz => absurd hz (Nat.pos_iff_ne_zero.1 hpage.pos), fun _ => ?_⟩
          have hks := he.modProc fun v => { v with kstack := k }
          have hphys (u : Phys) : Edited s c (s.nextpid + 1) { (s.proc c).allocated s.nextpid a with kstack := k }
              { (t.modProc c fun v => { v with kstack := k }) with phys := u } := ⟨hks.proc, hks.nextpid⟩
          have hlast (u : Phys) :=
            ((hphys u).modProc fun v => { v with parent := some p }).modProc fun v => { v with status := .ready }
          have hne : p ≠ c := by
            rintro rfl
            exact hp hfreeSlot
          have hsrc : (({ t with phys := u } : Machine).modProc c fun v => { v with kstack := k }).proc p = s.proc p :=
            hks.of_ne hne
          -- the words that are not on the two new pages
          have hoff {b : Nat} (hba : ¬ OnPage a b) (hbk : ¬ OnPage k b) : u.mem b = s.phys.mem b := by
            rw [hmem', zeroPage_off hbk]
            show t.phys.mem b = s.phys.mem b
            rw [hmem, zeroPage_off hba]
          have hk : k ∈ a :: k :: m := List.mem_cons_of_mem a List.mem_cons_self
          simp only [putWord, copyPage, wp_modify, Machine.modProc_self, he.self, hsrc]
          refine ⟨h.undisturbed (hlast _) hfreeSlot fun b hb => ?_, fun c' hc' => ?_⟩
          · exact (copied_off (hb a List.mem_cons_self)).trans (hoff (hb a List.mem_cons_self) (hb k hk))
          · obtain rfl := Option.some.inj hc'
            intro o ho
            refine (congrArg (fun x => Phys.mem _ (x + o)) (congrArg Proc.trapframe (hlast _).self)).trans ?_
            show update (fun b => if a ≤ b ∧ b < a + PGSIZE then u.mem ((s.proc p).trapframe + (b - a)) else u.mem b)
              (a + TF_A0) 0 (a + o) = _
            by_cases hoa : o = TF_A0
            · rw [hoa, update_self, if_pos rfl]
            · have hword : a + o ≠ a + TF_A0 := fun heq => hoa (Nat.add_left_cancel heq)
              have hon : OnPage (ownPage s (p, false)) ((s.proc p).trapframe + o) :=
                ⟨Nat.le_add_right _ _, Nat.add_lt_add_left ho _⟩
              rw [update_of_ne hword, if_neg hoa]
              refine (if_pos ⟨Nat.le_add_right _ _, Nat.add_lt_add_left ho _⟩).trans ?_
              rw [Nat.add_sub_cancel_left]
              exact hoff (h.off_free hp List.mem_cons_self hon) (h.off_free hp hk hon)

theorem wp_waitPass_kept {E : Halt → Prop} (h : Pages R s l) :
    (waitPass p).wp (fun _ t => Undisturbed s t) E s := by
  unfold waitPass
  simp only [wp_bind, wp_get]
  split
  · rename_i c hfind
    have hz : (s.proc c).status = .zombie := by
      have hfound := List.find?_some hfind
      simp only [Bool.and_eq_true, beq_iff_eq] at hfound
      exact hfound.2
    have hc : Occupied s c := by
      rw [Occupied, hz]
      simp
    have htf := h.page (c, false) hc
    have hks := h.page (c, true) hc
    have hdiff : ownPage s (c, true) ≠ ownPage s (c, false) := fun heq =>
      absurd (congrArg Prod.snd (h.distinct _ _ hc hc heq)) (by simp)
    have he₁ := (edited_self s c).modProc fun v => { v with status := .free, pid := 0, parent := none }
    simp only [wp_bind, wp_gets, wp_modify, wp_pure, kfreePtr, wp_ite, wp_liftPhys]
    refine ⟨fun _ => ?_, fun hnull => absurd htf.pos (fun hpos => hnull (Nat.pos_iff_ne_zero.1 hpos))⟩
    refine wp_post (wp_kfree h.free htf (h.taken (c, false) hc)) fun _ u hu => ?_
    refine ⟨fun _ => ?_, fun hnull => absurd hks.pos (fun hpos => hnull (Nat.pos_iff_ne_zero.1 hpos))⟩
    have hin : ownPage s (c, true) ∉ ownPage s (c, false) :: l := by
      intro hin
      rcases List.mem_cons.1 hin with heq | hin
      · exact hdiff heq
      · exact h.taken (c, true) hc hin
    have hks' : IsPage u.endAddress (ownPage s (c, true)) := by
      rw [hu.endAddress]
      exact hks
    refine wp_post (wp_kfree hu.free hks' hin) fun _ w hw => ?_
    have he₂ (u : Phys) := Edited.modProc (t := { (s.modProc c fun v => { v with status := .free, pid := 0, parent := none })
      with phys := u }) ⟨he₁.proc, he₁.nextpid⟩ fun v => { v with trapframe := 0 }
    have he₃ (u w : Phys) := Edited.modProc (t := { (Machine.modProc { (s.modProc c fun v =>
      { v with status := .free, pid := 0, parent := none }) with phys := u } c fun v => { v with trapframe := 0 })
      with phys := w }) ⟨(he₂ u).proc, (he₂ u).nextpid⟩ fun v => { v with kstack := 0 }
    intro x hx hx'
    have hne : x.1 ≠ c := by
      intro heq
      rw [Occupied, heq, (he₃ u w).self] at hx'
      exact hx' rfl
    refine ⟨ownPage_congr (by rw [(he₃ u w).of_ne hne]) (by rw [(he₃ u w).of_ne hne]), fun b hb => ?_⟩
    have hword (k : Bool) : b ≠ ownPage s (c, k) := by
      rintro rfl
      exact h.off_other hx hc (fun heq => hne (congrArg Prod.fst heq)) hb (onPage_self _)
    show w.mem b = s.phys.mem b
    rw [hw.mem]
    refine (update_of_ne (hword true) _ _).trans ?_
    show u.mem b = s.phys.mem b
    rw [hu.mem]
    exact update_of_ne (hword false) _ _
  · rw [wp_ite]
    refine ⟨fun _ => ?_, fun _ => .of_phys rfl (fun _ _ => rfl) fun _ _ => rfl⟩
    simp only [wp_bind, wp_modify, wp_pure]
    have he := ((edited_self s p).modProc fun v => { v with chan := some p }).modProc fun v => { v with status := .sleeping }
    refine .of_phys rfl (fun q _ => ?_) fun q _ => ?_
    · by_cases hq : q = p
      · rw [hq, he.self]
      · rw [he.of_ne hq]
    · by_cases hq : q = p
      · rw [hq, he.self]
      · rw [he.of_ne hq]

namespace Space

variable {etext root code stack : Nat} {T : PageTable}

/-- What is stored in the two user pages is on no page of a process. -/
theorem store_off (h : Space etext root code stack T s) {a b : Nat} {data : List UInt8} {x : Fin NPROC × Bool}
    (hdata : ∀ i < data.length, UserPage code stack (a + i)) (hx : Occupied s x.1) (hb : OnPage (ownPage s x) b) :
    (s.store a data).phys.mem b = s.phys.mem b := by
  obtain ⟨l, hl⟩ := h.pages
  apply storeBytes_off
  intro i hi heq
  rcases hdata i hi with hon | hon
  · have hword := onPage_word_of_byte h.codePage.aligned hon
    exact hl.off_reserved hx (.inr (.inl rfl)) h.codePage.aligned hb (heq ▸ hword)
  · have hword := onPage_word_of_byte h.stackPage.aligned hon
    exact hl.off_reserved hx (.inr (.inr rfl)) h.stackPage.aligned hb (heq ▸ hword)

theorem store_undisturbed (h : Space etext root code stack T s) {a : Nat} {data : List UInt8}
    (hdata : ∀ i < data.length, UserPage code stack (a + i)) : Undisturbed s (s.store a data) := fun _ hx _ =>
  ⟨rfl, fun _ hb => h.store_off hdata hx hb⟩

/-- What another process may write is on no page of `x`. -/
theorem not_writable (h : Space etext root code stack T s) {x : Fin NPROC × Bool} {b : Nat} (hx : Occupied s x.1)
    (hp : Occupied s p) (hne : x.1 ≠ p) (hb : OnPage (ownPage s x) b) : ¬ Writable root s p b := by
  obtain ⟨l, hl⟩ := h.pages
  have hother (k : Bool) : ¬ OnPage (ownPage s (p, k)) b :=
    hl.off_other hx (y := (p, k)) hp (fun heq => hne (congrArg Prod.fst heq)) hb
  rintro (hon | hon | ⟨va, hva, e, he, hu, -, hon⟩)
  · exact hother false hon
  · exact hother true hon
  · rcases h.userPage_of_leaf hva he hu hon with hon | hon
    · exact hl.off_reserved hx (.inr (.inl rfl)) h.codePage.aligned hb hon
    · exact hl.off_reserved hx (.inr (.inr rfl)) h.stackPage.aligned hb hon

end Space

end

end RiscvOsLab.Kernel
