import RiscvOsLab.Kernel.Calls
import RiscvOsLab.Kernel.Kvm

/-!
# Who owns which page

Every page is free, or reserved for good, or the trapframe or the kernel stack of one slot that is in use, or it is lost.

* `Pages R s l` : the pages of `R` are reserved, those of `l` are free;
* `Spared R s t` : the words of the reserved pages are as they were;
* `wp_fork_pages`, `wp_exit_pages`, `wp_waitPass_pages`, `wp_fileCall_pages` : both, for each call.
-/

namespace RiscvOsLab.Kernel

open Prog Function

/-- The slot is not free. -/
def Occupied (s : Machine) (q : Fin NPROC) : Prop := (s.proc q).status ≠ .free

/-- A slot's kernel stack and its trapframe. -/
def ownPage (s : Machine) (x : Fin NPROC × Bool) : Nat :=
  if x.2 then (s.proc x.1).kstack else (s.proc x.1).trapframe

theorem ownPage_congr {s t : Machine} {x : Fin NPROC × Bool} (htf : (t.proc x.1).trapframe = (s.proc x.1).trapframe)
    (hks : (t.proc x.1).kstack = (s.proc x.1).kstack) : ownPage t x = ownPage s x := by
  rw [ownPage, ownPage, htf, hks]

structure Pages (R : Nat → Prop) (s : Machine) (l : List Nat) : Prop where
  free : FreeList s.phys l
  apart : ∀ a ∈ l, ¬ R a
  page : ∀ x, Occupied s x.1 → IsPage s.phys.endAddress (ownPage s x)
  taken : ∀ x, Occupied s x.1 → ownPage s x ∉ l
  spare : ∀ x, Occupied s x.1 → ¬ R (ownPage s x)
  distinct : ∀ x y, Occupied s x.1 → Occupied s y.1 → ownPage s x = ownPage s y → x = y

/-- The words of the reserved pages are as they were. -/
def Spared (R : Nat → Prop) (s t : Machine) : Prop :=
  ∀ r j, R r → j < 512 → t.phys.mem (r + 8 * j) = s.phys.mem (r + 8 * j)

section Pages
variable {R : Nat → Prop} {s t : Machine} {l m : List Nat} {p : Fin NPROC}

theorem Spared.of_phys (h : t.phys = s.phys) : Spared R s t := fun r j _ _ => by rw [h]

/-- Only words on other pages have changed. -/
theorem Spared.of_pages {q : Nat → Prop} (hR : ∀ r, R r → r % PGSIZE = 0) (hq : ∀ a, q a → a % PGSIZE = 0 ∧ ¬ R a)
    (hmem : ∀ b, (∀ a, q a → ¬ OnPage a b) → t.phys.mem b = s.phys.mem b) : Spared R s t := by
  intro r j hr hj
  refine hmem _ fun a ha hon => ?_
  obtain ⟨hal, hnot⟩ := hq a ha
  exact hnot ((onPage_word hj).eq (hR r hr) hal hon ▸ hr)

namespace Pages

/-- The slots that are in use keep their pages. -/
theorem same (h : Pages R s l) (hfree : FreeList t.phys m) (hsub : ∀ a ∈ m, a ∈ l)
    (hend : t.phys.endAddress = s.phys.endAddress)
    (hslot : ∀ q, Occupied t q → Occupied s q ∧ (t.proc q).trapframe = (s.proc q).trapframe ∧
      (t.proc q).kstack = (s.proc q).kstack) : Pages R t m := by
  have hown (x : Fin NPROC × Bool) (hx : Occupied t x.1) : ownPage t x = ownPage s x :=
    ownPage_congr (hslot x.1 hx).2.1 (hslot x.1 hx).2.2
  refine ⟨hfree, fun a ha => h.apart a (hsub a ha), fun x hx => ?_, fun x hx => ?_, fun x hx => ?_,
    fun x y hx hy he => ?_⟩
  · rw [hown x hx, hend]
    exact h.page x (hslot x.1 hx).1
  · rw [hown x hx]
    exact fun hin => h.taken x (hslot x.1 hx).1 (hsub _ hin)
  · rw [hown x hx]
    exact h.spare x (hslot x.1 hx).1
  · rw [hown x hx, hown y hy] at he
    exact h.distinct x y (hslot x.1 hx).1 (hslot y.1 hy).1 he

/-- Nothing but the words of some pages, none of them free, has changed. -/
theorem scribbled (h : Pages R s l) (hproc : t.proc = s.proc) (hhead : t.phys.freeMemList = s.phys.freeMemList)
    (hend : t.phys.endAddress = s.phys.endAddress) (hmem : ∀ a ∈ l, t.phys.mem a = s.phys.mem a) : Pages R t l := by
  refine h.same (h.free.congr hmem hhead hend) (fun _ ha => ha) hend fun q hq => ?_
  rw [Occupied, hproc] at hq
  rw [hproc]
  exact ⟨hq, rfl, rfl⟩

/-- A slot that is in use is edited, but for its pages. -/
theorem edited {n : Nat} {v : Proc} (h : Pages R s l) (he : Edited s p n v t) (hphys : t.phys = s.phys) (hp : Occupied s p)
    (htf : v.trapframe = (s.proc p).trapframe) (hks : v.kstack = (s.proc p).kstack) : Pages R t l := by
  refine h.same (hphys ▸ h.free) (fun _ ha => ha) (by rw [hphys]) fun q hq => ?_
  by_cases hqp : q = p
  · rw [hqp, he.self]
    exact ⟨hp, htf, hks⟩
  · rw [Occupied, he.of_ne hqp] at hq
    rw [he.of_ne hqp]
    exact ⟨hq, rfl, rfl⟩

/-- A free slot gets two free pages. -/
theorem grow {c : Fin NPROC} {n a k : Nat} {v : Proc} (h : Pages R s (a :: k :: l)) (he : Edited s c n v t)
    (htf : v.trapframe = a) (hks : v.kstack = k) (hfree : FreeList t.phys m) (hm : ∀ b ∈ m, b ∈ l)
    (hend : t.phys.endAddress = s.phys.endAddress) : Pages R t m := by
  have hnodup := h.free.nodup
  have ha : a ∉ k :: l := (List.nodup_cons.1 hnodup).1
  have hk : k ∉ l := (List.nodup_cons.1 (List.nodup_cons.1 hnodup).2).1
  have hsub : ∀ b ∈ m, b ∈ a :: k :: l := fun b hb => List.mem_cons_of_mem _ (List.mem_cons_of_mem _ (hm b hb))
  -- a page is one of the new slot's two, or was owned before
  have hcase (x : Fin NPROC × Bool) (hx : Occupied t x.1) :
      x.1 = c ∧ (ownPage t x = a ∧ x.2 = false ∨ ownPage t x = k ∧ x.2 = true) ∨
        x.1 ≠ c ∧ Occupied s x.1 ∧ ownPage t x = ownPage s x := by
    by_cases hxc : x.1 = c
    · refine .inl ⟨hxc, ?_⟩
      rw [ownPage, hxc, he.self, htf, hks]
      cases x.2 with
      | false => exact .inl ⟨if_neg (by simp), rfl⟩
      | true => exact .inr ⟨if_pos rfl, rfl⟩
    · rw [Occupied, he.of_ne hxc] at hx
      exact .inr ⟨hxc, hx, ownPage_congr (by rw [he.of_ne hxc]) (by rw [he.of_ne hxc])⟩
  have hold (x : Fin NPROC × Bool) (hx : Occupied s x.1) : ownPage s x ≠ a ∧ ownPage s x ≠ k := by
    have hnot := h.taken x hx
    exact ⟨fun heq => hnot (heq ▸ List.mem_cons_self), fun heq => hnot (heq ▸ List.mem_cons_of_mem _ List.mem_cons_self)⟩
  have hak : a ≠ k := fun heq => ha (heq ▸ List.mem_cons_self)
  refine ⟨hfree, fun b hb => h.apart b (hsub b hb), fun x hx => ?_, fun x hx => ?_, fun x hx => ?_,
    fun x y hx hy heq => ?_⟩
  · rw [hend]
    rcases hcase x hx with ⟨-, ⟨hp, -⟩ | ⟨hp, -⟩⟩ | ⟨-, hu, hp⟩ <;> rw [hp]
    · exact h.free.page a List.mem_cons_self
    · exact h.free.page k (List.mem_cons_of_mem _ List.mem_cons_self)
    · exact h.page x hu
  · rcases hcase x hx with ⟨-, ⟨hp, -⟩ | ⟨hp, -⟩⟩ | ⟨-, hu, hp⟩ <;> rw [hp]
    · exact fun hin => ha (List.mem_cons_of_mem _ (hm a hin))
    · exact fun hin => hk (hm k hin)
    · exact fun hin => h.taken x hu (hsub _ hin)
  · rcases hcase x hx with ⟨-, ⟨hp, -⟩ | ⟨hp, -⟩⟩ | ⟨-, hu, hp⟩ <;> rw [hp]
    · exact h.apart a List.mem_cons_self
    · exact h.apart k (List.mem_cons_of_mem _ List.mem_cons_self)
    · exact h.spare x hu
  · rcases hcase x hx with ⟨hxc, hp⟩ | ⟨-, hu, hp⟩ <;> rcases hcase y hy with ⟨hyc, hp'⟩ | ⟨-, hu', hp'⟩
    · refine Prod.ext (hxc.trans hyc.symm) ?_
      rcases hp with ⟨hp, hb⟩ | ⟨hp, hb⟩ <;> rcases hp' with ⟨hp', hb'⟩ | ⟨hp', hb'⟩
      · rw [hb, hb']
      · exact absurd (hp.symm.trans (heq.trans hp')) hak
      · exact absurd (hp'.symm.trans (heq.symm.trans hp)) hak
      · rw [hb, hb']
    · have hne := hold y hu'
      rw [heq, hp'] at hp
      rcases hp with ⟨hp, -⟩ | ⟨hp, -⟩
      · exact absurd hp hne.1
      · exact absurd hp hne.2
    · have hne := hold x hu
      rw [← heq, hp] at hp'
      rcases hp' with ⟨hp', -⟩ | ⟨hp', -⟩
      · exact absurd hp' hne.1
      · exact absurd hp' hne.2
    · rw [hp, hp'] at heq
      exact h.distinct x y hu hu' heq

/-- A slot that was in use is freed with its pages. -/
theorem release {c : Fin NPROC} {n : Nat} {v : Proc} (h : Pages R s l) (hc : Occupied s c) (he : Edited s c n v t)
    (hv : v.status = .free) (hfree : FreeList t.phys (ownPage s (c, true) :: ownPage s (c, false) :: l))
    (hend : t.phys.endAddress = s.phys.endAddress) : Pages R t (ownPage s (c, true) :: ownPage s (c, false) :: l) := by
  have hslot (x : Fin NPROC × Bool) (hx : Occupied t x.1) : x.1 ≠ c ∧ Occupied s x.1 ∧ ownPage t x = ownPage s x := by
    have hxc : x.1 ≠ c := by
      intro heq
      rw [Occupied, heq, he.self, hv] at hx
      exact hx rfl
    rw [Occupied, he.of_ne hxc] at hx
    exact ⟨hxc, hx, ownPage_congr (by rw [he.of_ne hxc]) (by rw [he.of_ne hxc])⟩
  refine ⟨hfree, fun a ha => ?_, fun x hx => ?_, fun x hx => ?_, fun x hx => ?_, fun x y hx hy heq => ?_⟩
  · rcases List.mem_cons.1 ha with rfl | ha
    · exact h.spare (c, true) hc
    · rcases List.mem_cons.1 ha with rfl | ha
      · exact h.spare (c, false) hc
      · exact h.apart a ha
  · obtain ⟨-, hu, hp⟩ := hslot x hx
    rw [hp, hend]
    exact h.page x hu
  · obtain ⟨hxc, hu, hp⟩ := hslot x hx
    rw [hp]
    intro hin
    rcases List.mem_cons.1 hin with heq | hin
    · exact hxc (congrArg Prod.fst (h.distinct x (c, true) hu hc heq))
    · rcases List.mem_cons.1 hin with heq | hin
      · exact hxc (congrArg Prod.fst (h.distinct x (c, false) hu hc heq))
      · exact h.taken x hu hin
  · obtain ⟨-, hu, hp⟩ := hslot x hx
    rw [hp]
    exact h.spare x hu
  · obtain ⟨-, hu, hp⟩ := hslot x hx
    obtain ⟨-, hu', hp'⟩ := hslot y hy
    rw [hp, hp'] at heq
    exact h.distinct x y hu hu' heq

/-- No slot is in use. -/
theorem of_unused (hl : FreeList s.phys l) (hapart : ∀ a ∈ l, ¬ R a) (hfree : ∀ q, (s.proc q).status = .free) :
    Pages R s l := by
  have hno (x : Fin NPROC × Bool) (hx : Occupied s x.1) : False := hx (hfree x.1)
  exact ⟨hl, hapart, fun x hx => (hno x hx).elim, fun x hx => (hno x hx).elim, fun x hx => (hno x hx).elim,
    fun x _ hx => (hno x hx).elim⟩

/-- Pages that nobody has are reserved. -/
theorem reserve {R' : Nat → Prop} (h : Pages R s l)
    (hR' : ∀ a, R' a → R a ∨ a ∉ l ∧ ∀ x, Occupied s x.1 → ownPage s x ≠ a) : Pages R' s l := by
  refine ⟨h.free, fun a ha hr => ?_, h.page, h.taken, fun x hx hr => ?_, h.distinct⟩
  · rcases hR' a hr with hr | ⟨hnot, -⟩
    · exact h.apart a ha hr
    · exact hnot ha
  · rcases hR' _ hr with hr | ⟨-, hnot⟩
    · exact h.spare x hx hr
    · exact hnot x hx rfl

end Pages

/-! ## The calls -/

/-- A slot that `allocproc` has prepared. -/
def Proc.allocated (v : Proc) (pid trapframe : Nat) : Proc :=
  { v with pid, trapframe, status := .allocated, parent := none, chan := none, xstate := 0 }

@[simp] theorem Proc.allocated_trapframe (v : Proc) (pid a : Nat) : (v.allocated pid a).trapframe = a := rfl

/-- The result of `allocproc`. -/
inductive AllocedPages (s : Machine) : List Nat → Option (Fin NPROC) → Machine → Prop
  | full {l : List Nat} : freeSlot s = none → AllocedPages s l none s
  | failed {t : Machine} {c : Fin NPROC} : freeSlot s = some c →
      Edited s c (s.nextpid + 1) { s.proc c with pid := s.nextpid, trapframe := 0, status := .free } t →
      t.phys = s.phys → AllocedPages s [] none t
  | done {t : Machine} {c : Fin NPROC} {a : Nat} {l : List Nat} : freeSlot s = some c →
      Edited s c (s.nextpid + 1) ((s.proc c).allocated s.nextpid a) t → 0 < a → FreeList t.phys l →
      t.phys.mem = zeroPage s.phys.mem a → t.phys.endAddress = s.phys.endAddress → AllocedPages s (a :: l) (some c) t

theorem wp_allocproc_pages {E : Halt → Prop} (h : FreeList s.phys l) : allocproc.wp (AllocedPages s l) E s := by
  unfold allocproc
  rw [wp_bind, wp_get]
  cases hc : freeSlot s with
  | none => exact .full hc
  | some c =>
      have hstart : Edited s c (s.nextpid + 1) (s.proc c) { s with nextpid := s.nextpid + 1 } :=
        ⟨(update_eq_self c s.proc).symm, rfl⟩
      simp only [allocpid, wp_bind, wp_gets, wp_modify, wp_pure, wp_liftPhys, wp_ite]
      have hpid := hstart.modProc fun v => { v with pid := s.nextpid }
      refine wp_post (wp_kalloc h) fun a u hu => ?_
      cases hu with
      | none =>
          have hnull := hpid.modProc fun v => { v with trapframe := 0 }
          exact ⟨fun _ => .failed hc (hnull.modProc fun v => { v with status := .free }) rfl, fun hne => absurd rfl hne⟩
      | page hfree _ hpage hmem hend =>
          refine ⟨fun hz => absurd hz (Nat.pos_iff_ne_zero.1 hpage.pos), fun _ => ?_⟩
          have htf := Edited.modProc (t := { (Machine.modProc { s with nextpid := s.nextpid + 1 } c fun v =>
            { v with pid := s.nextpid }) with phys := u }) ⟨hpid.proc, hpid.nextpid⟩ fun v => { v with trapframe := a }
          exact .done hc (htf.modProc fun v => { v with status := .allocated, parent := none, chan := none, xstate := 0 })
            hpage.pos hfree hmem hend

/-- Off the new trapframe, memory is as it was before the copy. -/
theorem copied_off {mem : Nat → UInt64} {dst src b : Nat} (h : ¬ OnPage dst b) :
    update (fun b => if dst ≤ b ∧ b < dst + PGSIZE then mem (src + (b - dst)) else mem b) (dst + TF_A0) 0 b = mem b := by
  have hne : b ≠ dst + TF_A0 := by
    rintro rfl
    exact h ⟨Nat.le_add_right _ _, Nat.add_lt_add_left (by decide) _⟩
  rw [update_of_ne hne]
  exact if_neg h

/-- `fork` fails only if the table is full or there are not two free pages. -/
theorem wp_fork_pages {E : Halt → Prop} (h : Pages R s l) (hR : ∀ r, R r → r % PGSIZE = 0) :
    (fork p).wp (fun r t => ∃ m, Pages R t m ∧ Spared R s t ∧ (r = none → freeSlot s = none ∨ l.length < 2)) E s := by
  unfold fork
  refine wp_seq (wp_allocproc_pages h.free) fun r t ht => ?_
  cases ht with
  | full hc => exact ⟨l, h, .of_phys rfl, fun _ => .inl hc⟩
  | @failed _ c _ he hphys =>
      refine ⟨[], h.same (hphys ▸ h.free) (fun _ ha => ha) (by rw [hphys]) fun q hq => ?_, .of_phys hphys,
        fun _ => .inr (by simp)⟩
      have hqc : q ≠ c := by
        rintro rfl
        exact hq (by rw [he.self])
      rw [Occupied, he.of_ne hqc] at hq
      rw [he.of_ne hqc]
      exact ⟨hq, rfl, rfl⟩
  | @done _ c a l _ he hpos hfree hmem hend =>
      have ha := h.free.page a List.mem_cons_self
      simp only [wp_bind, wp_modify, wp_liftPhys, wp_ite, wp_gets, wp_pure]
      refine wp_post (wp_kalloc hfree) fun k u hu => ?_
      cases hu with
      | none =>
          refine ⟨fun _ => ⟨[], ?_, ?_, fun _ => .inr (by simp)⟩, fun hne => absurd rfl hne⟩
          · have hlast := (he.modProc fun v => { v with kstack := 0 }).modProc fun v => { v with status := .free }
            refine h.same hfree (fun _ hin => absurd hin List.not_mem_nil) hend fun q hq => ?_
            have hqc : q ≠ c := by
              rintro rfl
              exact hq (by rw [hlast.self])
            rw [Occupied, hlast.of_ne hqc] at hq
            rw [hlast.of_ne hqc]
            exact ⟨hq, rfl, rfl⟩
          · refine .of_pages hR (q := fun b => b = a) (fun b hb => hb ▸ ⟨ha.aligned, h.apart a List.mem_cons_self⟩)
              fun b hb => ?_
            show t.phys.mem b = s.phys.mem b
            rw [hmem, zeroPage_off (hb a rfl)]
      | @page _ _ m hm hnew hpage hmem' hend' =>
          refine ⟨fun hz => absurd hz (Nat.pos_iff_ne_zero.1 hpage.pos), fun _ => ?_⟩
          have hk := h.free.page k (List.mem_cons_of_mem _ List.mem_cons_self)
          have hnodup := List.nodup_cons.1 h.free.nodup
          have hks := he.modProc fun v => { v with kstack := k }
          have hphys (u : Phys) : Edited s c (s.nextpid + 1) { (s.proc c).allocated s.nextpid a with kstack := k }
              { (t.modProc c fun v => { v with kstack := k }) with phys := u } := ⟨hks.proc, hks.nextpid⟩
          simp only [putWord, copyPage, wp_modify, Machine.modProc_self, he.self]
          have hlast (u : Phys) :=
            ((hphys u).modProc fun v => { v with parent := some p }).modProc fun v => { v with status := .ready }
          refine ⟨m, h.grow (hlast _) rfl rfl (hm.congr (fun b hb => ?_) rfl rfl) (fun _ hb => hb) (hend'.trans hend), ?_,
            fun hr => absurd hr (by simp)⟩
          · have hbl : b ∈ k :: m := List.mem_cons_of_mem k hb
            have hbp := h.free.page b (List.mem_cons_of_mem a hbl)
            exact copied_off fun hon => hnodup.1 (hon.eq ha.aligned hbp.aligned (onPage_self b) ▸ hbl)
          · refine .of_pages hR (q := fun b => b = a ∨ b = k) ?_ fun b hb => ?_
            · rintro b (rfl | rfl)
              · exact ⟨ha.aligned, h.apart _ List.mem_cons_self⟩
              · exact ⟨hk.aligned, h.apart _ (List.mem_cons_of_mem _ List.mem_cons_self)⟩
            · refine (copied_off (hb a (.inl rfl))).trans ?_
              show u.mem b = s.phys.mem b
              rw [hmem', zeroPage_off (hb k (.inr rfl))]
              show t.phys.mem b = s.phys.mem b
              rw [hmem, zeroPage_off (hb a (.inl rfl))]

/-- Nothing but the open files has changed. -/
structure SameOwners (s t : Machine) : Prop where
  phys : t.phys = s.phys
  status : ∀ q, (t.proc q).status = (s.proc q).status
  trapframe : ∀ q, (t.proc q).trapframe = (s.proc q).trapframe
  kstack : ∀ q, (t.proc q).kstack = (s.proc q).kstack

namespace SameOwners

theorem refl (s : Machine) : SameOwners s s := ⟨rfl, fun _ => rfl, fun _ => rfl, fun _ => rfl⟩

theorem files (h : SameOwners s t) {α : Type} (c : Prog Fs.Files α) {Q : α → Machine → Prop}
    (hQ : ∀ r u, SameOwners s u → Q r u) : (liftFiles c).wp Q (fun _ => True) t := by
  rw [wp_liftFiles]
  exact wp_any _ fun r u => hQ r _ ⟨h.phys, h.status, h.trapframe, h.kstack⟩

theorem ofile (h : SameOwners s t) (f : Fin NOFILE → Option (Fin Fs.NFILE)) :
    SameOwners s (t.setProc p { t.proc p with ofile := f }) := by
  have hslot {α : Type} (g : Proc → α) (hg : ∀ v f, g { v with ofile := f } = g v) (q : Fin NPROC) :
      g ((t.setProc p { t.proc p with ofile := f }).proc q) = g (t.proc q) := by
    by_cases hq : q = p
    · rw [hq, Machine.setProc_self, hg]
    · rw [Machine.setProc_of_ne hq]
  exact ⟨h.phys, fun q => (hslot Proc.status (fun _ _ => rfl) q).trans (h.status q),
    fun q => (hslot Proc.trapframe (fun _ _ => rfl) q).trans (h.trapframe q),
    fun q => (hslot Proc.kstack (fun _ _ => rfl) q).trans (h.kstack q)⟩

theorem pages (ht : SameOwners s t) (h : Pages R s l) : Pages R t l := by
  refine h.same (ht.phys ▸ h.free) (fun _ ha => ha) (by rw [ht.phys]) fun q hq => ⟨?_, ht.trapframe q, ht.kstack q⟩
  rw [Occupied, ht.status] at hq
  exact hq

end SameOwners

theorem wp_fileCall_owners (s : Machine) (p : Fin NPROC) (a : Args) (c : FileCall) :
    (fileCall p a c).wp (fun _ t => SameOwners s t) (fun _ => True) s := by
  have hs := SameOwners.refl s
  cases c with
  | «open» =>
      refine wp_seq (R := fun _ t => SameOwners s t) ?_ fun _ _ ht => ht
      unfold sysOpen
      rw [wp_bind]
      refine hs.files _ fun r t ht => ?_
      cases r with
      | none => exact ht
      | some ip =>
          rw [wp_bind]
          refine ht.files _ fun r t ht => ?_
          cases r with
          | none =>
              rw [wp_bind]
              refine ht.files _ fun _ t ht => ?_
              rw [wp_bind]
              exact ht.files _ fun _ t ht => ht
          | some f =>
              rw [wp_bind, wp_gets]
              split
              · rw [wp_bind]
                refine ht.files _ fun _ t ht => ?_
                rw [wp_bind]
                refine ht.files _ fun _ t ht => ?_
                rw [wp_bind]
                exact ht.files _ fun _ t ht => ht
              · rw [wp_bind, wp_modify, wp_bind]
                refine (ht.ofile _).files _ fun _ t ht => ?_
                rw [wp_bind]
                exact ht.files _ fun _ t ht => ht
  | read =>
      show (sysRead p a).wp _ _ s
      unfold sysRead
      rw [wp_bind, wp_get]
      split
      · exact hs
      · exact hs.files _ fun _ t ht => ht
  | write =>
      refine wp_seq (R := fun _ t => SameOwners s t) ?_ fun _ _ ht => ht
      unfold sysWrite
      rw [wp_bind, wp_get, wp_ite]
      refine ⟨fun _ => hs, fun _ => ?_⟩
      split
      · exact hs
      · exact hs.files _ fun _ t ht => ht
  | close =>
      refine wp_seq (R := fun _ t => SameOwners s t) ?_ fun _ _ ht => ht
      unfold sysClose
      rw [wp_bind, wp_get]
      split
      · exact hs
      · rw [wp_bind]
        refine hs.files _ fun _ t ht => ?_
        exact ht.ofile _

theorem Exited.pages {status : Int32} (he : Exited s p status t) (h : Pages R s l) (hp : Occupied s p) : Pages R t l := by
  refine h.same (he.phys ▸ h.free) (fun _ ha => ha) (by rw [he.phys]) fun q hq => ⟨?_, he.trapframe q, he.kstack q⟩
  by_cases hqp : q = p
  · exact hqp ▸ hp
  · rcases he.status q hqp with hs | ⟨hs, -⟩
    · rw [Occupied, hs] at hq
      exact hq
    · rw [Occupied, hs]
      simp

theorem wp_waitPass_pages {E : Halt → Prop} (h : Pages R s l) (hR : ∀ r, R r → r % PGSIZE = 0) (hp : Occupied s p) :
    (waitPass p).wp (fun _ t => ∃ m, Pages R t m ∧ Spared R s t) E s := by
  unfold waitPass
  simp only [wp_bind, wp_get]
  split
  · rename_i c hfind
    have hz : (s.proc c).status = .zombie := by
      have hfound := List.find?_some hfind
      simp only [Bool.and_eq_true, beq_iff_eq] at hfound
      exact hfound.2
    have hc : Occupied s c := by
      rw [Occupied, hz]
      simp
    have htf := h.page (c, false) hc
    have hks := h.page (c, true) hc
    have hdiff : ownPage s (c, true) ≠ ownPage s (c, false) := fun heq =>
      absurd (congrArg Prod.snd (h.distinct _ _ hc hc heq)) (by simp)
    have he₁ := (edited_self s c).modProc fun v => { v with status := .free, pid := 0, parent := none }
    simp only [wp_bind, wp_gets, wp_modify, wp_pure, kfreePtr, wp_ite, wp_liftPhys]
    refine ⟨fun _ => ?_, fun hnull => absurd htf.pos (fun hpos => hnull (Nat.pos_iff_ne_zero.1 hpos))⟩
    refine wp_post (wp_kfree h.free htf (h.taken (c, false) hc)) fun _ u hu => ?_
    refine ⟨fun _ => ?_, fun hnull => absurd hks.pos (fun hpos => hnull (Nat.pos_iff_ne_zero.1 hpos))⟩
    have hin : ownPage s (c, true) ∉ ownPage s (c, false) :: l := by
      intro hin
      rcases List.mem_cons.1 hin with heq | hin
      · exact hdiff heq
      · exact h.taken (c, true) hc hin
    have hks' : IsPage u.endAddress (ownPage s (c, true)) := by
      rw [hu.endAddress]
      exact hks
    refine wp_post (wp_kfree hu.free hks' hin) fun _ w hw => ?_
    have he₂ (u : Phys) := Edited.modProc (t := { (s.modProc c fun v => { v with status := .free, pid := 0, parent := none })
      with phys := u }) ⟨he₁.proc, he₁.nextpid⟩ fun v => { v with trapframe := 0 }
    have he₃ (u w : Phys) := Edited.modProc (t := { (Machine.modProc { (s.modProc c fun v =>
      { v with status := .free, pid := 0, parent := none }) with phys := u } c fun v => { v with trapframe := 0 })
      with phys := w }) ⟨(he₂ u).proc, (he₂ u).nextpid⟩ fun v => { v with kstack := 0 }
    refine ⟨_, h.release hc (he₃ u w) rfl hw.free (hw.endAddress.trans hu.endAddress), ?_⟩
    refine .of_pages hR (q := fun b => b = ownPage s (c, false) ∨ b = ownPage s (c, true)) ?_ fun b hb => ?_
    · rintro b (rfl | rfl)
      · exact ⟨htf.aligned, h.spare _ hc⟩
      · exact ⟨hks.aligned, h.spare _ hc⟩
    · have hne₁ : b ≠ ownPage s (c, false) := by
        rintro rfl
        exact hb _ (.inl rfl) (onPage_self _)
      have hne₂ : b ≠ ownPage s (c, true) := by
        rintro rfl
        exact hb _ (.inr rfl) (onPage_self _)
      show w.mem b = s.phys.mem b
      rw [hw.mem]
      refine (update_of_ne hne₂ _ _).trans ?_
      show u.mem b = s.phys.mem b
      rw [hu.mem]
      exact update_of_ne hne₁ _ _
  · rw [wp_ite]
    refine ⟨fun _ => ?_, fun _ => ⟨l, h, .of_phys rfl⟩⟩
    simp only [wp_bind, wp_modify, wp_pure]
    have he := ((edited_self s p).modProc fun v => { v with chan := some p }).modProc fun v => { v with status := .sleeping }
    exact ⟨l, h.edited he rfl hp rfl rfl, .of_phys rfl⟩

/-- A process is dispatched, preempted, or completes a call: the reserved pages stay as they are. -/
theorem pages_step {mayExit : Machine → Fin NPROC → Prop} (hst : Step mayExit s t) (h : Pages R s l)
    (hR : ∀ r, R r → r % PGSIZE = 0) : ∃ m, Pages R t m ∧ Spared R s t := by
  have hstatus {p : Fin NPROC} (f : Proc → Proc) (hp : Occupied s p) (htf : (f (s.proc p)).trapframe = (s.proc p).trapframe)
      (hks : (f (s.proc p)).kstack = (s.proc p).kstack) : Pages R (s.modProc p f) l :=
    h.edited ((edited_self s p).modProc f) rfl hp htf hks
  have hused {p : Fin NPROC} {st : TaskStatus} (hp : (s.proc p).status = st) (hst : st ≠ .free) : Occupied s p := by
    rw [Occupied, hp]
    exact hst
  cases hst with
  | dispatch _ hp => exact ⟨l, hstatus _ (hused hp (by simp)) rfl rfl, .of_phys rfl⟩
  | tick hp => exact ⟨l, hstatus _ (hused hp (by simp)) rfl rfl, .of_phys rfl⟩
  | file _ _ hrun =>
      have ho := wp_ok (wp_fileCall_owners _ _ _ _) hrun
      exact ⟨l, ho.pages h, .of_phys ho.phys⟩
  | fork _ _ hrun =>
      obtain ⟨m, hm, hspared, -⟩ := wp_ok (E := fun _ => False) (wp_fork_pages h hR) hrun
      exact ⟨m, hm, hspared⟩
  | exit _ hp _ hrun =>
      have he := wp_ok (E := fun _ => False) (wp_exit _ _ _) hrun
      exact ⟨l, he.pages h (hused hp (by simp)), .of_phys he.phys⟩
  | wait hp _ hrun => exact wp_ok (E := fun _ => False) (wp_waitPass_pages h hR (hused hp (by simp))) hrun
  | @woken _ p _ hp _ hrun =>
      have hp' : Occupied (s.modProc p fun v => { v with chan := none }) p := by
        rw [Occupied, Machine.modProc_self]
        exact hused hp (by simp)
      rw [waitResume, run_bind] at hrun
      exact wp_ok (E := fun _ => False) (wp_waitPass_pages (hstatus _ (hused hp (by simp)) rfl rfl) hR hp') hrun

end Pages

end RiscvOsLab.Kernel
