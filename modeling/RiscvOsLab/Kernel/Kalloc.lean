import RiscvOsLab.Lib.Linked
import RiscvOsLab.Lib.Prog
import Mathlib.Algebra.Group.Nat.Defs
import Mathlib.Data.List.Nodup

/-!
# Physical pages (`kernel/mm/kalloc.c`)

Memory is a function from addresses to 64-bit words. The free list is threaded through the first word of the
free pages; `end_address`, which the linker sets, is a component of the state that nothing changes.

* `FreeList s l` : the free pages are those of `l`, in the order in which `kalloc` takes them;
* `wp_kalloc`, `wp_kfree`, `wp_kinit` : the list before and after.
-/

namespace RiscvOsLab.Kernel

open Prog Function

def PGSIZE : Nat := 4096
def KERNBASE : Nat := 0x80000000
def PHYSTOP : Nat := KERNBASE + 128 * 1024 * 1024

theorem phystop_eq : PHYSTOP = 2281701376 := rfl

structure Phys where
  endAddress : Nat
  freeMemList : Nat
  mem : Nat → UInt64

def pgroundup (a : Nat) : Nat := (a + PGSIZE - 1) / PGSIZE * PGSIZE

def kfree (pa : Nat) : Prog Phys Unit := do
  let s ← get
  if pa % PGSIZE ≠ 0 ∨ pa < s.endAddress ∨ PHYSTOP ≤ pa then
    .panic "kfree: invalid address"
  else
    modify fun s => { s with mem := update s.mem pa (UInt64.ofNat s.freeMemList) }
    modify fun s => { s with freeMemList := pa }

/-- The words of a page are zeroed. -/
def zeroPage (mem : Nat → UInt64) (pa : Nat) : Nat → UInt64 :=
  fun a => if pa ≤ a ∧ a < pa + PGSIZE then 0 else mem a

def kalloc : Prog Phys Nat := do
  let r ← gets Phys.freeMemList
  if r ≠ 0 then
    modify fun s => { s with freeMemList := (s.mem r).toNat }
    modify fun s => { s with mem := zeroPage s.mem r }
    return r
  else
    return r

def kinit : Prog Phys Unit := do
  let endAddress ← gets Phys.endAddress
  forN (fun i => kfree (pgroundup endAddress + i * PGSIZE)) ((PHYSTOP - pgroundup endAddress) / PGSIZE)

/-! ## Pages -/

/-- An address on the page at `pa`. -/
def OnPage (pa a : Nat) : Prop := pa ≤ a ∧ a < pa + PGSIZE

instance (pa a : Nat) : Decidable (OnPage pa a) := inferInstanceAs (Decidable (_ ∧ _))

theorem OnPage.eq {p q a : Nat} (hp : p % PGSIZE = 0) (hq : q % PGSIZE = 0) (ha : OnPage p a) (hb : OnPage q a) :
    p = q := by
  obtain ⟨hpa, hpa'⟩ := ha
  obtain ⟨hqa, hqa'⟩ := hb
  simp only [PGSIZE] at *
  omega

theorem onPage_self (pa : Nat) : OnPage pa pa := ⟨Nat.le_refl _, Nat.lt_add_of_pos_right (by decide)⟩

theorem zeroPage_on {mem : Nat → UInt64} {pa a : Nat} (h : OnPage pa a) : zeroPage mem pa a = 0 := if_pos h

theorem zeroPage_off {mem : Nat → UInt64} {pa a : Nat} (h : ¬ OnPage pa a) : zeroPage mem pa a = mem a := if_neg h

/-- A page that `kfree` takes. -/
structure IsPage (endAddress pa : Nat) : Prop where
  aligned : pa % PGSIZE = 0
  lower : endAddress ≤ pa
  upper : pa < PHYSTOP
  pos : 0 < pa

/-! ## The free list -/

/-- A pointer, if it is not null. -/
def pointer (a : Nat) : Option Nat := if a = 0 then none else some a

theorem pointer_of_pos {a : Nat} (h : 0 < a) : pointer a = some a := if_neg (Nat.pos_iff_ne_zero.1 h)

structure FreeList (s : Phys) (l : List Nat) : Prop where
  linked : Linked (fun a => pointer (s.mem a).toNat) (pointer s.freeMemList) l
  nodup : l.Nodup
  page : ∀ a ∈ l, IsPage s.endAddress a

namespace FreeList

variable {s t : Phys} {l : List Nat}

theorem head_lt (h : FreeList s l) : s.freeMemList < 2 ^ 64 := by
  cases l with
  | nil =>
      have hnull : pointer s.freeMemList = none := h.linked
      unfold pointer at hnull
      split at hnull
      · omega
      · exact absurd hnull (by simp)
  | cons a l =>
      have hhead := h.linked.1
      unfold pointer at hhead
      split at hhead
      · exact absurd hhead (by simp)
      · have hlt := (h.page a List.mem_cons_self).upper
        rw [← Option.some.inj hhead] at hlt
        exact Nat.lt_trans hlt (by decide)

/-- Memory off the free pages may change. -/
theorem congr (h : FreeList s l) (hmem : ∀ a ∈ l, t.mem a = s.mem a) (hhead : t.freeMemList = s.freeMemList)
    (hend : t.endAddress = s.endAddress) : FreeList t l := by
  refine ⟨?_, h.nodup, ?_⟩
  · rw [hhead]
    refine h.linked.congr fun a ha => ?_
    rw [hmem a ha]
  · rw [hend]
    exact h.page

/-- One page, which is not free, may change. -/
theorem congr_page (h : FreeList s l) {pa : Nat} (hal : pa % PGSIZE = 0) (hpa : pa ∉ l)
    (hmem : ∀ a, ¬ OnPage pa a → t.mem a = s.mem a) (hhead : t.freeMemList = s.freeMemList)
    (hend : t.endAddress = s.endAddress) : FreeList t l :=
  h.congr (fun a ha => hmem a fun hon => hpa (hon.eq hal (h.page a ha).aligned (onPage_self a) ▸ ha)) hhead hend

/-- The list is empty exactly when its head is null. -/
theorem nil_iff (h : FreeList s l) : l = [] ↔ s.freeMemList = 0 := by
  cases l with
  | nil =>
      have hnull : pointer s.freeMemList = none := h.linked
      unfold pointer at hnull
      split at hnull
      · rename_i hz
        exact ⟨fun _ => hz, fun _ => rfl⟩
      · exact absurd hnull (by simp)
  | cons a l =>
      refine ⟨fun hc => absurd hc (by simp), fun hz => ?_⟩
      have hhead := h.linked.1
      rw [hz] at hhead
      exact absurd hhead (by simp [pointer])

theorem unique {m : List Nat} (h : FreeList s l) (h' : FreeList s m) : l = m := h.linked.unique h'.linked

end FreeList

/-- The result of `kalloc`. -/
inductive Taken (s : Phys) : List Nat → Nat → Phys → Prop
  | none : Taken s [] 0 s
  | page {t : Phys} {a : Nat} {l : List Nat} : FreeList t l → a ∉ l → IsPage s.endAddress a → t.mem = zeroPage s.mem a →
      t.endAddress = s.endAddress → Taken s (a :: l) a t

theorem wp_kalloc {s : Phys} {l : List Nat} {E : Halt → Prop} (h : FreeList s l) : kalloc.wp (Taken s l) E s := by
  unfold kalloc
  rw [wp_bind, wp_gets, wp_ite]
  cases l with
  | nil =>
      have hnull : pointer s.freeMemList = none := h.linked
      unfold pointer at hnull
      split at hnull
      · rename_i hz
        refine ⟨fun hne => absurd hz hne, fun _ => ?_⟩
        rw [hz]
        exact .none
      · exact absurd hnull (by simp)
  | cons a l =>
      have hhead := h.linked.1
      have hpage := h.page a List.mem_cons_self
      unfold pointer at hhead
      split at hhead
      · exact absurd hhead (by simp)
      · rename_i hne
        obtain rfl := Option.some.inj hhead
        refine ⟨fun _ => ?_, fun hz => absurd hne hz⟩
        have hnodup := List.nodup_cons.1 h.nodup
        refine .page ⟨?_, hnodup.2, fun b hb => h.page b (List.mem_cons_of_mem _ hb)⟩ hnodup.1 hpage rfl rfl
        refine h.linked.2.congr fun b hb => ?_
        have hoff : ¬ OnPage s.freeMemList b := fun hon =>
          hnodup.1 (hon.eq hpage.aligned (h.page b (List.mem_cons_of_mem _ hb)).aligned (onPage_self b) ▸ hb)
        show pointer (zeroPage s.mem s.freeMemList b).toNat = _
        rw [zeroPage_off hoff]

/-- The result of `kfree`. -/
structure Freed (s : Phys) (pa : Nat) (l : List Nat) (t : Phys) : Prop where
  free : FreeList t (pa :: l)
  mem : t.mem = update s.mem pa (UInt64.ofNat s.freeMemList)
  endAddress : t.endAddress = s.endAddress

theorem wp_kfree {s : Phys} {l : List Nat} {pa : Nat} {E : Halt → Prop} (h : FreeList s l) (hpa : IsPage s.endAddress pa)
    (hnew : pa ∉ l) : (kfree pa).wp (fun _ => Freed s pa l) E s := by
  unfold kfree
  rw [wp_bind, wp_get, wp_ite]
  refine ⟨?_, fun _ => ⟨⟨⟨?_, ?_⟩, ?_, ?_⟩, rfl, rfl⟩⟩
  · rintro (hal | hlow | hup)
    · exact absurd hpa.aligned hal
    · exact absurd hpa.lower (Nat.not_le.2 hlow)
    · exact absurd hpa.upper (Nat.not_lt.2 hup)
  · exact pointer_of_pos hpa.pos
  · -- the link of the new page is the old head
    show Linked _ (pointer (update s.mem pa (UInt64.ofNat s.freeMemList) pa).toNat) l
    rw [update_self, UInt64.toNat_ofNat', Nat.mod_eq_of_lt h.head_lt]
    refine h.linked.congr fun b hb => ?_
    have hne : b ≠ pa := fun he => hnew (he ▸ hb)
    show pointer (update s.mem pa _ b).toNat = _
    rw [update_of_ne hne]
  · exact List.nodup_cons.2 ⟨hnew, h.nodup⟩
  · intro b hb
    rcases List.mem_cons.1 hb with rfl | hb
    · exact hpa
    · exact h.page b hb

/-- The pages that `kinit` frees, the last first. -/
def pagesFrom (base : Nat) : Nat → List Nat
  | 0 => []
  | n + 1 => (base + n * PGSIZE) :: pagesFrom base n

theorem mem_pagesFrom {base a : Nat} : ∀ {n : Nat}, a ∈ pagesFrom base n → ∃ i < n, a = base + i * PGSIZE
  | n + 1, h => by
      rcases List.mem_cons.1 h with rfl | h
      · exact ⟨n, Nat.lt_succ_self n, rfl⟩
      · obtain ⟨i, hi, ha⟩ := mem_pagesFrom h
        exact ⟨i, Nat.lt_succ_of_lt hi, ha⟩

theorem length_pagesFrom (base : Nat) : ∀ n, (pagesFrom base n).length = n
  | 0 => rfl
  | n + 1 => by rw [pagesFrom, List.length_cons, length_pagesFrom base n]

/-- How many pages `kinit` frees. -/
def npages (endAddress : Nat) : Nat := (PHYSTOP - pgroundup endAddress) / PGSIZE

theorem le_pgroundup (a : Nat) : a ≤ pgroundup a := by
  simp only [pgroundup, PGSIZE]
  omega

theorem pgroundup_aligned (a : Nat) : pgroundup a % PGSIZE = 0 := Nat.mul_mod_left _ _

theorem mem_pagesFrom_iff {base a n : Nat} : a ∈ pagesFrom base n ↔ ∃ i < n, a = base + i * PGSIZE := by
  refine ⟨mem_pagesFrom, ?_⟩
  rintro ⟨i, hi, rfl⟩
  induction n with
  | zero => exact absurd hi (Nat.not_lt_zero i)
  | succ n ih =>
      rcases Nat.lt_succ_iff_lt_or_eq.1 hi with hlt | rfl
      · exact List.mem_cons_of_mem _ (ih hlt)
      · exact List.mem_cons_self

/-- `kfree` of the null page: the list ends at a null pointer, so it is empty afterwards. -/
theorem wp_kfree_null {s : Phys} {E : Halt → Prop} (hend : s.endAddress = 0) :
    (kfree 0).wp (fun _ t => FreeList t [] ∧ t.endAddress = s.endAddress) E s := by
  unfold kfree
  rw [wp_bind, wp_get, wp_ite]
  refine ⟨?_, fun _ => ⟨⟨rfl, List.nodup_nil, fun a ha => absurd ha List.not_mem_nil⟩, rfl⟩⟩
  rintro (hal | hlow | hup)
  · exact absurd rfl hal
  · rw [hend] at hlow
    exact absurd hlow (Nat.lt_irrefl 0)
  · exact absurd hup (by decide)

/-- The pages that `kinit` links, the last first: a null pointer is no page of the list. -/
def initialPages (endAddress n : Nat) : List Nat := (pagesFrom (pgroundup endAddress) n).filter (· ≠ 0)

theorem initialPages_eq {endAddress : Nat} (hend : 0 < endAddress) (n : Nat) :
    initialPages endAddress n = pagesFrom (pgroundup endAddress) n := by
  refine List.filter_eq_self.2 fun a ha => ?_
  obtain ⟨i, -, rfl⟩ := mem_pagesFrom ha
  have hlow := le_pgroundup endAddress
  exact decide_eq_true (by omega)

theorem wp_kinit_frames {s : Phys} {E : Halt → Prop} (hnull : s.freeMemList = 0) :
    kinit.wp (fun _ t => FreeList t (initialPages s.endAddress (npages s.endAddress)) ∧
      t.endAddress = s.endAddress) E s := by
  unfold kinit
  rw [wp_bind, wp_gets]
  refine wp_forN (fun i t => FreeList t (initialPages s.endAddress i) ∧ t.endAddress = s.endAddress) ?_ ?_
  · refine ⟨⟨?_, List.nodup_nil, fun a ha => absurd ha List.not_mem_nil⟩, rfl⟩
    show pointer s.freeMemList = none
    rw [hnull]
    rfl
  · rintro i t hi ⟨hfree, ht⟩
    have hlow := le_pgroundup s.endAddress
    have hal := pgroundup_aligned s.endAddress
    by_cases hz : pgroundup s.endAddress + i * PGSIZE = 0
    · -- nothing was linked before the null page
      have hi0 : i = 0 := by
        simp only [PGSIZE] at hz
        omega
      have hnil : initialPages s.endAddress (i + 1) = [] := by
        rw [initialPages, pagesFrom, hz, hi0]
        rfl
      rw [hz, hnil]
      refine wp_post (wp_kfree_null (by omega)) fun _ u hu => ⟨hu.1, hu.2.trans ht⟩
    · have hcons : initialPages s.endAddress (i + 1) = (pgroundup s.endAddress + i * PGSIZE) :: initialPages s.endAddress i :=
        List.filter_cons_of_pos (decide_eq_true hz)
      rw [hcons]
      refine wp_post (wp_kfree hfree ⟨?_, ?_, ?_, ?_⟩ fun hin => ?_) fun _ u hu => ⟨hu.free, hu.endAddress.trans ht⟩
      · rw [Nat.add_mul_mod_self_right]
        exact hal
      · rw [ht]
        omega
      · have hle := Nat.div_mul_le_self (PHYSTOP - pgroundup s.endAddress) PGSIZE
        have hlt := Nat.mul_lt_mul_of_pos_right hi (show 0 < PGSIZE by decide)
        omega
      · exact Nat.pos_of_ne_zero hz
      · obtain ⟨j, hj, heq⟩ := mem_pagesFrom (List.mem_filter.1 hin).1
        simp only [PGSIZE] at heq
        omega

theorem wp_kinit {s : Phys} {E : Halt → Prop} (hnull : s.freeMemList = 0) (hend : 0 < s.endAddress) :
    kinit.wp (fun _ t => FreeList t (pagesFrom (pgroundup s.endAddress) (npages s.endAddress)) ∧
      t.endAddress = s.endAddress) E s := by
  rw [← initialPages_eq hend]
  exact wp_kinit_frames hnull

end RiscvOsLab.Kernel
