import Mathlib.Data.Finset.Card
import Mathlib.Data.Finset.Range
import Mathlib.Logic.Function.Basic

/-!
# Cells that hold the numbers of distinct resources

`Placed dom ok V W`: of the cells in `dom`, those of `W` hold the numbers of resources that are `ok`, no two the
same, and the others hold 0. `unmarked m n` counts the resources below `n` that a map does not mark.

* `Placed.congr`, `Placed.mono` : the values and the demand on them may change;
* `Placed.extend` : a fresh resource goes into one more cell;
* `Placed.onto` : where there are as many cells in use as resources, every resource is in a cell;
* `unmarked_update` : marking one.
-/

namespace RiscvOsLab

open Function

variable {ι : Type} {dom : ι → Prop} {ok ok' : Nat → Prop} {V V' : ι → Nat} {W : ι → Prop}

structure Placed (dom : ι → Prop) (ok : Nat → Prop) (V : ι → Nat) (W : ι → Prop) : Prop where
  sub : ∀ x, W x → dom x
  good : ∀ x, W x → ok (V x)
  inj : ∀ x y, W x → W y → V x = V y → x = y
  off : ∀ x, dom x → ¬ W x → V x = 0

namespace Placed

theorem congr (h : Placed dom ok V W) (hV : ∀ x, dom x → V' x = V x) : Placed dom ok V' W where
  sub := h.sub
  good x hx := by
    rw [hV x (h.sub x hx)]
    exact h.good x hx
  inj x y hx hy he := by
    rw [hV x (h.sub x hx), hV y (h.sub y hy)] at he
    exact h.inj x y hx hy he
  off x hd hx := by
    rw [hV x hd]
    exact h.off x hd hx

theorem mono (h : Placed dom ok V W) (hok : ∀ n, ok n → ok' n) : Placed dom ok' V W where
  sub := h.sub
  good x hx := hok _ (h.good x hx)
  inj := h.inj
  off := h.off

theorem extend (h : Placed dom ok V W) {x₀ : ι} {n : Nat} (hdom : dom x₀) (hn : ok n)
    (hfresh : ∀ x, W x → V x ≠ n) (hself : V' x₀ = n) (hV : ∀ x, dom x → x ≠ x₀ → V' x = V x) :
    Placed dom ok V' fun x => W x ∨ x = x₀ := by
  -- a cell of the new set holds the fresh number if it is the new cell, else what it held
  have hval (x : ι) (hx : W x ∨ x = x₀) : x = x₀ ∨ x ≠ x₀ ∧ W x ∧ V' x = V x := by
    by_cases he : x = x₀
    · exact .inl he
    · have hw := hx.resolve_right he
      exact .inr ⟨he, hw, hV x (h.sub x hw) he⟩
  refine ⟨fun x hx => ?_, fun x hx => ?_, fun x y hx hy he => ?_, fun x hd hx => ?_⟩
  · rcases hval x hx with rfl | ⟨-, hw, -⟩
    · exact hdom
    · exact h.sub x hw
  · rcases hval x hx with rfl | ⟨-, hw, hv⟩
    · rw [hself]
      exact hn
    · rw [hv]
      exact h.good x hw
  · rcases hval x hx with rfl | ⟨-, hw, hv⟩ <;> rcases hval y hy with rfl | ⟨-, hw', hv'⟩
    · rfl
    · rw [hself, hv'] at he
      exact absurd he.symm (hfresh y hw')
    · rw [hself, hv] at he
      exact absurd he (hfresh x hw)
    · rw [hv, hv'] at he
      exact h.inj x y hw hw' he
  · rw [not_or] at hx
    rw [hV x hd hx.2]
    exact h.off x hd hx.1

/-- As many cells are in use as there are resources: each resource is in one of them. -/
theorem onto (h : Placed dom ok V W) {S : Finset ι} (hS : ∀ x ∈ S, W x) {R : Finset Nat} (hR : ∀ n, ok n → n ∈ R)
    (hcard : R.card ≤ S.card) {n : Nat} (hn : n ∈ R) : ∃ x ∈ S, V x = n := by
  have hinj : Set.InjOn V S := fun x hx y hy he => h.inj x y (hS x hx) (hS y hy) he
  have hsub : S.image V ⊆ R := by
    intro m hm
    obtain ⟨x, hx, rfl⟩ := Finset.mem_image.1 hm
    exact hR _ (h.good x (hS x hx))
  have heq : S.image V = R := by
    apply Finset.eq_of_subset_of_card_le hsub
    rw [Finset.card_image_of_injOn hinj]
    exact hcard
  rw [← heq] at hn
  exact Finset.mem_image.1 hn

/-- The set of the cells in use may be described in another way. -/
theorem of_iff {W' : ι → Prop} (h : Placed dom ok V W) (hW : ∀ x, W' x ↔ W x) : Placed dom ok V W' := by
  have he : W' = W := funext fun x => propext (hW x)
  rwa [he]

/-- The domain may be described in another way. -/
theorem of_dom {dom' : ι → Prop} (h : Placed dom ok V W) (hdom : ∀ x, dom' x ↔ dom x) : Placed dom' ok V W := by
  have he : dom' = dom := funext fun x => propext (hdom x)
  rwa [he]

end Placed

/-- How many numbers below `n` are not marked. -/
def unmarked (m : Nat → Bool) (n : Nat) : Nat := ((Finset.range n).filter fun b => m b = false).card

theorem unmarked_update {m : Nat → Bool} {n b : Nat} (hb : b < n) (hm : m b = false) :
    unmarked (update m b true) n + 1 = unmarked m n := by
  have hmem : b ∈ (Finset.range n).filter fun c => m c = false := by simp [hb, hm]
  have hset : ((Finset.range n).filter fun c => update m b true c = false) =
      ((Finset.range n).filter fun c => m c = false).erase b := by
    ext c
    by_cases hcb : c = b
    · subst hcb
      simp
    · simp [hcb]
  unfold unmarked
  rw [hset, Finset.card_erase_add_one hmem]

theorem unmarked_pos {m : Nat → Bool} {n : Nat} (h : 0 < unmarked m n) : ∃ b < n, m b = false := by
  obtain ⟨b, hb⟩ := Finset.card_pos.1 h
  obtain ⟨hlt, hm⟩ := Finset.mem_filter.1 hb
  exact ⟨b, Finset.mem_range.1 hlt, hm⟩

theorem unmarked_congr {m m' : Nat → Bool} {n : Nat} (h : ∀ b < n, m' b = m b) : unmarked m' n = unmarked m n := by
  unfold unmarked
  congr 1
  apply Finset.filter_congr
  intro b hb
  rw [h b (Finset.mem_range.1 hb)]

end RiscvOsLab
