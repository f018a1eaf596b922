import Mathlib.Logic.Function.Basic
import Mathlib.Data.List.Basic

/-!
# A linked list in memory

`Linked next head l`: from the pointer `head` the cells of `l` are linked by `next`, the last to the null pointer.

* `Linked.unique` : the pointers determine the list;
* `Linked.frame`, `Linked.congr` : writes to cells off the list;
* `Linked.push`, `Linked.pop` : at the head.
-/

namespace RiscvOsLab

open Function

variable {α : Type} {next : α → Option α} {head : Option α} {l : List α}

def Linked (next : α → Option α) : Option α → List α → Prop
  | head, [] => head = none
  | head, a :: l => head = some a ∧ Linked next (next a) l

namespace Linked

theorem unique : ∀ {head : Option α} {l m : List α}, Linked next head l → Linked next head m → l = m
  | _, [], [], _, _ => rfl
  | _, [], _ :: _, h, h' => absurd (h.symm.trans h'.1) (by simp)
  | _, _ :: _, [], h, h' => absurd (h'.symm.trans h.1) (by simp)
  | _, a :: l, b :: m, h, h' => by
      obtain rfl : a = b := Option.some.inj (h.1.symm.trans h'.1)
      rw [unique h.2 h'.2]

theorem frame [DecidableEq α] {a : α} (x : Option α) : ∀ {head : Option α} {l : List α}, Linked next head l →
    a ∉ l → Linked (update next a x) head l
  | _, [], h, _ => h
  | _, b :: l, h, ha => by
      have hb : b ≠ a := fun e => ha (e ▸ List.mem_cons_self)
      refine ⟨h.1, ?_⟩
      rw [update_of_ne hb]
      exact frame x h.2 fun hm => ha (List.mem_cons_of_mem _ hm)

theorem congr {next' : α → Option α} : ∀ {head : Option α} {l : List α}, Linked next head l →
    (∀ a ∈ l, next' a = next a) → Linked next' head l
  | _, [], h, _ => h
  | _, b :: l, h, heq => by
      refine ⟨h.1, ?_⟩
      rw [heq b List.mem_cons_self]
      exact congr h.2 fun a ha => heq a (List.mem_cons_of_mem _ ha)

theorem push {a : α} (h : Linked next head l) (ha : next a = head) : Linked next (some a) (a :: l) :=
  ⟨rfl, ha.symm ▸ h⟩

theorem pop {a : α} (h : Linked next (some a) l) : ∃ m, l = a :: m ∧ Linked next (next a) m := by
  cases l with
  | nil => exact absurd h (by simp [Linked])
  | cons b m =>
      obtain rfl : a = b := Option.some.inj h.1
      exact ⟨m, rfl, h.2⟩

end Linked

end RiscvOsLab
