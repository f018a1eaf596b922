import Mathlib.Algebra.GroupWithZero.Nat
import Mathlib.Logic.Function.Basic
import Mathlib.Data.List.Basic

/-!
# Queues in an array with wrapping indices

An array of `N` cells is used as a queue: the reader is at index `a`, the writer at index `b`, both count up
through all 16 bits, and index `i` means cell `i % N`. `Queued cells a b l` says that the entries between the
two are those of `l`, oldest first.

* `Queued.push`, `Queued.pop` : the writer's and the reader's step;
* `Queued.ne_iff` : the test `a != b` of the reader.

The indices wrap with the array when `N` divides `2^16`.
-/

namespace RiscvOsLab

open Function

variable {α : Type} {N : Nat}

/-- The cell of an index. -/
def slot (N : Nat) [NeZero N] (i : UInt16) : Fin N := Fin.ofNat N i.toNat

structure Queued [NeZero N] (cells : Fin N → α) (a b : UInt16) (l : List α) : Prop where
  len : l.length ≤ N
  stop : b = a + UInt16.ofNat l.length
  cell : ∀ i (h : i < l.length), cells (slot N (a + UInt16.ofNat i)) = l[i]

namespace Queued

variable [NeZero N] {cells : Fin N → α} {a b : UInt16} {l : List α}

theorem nil (cells : Fin N → α) (a : UInt16) : Queued cells a a [] :=
  ⟨Nat.zero_le _, by simp, fun i h => absurd h (Nat.not_lt_zero i)⟩

theorem toNat_slot (hN : N ∣ 2 ^ 16) (i : Nat) : (slot N (a + UInt16.ofNat i)).val = (a.toNat + i) % N := by
  rw [slot, Fin.val_ofNat, UInt16.toNat_add, UInt16.toNat_ofNat', Nat.add_mod_mod, Nat.mod_mod_of_dvd _ hN]

/-- Two entries that are less than `N` apart are in different cells. -/
theorem slot_ne (hN : N ∣ 2 ^ 16) {i j : Nat} (hij : i < j) (hj : j < i + N) :
    slot N (a + UInt16.ofNat i) ≠ slot N (a + UInt16.ofNat j) := by
  intro h
  have hval := congrArg Fin.val h
  rw [toNat_slot hN, toNat_slot hN] at hval
  have hmod : (j - i) % N = 0 := by
    have := Nat.sub_mod_eq_zero_of_mod_eq hval.symm
    rwa [Nat.add_sub_add_left] at this
  rw [Nat.mod_eq_of_lt (by omega)] at hmod
  omega

/-- The writer fills the cell at its index and steps on. -/
theorem push (hN : N ∣ 2 ^ 16) (h : Queued cells a b l) (hl : l.length < N) (x : α) :
    Queued (update cells (slot N b) x) a (b + 1) (l ++ [x]) := by
  refine ⟨by simpa using Nat.succ_le_of_lt hl, ?_, fun i hi => ?_⟩
  · rw [h.stop, List.length_append, List.length_singleton, UInt16.ofNat_add, UInt16.add_assoc]
    rfl
  · rw [List.length_append, List.length_singleton] at hi
    rcases Nat.lt_succ_iff_lt_or_eq.1 hi with hi | rfl
    · rw [h.stop, update_of_ne (slot_ne hN hi (by omega)), h.cell i hi, List.getElem_append_left hi]
    · rw [h.stop, update_self]
      simp

/-- The reader takes the oldest entry. -/
theorem pop {x : α} (h : Queued cells a b (x :: l)) : cells (slot N a) = x ∧ Queued cells (a + 1) b l := by
  have h0 : a + UInt16.ofNat 0 = a := by simp
  refine ⟨h0 ▸ h.cell 0 (Nat.succ_pos _), Nat.le_of_succ_le h.len, ?_, fun i hi => ?_⟩
  · rw [h.stop, List.length_cons, Nat.add_comm, UInt16.ofNat_add, ← UInt16.add_assoc]
    rfl
  · have hi1 : a + 1 + UInt16.ofNat i = a + UInt16.ofNat (i + 1) := by
      rw [Nat.add_comm i, UInt16.ofNat_add, ← UInt16.add_assoc]
      rfl
    rw [hi1]
    exact h.cell (i + 1) (Nat.succ_lt_succ hi)

theorem ne_iff (hN : N < 2 ^ 16) (h : Queued cells a b l) : a ≠ b ↔ l ≠ [] := by
  have hlen := h.len
  rw [h.stop, ne_eq, ne_eq, not_iff_not]
  constructor
  · intro e
    have hz : (UInt16.ofNat l.length).toNat = 0 := by
      have : UInt16.ofNat l.length = 0 := by simpa using e.symm
      rw [this]
      rfl
    rw [UInt16.toNat_ofNat', Nat.mod_eq_of_lt (by omega)] at hz
    exact List.eq_nil_of_length_eq_zero hz
  · rintro rfl
    simp

end Queued

end RiscvOsLab
