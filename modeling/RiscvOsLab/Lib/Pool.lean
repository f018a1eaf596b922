import Mathlib.Data.Finset.Basic
import Mathlib.Data.Finset.Lattice.Lemmas

/-!
# A pool of units

Each unit is free or held. `Pool.Step` takes a free unit, gives a held one back, or finds that nothing is free; the units
of the pool stay what they are (`units_take`, `units_give`).
-/

namespace RiscvOsLab

variable {α : Type} [DecidableEq α]

structure Pool (α : Type) [DecidableEq α] where
  free : Finset α
  held : Finset α
  disjoint : ∀ a ∈ free, a ∉ held

namespace Pool

def units (P : Pool α) : Finset α := P.free ∪ P.held

/-- All units are free. -/
def full (A : Finset α) : Pool α := ⟨A, ∅, fun _ _ => Finset.notMem_empty _⟩

def take (P : Pool α) (a : α) : Pool α where
  free := P.free.erase a
  held := insert a P.held
  disjoint b hb := by
    obtain ⟨hne, hfree⟩ := Finset.mem_erase.1 hb
    intro hin
    rcases Finset.mem_insert.1 hin with he | hheld
    · exact hne he
    · exact P.disjoint b hfree hheld

def give (P : Pool α) (a : α) : Pool α where
  free := insert a P.free
  held := P.held.erase a
  disjoint b hb := by
    intro hin
    obtain ⟨hne, hheld⟩ := Finset.mem_erase.1 hin
    rcases Finset.mem_insert.1 hb with he | hfree
    · exact hne he
    · exact P.disjoint b hfree hheld

inductive Step : Pool α → Pool α → Prop
  | take {P : Pool α} {a : α} : a ∈ P.free → Step P (P.take a)
  | give {P : Pool α} {a : α} : a ∈ P.held → Step P (P.give a)
  | none {P : Pool α} : P.free = ∅ → Step P P

@[simp] theorem units_full (A : Finset α) : (full A).units = A := Finset.union_empty A

theorem units_take {P : Pool α} {a : α} (h : a ∈ P.free) : (P.take a).units = P.units := by
  ext b
  simp only [units, take, Finset.mem_union, Finset.mem_erase, Finset.mem_insert]
  by_cases hb : b = a
  · rw [hb]
    simp [h]
  · simp [hb]

theorem units_give {P : Pool α} {a : α} (h : a ∈ P.held) : (P.give a).units = P.units := by
  ext b
  simp only [units, give, Finset.mem_union, Finset.mem_erase, Finset.mem_insert]
  by_cases hb : b = a
  · rw [hb]
    simp [h]
  · simp [hb]

end Pool

end RiscvOsLab
