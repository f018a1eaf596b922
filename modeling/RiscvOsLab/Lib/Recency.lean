import Mathlib.Data.List.Nodup
import Mathlib.Logic.Function.Basic

/-!
# Lists in the order of last use

`Newest stamp l` : the members of `l` stand in the order of their stamps, the newest first. Moving a member to the
front when it is stamped anew keeps the order (`Newest.touch`); the first member from the back that passes a test
is the oldest that does (`Newest.oldest`).
-/

namespace RiscvOsLab

open Function

variable {α : Type} {stamp : α → Nat} {l : List α}

def Newest (stamp : α → Nat) (l : List α) : Prop := l.Pairwise fun a b => stamp b < stamp a

namespace Newest

theorem congr {stamp' : α → Nat} (h : Newest stamp l) (he : ∀ a ∈ l, stamp' a = stamp a) : Newest stamp' l := by
  apply List.Pairwise.imp_of_mem _ h
  intro a b ha hb hab
  rwa [he a ha, he b hb]

theorem touch [DecidableEq α] (h : Newest stamp l) (hnd : l.Nodup) {now : Nat} (hnow : ∀ a, stamp a < now)
    (b : α) : Newest (update stamp b now) (b :: l.erase b) := by
  apply List.Pairwise.cons
  · intro a ha
    have hab : a ≠ b := fun e => hnd.not_mem_erase (e ▸ ha)
    rw [update_self, update_of_ne hab]
    exact hnow a
  · have herase : Newest stamp (l.erase b) := List.Pairwise.sublist List.erase_sublist h
    apply herase.congr
    intro a ha
    exact update_of_ne (fun e => hnd.not_mem_erase (e ▸ ha)) _ _

theorem oldest (h : Newest stamp l) {p : α → Bool} {b : α} (hb : l.reverse.find? p = some b) :
    ∀ c ∈ l, p c = true → c ≠ b → stamp b < stamp c := by
  intro c hc hp hne
  obtain ⟨-, as, bs, heq, hnot⟩ := List.find?_eq_some_iff_append.1 hb
  have hl : l = bs.reverse ++ b :: as.reverse := by
    have := congrArg List.reverse heq
    simpa using this
  have hpair : Newest stamp (bs.reverse ++ b :: as.reverse) := hl ▸ h
  have hmem : c ∈ bs.reverse ++ b :: as.reverse := hl ▸ hc
  rcases List.mem_append.1 hmem with hfront | hback
  · exact (List.pairwise_append.1 hpair).2.2 c hfront b List.mem_cons_self
  · rcases List.mem_cons.1 hback with rfl | hback
    · exact absurd rfl hne
    · have := hnot c (List.mem_reverse.1 hback)
      simp [hp] at this

end Newest

end RiscvOsLab
