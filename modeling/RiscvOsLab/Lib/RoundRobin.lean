import RiscvOsLab.Lib.Trans
import Mathlib.Data.List.Basic

/-!
# Round robin

A server goes round `n` places. At a place it passes on, or it serves whoever is there until that one is done, and
then passes on.

* `ahead i q` : the places from `i` to `q`;
* `Waits q` : the steps of the server at which `q`, who wants to be served, is not;
* `Waits.bypassed` : until `q` is served, the others are served in the order of their places, none of them twice.
-/

namespace RiscvOsLab.RoundRobin

variable {n : Nat}

/-- The place after `i`. -/
def next (i : Fin n) : Fin n := if h : i.val + 1 < n then ⟨i.val + 1, h⟩ else ⟨0, Nat.zero_lt_of_lt i.isLt⟩

/-- The number of places from `i` to `q`. -/
def ahead (i q : Fin n) : Nat := if i.val ≤ q.val then q.val - i.val else n - i.val + q.val

theorem ahead_lt (i q : Fin n) : ahead i q < n := by
  have hi := i.isLt
  have hq := q.isLt
  unfold ahead
  split <;> omega

theorem ahead_pos {i q : Fin n} (h : i ≠ q) : 0 < ahead i q := by
  have hi := i.isLt
  have hne : i.val ≠ q.val := fun he => h (Fin.ext he)
  unfold ahead
  split <;> omega

theorem ahead_self (q : Fin n) : ahead q q = 0 := by
  rw [ahead, if_pos (Nat.le_refl _), Nat.sub_self]

theorem ahead_next {i q : Fin n} (h : i ≠ q) : ahead (next i) q + 1 = ahead i q := by
  have hi := i.isLt
  have hq := q.isLt
  have hne : i.val ≠ q.val := fun he => h (Fin.ext he)
  unfold next ahead
  by_cases hlast : i.val + 1 < n
  · rw [dif_pos hlast]
    show (if i.val + 1 ≤ q.val then q.val - (i.val + 1) else n - (i.val + 1) + q.val) + 1 = _
    split <;> split <;> omega
  · rw [dif_neg hlast]
    show (if 0 ≤ q.val then q.val - 0 else n - 0 + q.val) + 1 = _
    split <;> split <;> omega

/-- Where the server is, and whether it serves there. -/
structure Round (n : Nat) where
  place : Fin n
  busy : Bool

inductive Event (n : Nat) where
  | pass
  | serve (i : Fin n)
  | done
  | stay

/-- The places that are served. -/
def served : List (Event n) → List (Fin n)
  | [] => []
  | .serve i :: es => i :: served es
  | _ :: es => served es

/-- The turns that the server takes: it serves or passes. -/
def turns : List (Event n) → Nat
  | [] => 0
  | .serve _ :: es => turns es + 1
  | .pass :: es => turns es + 1
  | _ :: es => turns es

/-- A step of the server while `q` wants to be served, and is not. -/
inductive Waits (q : Fin n) (s : Round n) : Event n → Round n → Prop
  | pass : s.busy = false → s.place ≠ q → Waits q s .pass ⟨next s.place, false⟩
  | serve : s.busy = false → s.place ≠ q → Waits q s (.serve s.place) ⟨s.place, true⟩
  | done : s.busy = true → s.place ≠ q → Waits q s .done ⟨next s.place, false⟩
  | stay : Waits q s .stay s

/-- The turns that are left before `q` is served. -/
def left (q : Fin n) (s : Round n) : Nat := ahead s.place q + if s.busy then 0 else 1

/-- What `es` has done to `q`, who waits. -/
structure Bypassed (q : Fin n) (s : Round n) (es : List (Event n)) (t : Round n) : Prop where
  turns : turns es + left q t = left q s
  order : (served es).Pairwise fun i j => ahead j q < ahead i q
  below : ∀ i ∈ served es, ahead i q < left q s

theorem left_idle (q i : Fin n) : left q ⟨i, false⟩ = ahead i q + 1 := rfl

theorem left_busy (q i : Fin n) : left q ⟨i, true⟩ = ahead i q := rfl

theorem Waits.bypassed {q : Fin n} {s t : Round n} {es : List (Event n)} (h : Trace (Waits q) s es t) :
    Bypassed q s es t := by
  induction h with
  | nil => exact ⟨Nat.zero_add _, .nil, fun i hi => absurd hi List.not_mem_nil⟩
  | @cons s s₁ t e es hst _ ih =>
      obtain ⟨hturns, horder, hbelow⟩ := ih
      obtain ⟨i, b⟩ := s
      cases hst with
      | pass hidle hne =>
          obtain rfl : b = false := hidle
          rw [left_idle, ahead_next hne] at hturns hbelow
          refine ⟨?_, horder, fun j hj => Nat.lt_succ_of_lt (hbelow j hj)⟩
          show RoundRobin.turns es + 1 + left q t = ahead i q + 1
          rw [Nat.add_right_comm, hturns]
      | serve hidle hne =>
          obtain rfl : b = false := hidle
          rw [left_busy] at hturns hbelow
          refine ⟨?_, ?_, fun j hj => ?_⟩
          · rw [left_idle]
            show RoundRobin.turns es + 1 + left q t = ahead i q + 1
            rw [Nat.add_right_comm, hturns]
          · exact List.pairwise_cons.2 ⟨hbelow, horder⟩
          · rw [left_idle]
            rcases List.mem_cons.1 hj with rfl | hj
            · exact Nat.lt_succ_self _
            · exact Nat.lt_succ_of_lt (hbelow j hj)
      | done hbusy hne =>
          obtain rfl : b = true := hbusy
          rw [left_idle, ahead_next hne] at hturns hbelow
          exact ⟨hturns, horder, hbelow⟩
      | stay => exact ⟨hturns, horder, hbelow⟩

/-- Who is being served at the end is not `q`. -/
theorem Waits.left_pos {q : Fin n} {s t : Round n} {es : List (Event n)} (h : Trace (Waits q) s es t)
    (hs : 0 < left q s) : 0 < left q t := by
  induction h with
  | nil => exact hs
  | cons hst _ ih =>
      refine ih ?_
      cases hst with
      | pass => exact Nat.succ_pos _
      | serve _ hne => exact ahead_pos hne
      | done => exact Nat.succ_pos _
      | stay => exact hs

namespace Bypassed

variable {q : Fin n} {s t : Round n} {es : List (Event n)}

theorem nodup (h : Bypassed q s es t) : (served es).Nodup := by
  refine h.order.imp ?_
  intro i j hij heq
  exact absurd hij (heq ▸ Nat.lt_irrefl _)

theorem turns_lt (h : Bypassed q s es t) (ht : 0 < left q t) : RoundRobin.turns es < n := by
  have hlt := ahead_lt s.place q
  have hturns := h.turns
  have hle : left q s ≤ ahead s.place q + 1 := by
    unfold left
    split <;> omega
  omega

end Bypassed

end RiscvOsLab.RoundRobin
