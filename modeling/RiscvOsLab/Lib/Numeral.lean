import Mathlib.Data.Nat.Digits.Lemmas

/-!
# Numerals

* `lowDigits b n` : the digits of `n` in base `b`, the least significant first, as a `do`-`while` loop finds
  them (`lowDigits_step`); `0` has one digit;
* `Alphabet` : characters for digits and a sign; `natText`, `intText` : a number in characters;
* `readNat`, `readInt` : the number a text stands for.

A text is read back as the number it was written for (`readInt_intText`), and has no leading zero
(`head_natText`).
-/

namespace RiscvOsLab

/-! ## Digits -/

def lowDigits (b n : Nat) : List Nat := if n = 0 then [0] else Nat.digits b n

theorem lowDigits_step {b : Nat} (hb : 1 < b) (n : Nat) :
    lowDigits b n = n % b :: if n / b = 0 then [] else lowDigits b (n / b) := by
  unfold lowDigits
  rcases Nat.eq_zero_or_pos n with rfl | hn
  · simp
  · rw [if_neg (by omega), Nat.digits_def' hb hn]
    congr 1
    split
    · rename_i hq
      rw [hq, Nat.digits_zero]
    · rfl

theorem lowDigits_ne_nil {b : Nat} (hb : 1 < b) (n : Nat) : lowDigits b n ≠ [] := by
  rw [lowDigits_step hb]
  exact List.cons_ne_nil _ _

theorem ofDigits_lowDigits (b n : Nat) : Nat.ofDigits b (lowDigits b n) = n := by
  unfold lowDigits
  split
  · simp_all
  · exact Nat.ofDigits_digits b n

theorem lowDigits_lt {b n d : Nat} (hb : 1 < b) (hd : d ∈ lowDigits b n) : d < b := by
  unfold lowDigits at hd
  split at hd
  · simp_all
    omega
  · exact Nat.digits_lt_base hb hd

theorem length_lowDigits_le {b n k : Nat} (hb : 1 < b) (hk : 0 < k) (hn : n < b ^ k) :
    (lowDigits b n).length ≤ k := by
  unfold lowDigits
  split
  · exact hk
  · exact (Nat.digits_length_le_iff hb n).2 hn

/-- The most significant digit is a zero only in the digits of zero. -/
theorem getLast_lowDigits {b n : Nat} (h : (lowDigits b n).getLast? = some 0) : lowDigits b n = [0] := by
  unfold lowDigits at h ⊢
  split
  · rfl
  · rename_i hn
    rw [if_neg hn] at h
    have hne : Nat.digits b n ≠ [] := Nat.digits_ne_nil_iff_ne_zero.2 hn
    rw [List.getLast?_eq_some_getLast hne, Option.some.injEq] at h
    exact absurd h (Nat.getLast_digit_ne_zero b hn)

/-! ## Texts -/

/-- Characters for `size` digits and a minus sign. -/
structure Alphabet (α : Type) (size : Nat) where
  char : Nat → α
  value : α → Option Nat
  minus : α
  value_char : ∀ d < size, value (char d) = some d
  value_minus : value minus = none

namespace Alphabet

variable {α : Type} {size : Nat} (A : Alphabet α size)

/-- A natural number in base `b`. -/
def natText (b n : Nat) : List α := ((lowDigits b n).map A.char).reverse

/-- An integer in base `b`. -/
def intText (b : Nat) (v : Int) : List α :=
  if v < 0 then A.minus :: A.natText b v.natAbs else A.natText b v.natAbs

/-- The number written in base `b`; `none` for what is no numeral. -/
def readNat (b : Nat) (t : List α) : Option Nat :=
  if t = [] then none
  else (t.mapM A.value).bind fun ds => if ∀ d ∈ ds, d < b then some (Nat.ofDigits b ds.reverse) else none

theorem mapM_value : ∀ ds : List Nat, (∀ d ∈ ds, d < size) → (ds.map A.char).mapM A.value = some ds
  | [], _ => rfl
  | d :: ds, h => by
      have hd := A.value_char d (h d List.mem_cons_self)
      have ih := mapM_value ds fun e he => h e (List.mem_cons_of_mem _ he)
      rw [List.map_cons, List.mapM_cons, hd, ih]
      rfl

theorem natText_eq (b n : Nat) : A.natText b n = (lowDigits b n).reverse.map A.char := by
  rw [natText, List.map_reverse]

variable {A} {b : Nat}

theorem natText_ne_nil (hb : 1 < b) (n : Nat) : A.natText b n ≠ [] := by
  rw [natText_eq]
  simp [lowDigits_ne_nil hb]

theorem readNat_natText (hb : 1 < b) (hs : b ≤ size) (n : Nat) : A.readNat b (A.natText b n) = some n := by
  have hlt : ∀ d ∈ (lowDigits b n).reverse, d < b := fun d hd =>
    lowDigits_lt hb (List.mem_reverse.1 hd)
  rw [readNat, if_neg (natText_ne_nil hb n), natText_eq,
    A.mapM_value _ fun d hd => Nat.lt_of_lt_of_le (hlt d hd) hs, Option.bind_some, if_pos hlt,
    List.reverse_reverse, ofDigits_lowDigits]

/-- A digit is no sign. -/
theorem char_ne_minus {d : Nat} (hd : d < size) : A.char d ≠ A.minus := by
  intro h
  have := A.value_char d hd
  rw [h, A.value_minus] at this
  cases this

theorem head_natText_ne_minus (hb : 1 < b) (hs : b ≤ size) (n : Nat) :
    (A.natText b n).head? ≠ some A.minus := by
  intro h
  have hmem := List.mem_of_head? h
  rw [natText_eq, List.mem_map] at hmem
  obtain ⟨d, hd, he⟩ := hmem
  exact char_ne_minus (Nat.lt_of_lt_of_le (lowDigits_lt hb (List.mem_reverse.1 hd)) hs) he

theorem char_inj {d e : Nat} (hd : d < size) (he : e < size) (h : A.char d = A.char e) : d = e := by
  have := A.value_char d hd
  rw [h, A.value_char e he, Option.some.injEq] at this
  exact this.symm

/-- No leading zero, except for zero itself. -/
theorem head_natText (hb : 1 < b) (hs : b ≤ size) {n : Nat} (h : (A.natText b n).head? = some (A.char 0)) :
    A.natText b n = [A.char 0] := by
  rw [natText, List.head?_reverse, List.getLast?_map, Option.map_eq_some_iff] at h
  obtain ⟨d, hd, he⟩ := h
  have hlt := lowDigits_lt hb (List.mem_of_getLast? hd)
  have hzero : d = 0 := char_inj (by omega) (by omega) he
  subst hzero
  rw [natText, getLast_lowDigits hd]
  rfl

theorem head_intText (hb : 1 < b) (hs : b ≤ size) (v : Int) :
    (A.intText b v).head? = some A.minus ↔ v < 0 := by
  unfold intText
  split
  · simp [*]
  · simp only [head_natText_ne_minus hb hs, false_iff]
    assumption

/-! ## Reading a sign -/

variable (A) [DecidableEq α]

/-- A text without its sign. -/
def unsigned (t : List α) : List α := if t.head? = some A.minus then t.tail else t

def readInt (b : Nat) (t : List α) : Option Int :=
  if t.head? = some A.minus then (A.readNat b t.tail).map fun n : Nat => - (n : Int)
  else (A.readNat b t).map fun n : Nat => (n : Int)

variable {A}

theorem unsigned_intText (hb : 1 < b) (hs : b ≤ size) (v : Int) :
    A.unsigned (A.intText b v) = A.natText b v.natAbs := by
  unfold unsigned
  simp only [head_intText hb hs]
  unfold intText
  split <;> rfl

/-- What is written is read back. -/
theorem readInt_intText (hb : 1 < b) (hs : b ≤ size) (v : Int) : A.readInt b (A.intText b v) = some v := by
  unfold readInt
  simp only [head_intText hb hs]
  unfold intText
  split
  · rw [List.tail_cons, readNat_natText hb hs, Option.map_some, Option.some.injEq]
    omega
  · rw [readNat_natText hb hs, Option.map_some, Option.some.injEq]
    omega

end Alphabet

end RiscvOsLab
