import RiscvOsLab.Fs.Fs

/-!
# Names

What a buffer `char name[DIRSIZ]` says: the bytes before the first NUL, all of them if there is none.

* `Name`, `nameOf` : names as values; whatever follows the NUL does not count;
* `nameMatch_iff` : the comparison of `dirlookup` is equality of names;
* `nameOf_deName_mkDirent` : the entry written for a name has that name.
-/

namespace RiscvOsLab.Fs

open Bytes Function

/-- The bytes of a buffer from `i` on before the first NUL, `k` at most. -/
def nameFrom (b : Bytes) : Nat → Nat → List UInt8
  | 0, _ => []
  | k + 1, i => if b i = 0 then [] else b i :: nameFrom b k (i + 1)

section NameFrom
variable {a b : Bytes}

theorem length_nameFrom (b : Bytes) : ∀ k i, (nameFrom b k i).length ≤ k
  | 0, _ => Nat.le_refl 0
  | k + 1, i => by
      unfold nameFrom
      split
      · exact Nat.zero_le _
      · exact Nat.succ_le_succ (length_nameFrom b k (i + 1))

theorem ne_zero_of_mem_nameFrom {x : UInt8} : ∀ {k i}, x ∈ nameFrom b k i → x ≠ 0
  | k + 1, i, h => by
      unfold nameFrom at h
      split at h
      · exact absurd h (List.not_mem_nil)
      · rename_i hne
        rcases List.mem_cons.1 h with rfl | hx
        · exact hne
        · exact ne_zero_of_mem_nameFrom hx

/-- Only the bytes up to the first NUL matter. -/
theorem nameFrom_congr : ∀ {k i}, (∀ j < k, (∀ m < j, b (i + m) ≠ 0) → a (i + j) = b (i + j)) →
    nameFrom a k i = nameFrom b k i
  | 0, _, _ => Eq.refl []
  | k + 1, i, h => by
      have hi : a i = b i := h 0 (Nat.succ_pos k) fun m hm => absurd hm (Nat.not_lt_zero m)
      unfold nameFrom
      rw [hi]
      by_cases h0 : b i = 0
      · rw [if_pos h0, if_pos h0]
      · rw [if_neg h0, if_neg h0]
        congr 1
        apply nameFrom_congr
        intro j hj hpre
        rw [Nat.add_right_comm, Nat.add_assoc]
        refine h (j + 1) (Nat.succ_lt_succ hj) fun m hm => ?_
        cases m with
        | zero => exact h0
        | succ m =>
            have := hpre m (Nat.lt_of_succ_lt_succ hm)
            rwa [Nat.add_right_comm, Nat.add_assoc] at this

/-- A buffer that holds a text without NUL. -/
theorem nameFrom_getD : ∀ {k i} {l : List UInt8}, (∀ x ∈ l, x ≠ 0) → l.length ≤ k →
    (∀ j < k, j ≤ l.length → b (i + j) = l.getD j 0) → nameFrom b k i = l
  | 0, _, l, _, hlen, _ => (List.length_eq_zero_iff.1 (Nat.le_zero.1 hlen)).symm
  | k + 1, i, l, hl, hlen, h => by
      have hi : b i = l.getD 0 0 := h 0 (Nat.succ_pos k) (Nat.zero_le _)
      unfold nameFrom
      rw [hi]
      cases l with
      | nil => exact if_pos List.getD_nil
      | cons x l =>
          rw [List.getD_cons_zero, if_neg (hl x List.mem_cons_self)]
          congr 1
          refine nameFrom_getD (fun y hy => hl y (List.mem_cons_of_mem x hy)) (Nat.le_of_succ_le_succ hlen)
            fun j hj hle => ?_
          rw [Nat.add_right_comm, Nat.add_assoc, h (j + 1) (Nat.succ_lt_succ hj) (Nat.succ_le_succ hle),
            List.getD_cons_succ]

theorem nameMatch_iff_nameFrom (a b : Bytes) :
    ∀ k i, nameMatch a b k i = true ↔ nameFrom a k i = nameFrom b k i
  | 0, _ => iff_of_true (Eq.refl true) (Eq.refl [])
  | k + 1, i => by
      unfold nameMatch nameFrom
      by_cases hab : a i = b i
      · rw [if_neg (not_not.2 hab), hab]
        by_cases h0 : b i = 0
        · rw [if_pos h0, if_pos h0, if_pos h0]
          exact iff_of_true (Eq.refl true) (Eq.refl [])
        · rw [if_neg h0, if_neg h0, if_neg h0, nameMatch_iff_nameFrom a b k (i + 1)]
          exact ⟨fun h => by rw [h], fun h => (List.cons.inj h).2⟩
      · -- the first bytes differ, so that one of them is not the NUL
        rw [if_pos hab]
        refine iff_of_false Bool.false_ne_true fun h => ?_
        split at h <;> split at h
        · rename_i ha hb
          exact hab (ha.trans hb.symm)
        · exact absurd h.symm (List.cons_ne_nil _ _)
        · exact absurd h (List.cons_ne_nil _ _)
        · exact hab (List.cons.inj h).1

end NameFrom

/-- What `char name[DIRSIZ]` can say. -/
structure Name where
  bytes : List UInt8
  short : bytes.length ≤ DIRSIZ
  proper : ∀ x ∈ bytes, x ≠ 0
  deriving DecidableEq

/-- The name in a buffer. -/
def nameOf (b : Bytes) : Name := ⟨nameFrom b DIRSIZ 0, length_nameFrom b _ _, fun _ => ne_zero_of_mem_nameFrom⟩

/-- A buffer with this name. -/
def Name.buffer (n : Name) : Bytes := fun i => n.bytes.getD i 0

theorem Name.ext {m n : Name} (h : m.bytes = n.bytes) : m = n := by
  cases m
  cases n
  cases h
  rfl

@[simp] theorem nameOf_buffer (n : Name) : nameOf n.buffer = n := by
  apply Name.ext
  refine nameFrom_getD n.proper n.short fun j _ _ => ?_
  rw [Nat.zero_add]
  rfl

/-- The comparison of `dirlookup`. -/
theorem nameMatch_iff (a b : Bytes) : nameMatch a b DIRSIZ 0 = true ↔ nameOf a = nameOf b := by
  rw [nameMatch_iff_nameFrom]
  exact ⟨fun h => Name.ext h, fun h => congrArg Name.bytes h⟩

/-- The entry for a name. -/
theorem deName_mkDirent (inum : UInt16) (name : Bytes) {i : Nat} (hi : i < DIRSIZ) :
    deName (mkDirent inum name) i = if ∀ j ≤ i, name j ≠ 0 then name i else 0 := by
  unfold deName mkDirent put16
  rw [blit_out (.inr (Nat.le_add_right _ _)), Nat.add_sub_cancel_left]
  by_cases h : ∀ j ≤ i, name j ≠ 0
  · rw [if_pos h, if_pos ⟨Nat.le_add_right _ _, Nat.add_lt_add_left hi 2, h⟩]
  · rw [if_neg h, if_neg fun hc => h hc.2.2]

@[simp] theorem nameOf_deName_mkDirent (inum : UInt16) (name : Bytes) :
    nameOf (deName (mkDirent inum name)) = nameOf name := by
  apply Name.ext
  refine nameFrom_congr fun j hj hpre => ?_
  simp only [Nat.zero_add] at hpre ⊢
  rw [deName_mkDirent inum name hj]
  by_cases h0 : name j = 0
  · rw [if_neg fun h => h j (Nat.le_refl j) h0, h0]
  · refine if_pos fun m hm => ?_
    rcases Nat.lt_or_eq_of_le hm with hlt | rfl
    · exact hpre m hlt
    · exact h0

end RiscvOsLab.Fs
