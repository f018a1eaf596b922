import RiscvOsLab.Fs.Disk

/-!
# Files without holes

* `Shape sb T cnt` : the slots in use when inode `i` has `cnt i` blocks, the first ones, and the indirect block when
  they need it;
* `contents D din` : the bytes of a file;
* `Structural sb D T` : the invariant of the file system in its own words: the block numbers in the inodes of `T` are
  in the data area, marked, all different, and there are as many as the sizes say. `Structural.rep` and `Rep.structural`
  connect it to `Rep`.
-/

namespace RiscvOsLab.Fs

open Bytes Function

/-- Blocks of a file of this size. -/
def nblk (size : Nat) : Nat := (size + BSIZE - 1) / BSIZE

def sizeCnt (T : Nat → Dinode) (i : Nat) : Nat := nblk (T i).size.toNat

/-- Bytes of the largest file. -/
def MAXBYTES : Nat := (NDIRECT + NINDIRECT) * BSIZE

/-- The bytes of a file. -/
def contents (D : Nat → Block) (din : Dinode) (o : Nat) : UInt8 :=
  D (slotVal D din (slotOf (o / BSIZE))) (o % BSIZE)

def Shape (sb : Superblock) (T : Nat → Dinode) (cnt : Nat → Nat) (x : Nat × Nat) : Prop :=
  Used sb T x.1 ∧ x.2 < SLOTS ∧ if x.2 ≤ NDIRECT then x.2 < cnt x.1 else x.2 ≤ cnt x.1

section Shape
variable {sb : Superblock} {T : Nat → Dinode} {cnt : Nat → Nat} {i bn : Nat}

theorem shape_slotOf : Shape sb T cnt (i, slotOf bn) ↔ Used sb T i ∧ bn < NDIRECT + NINDIRECT ∧ bn < cnt i := by
  unfold Shape slotOf SLOTS
  simp only
  by_cases h : bn < NDIRECT
  · rw [if_pos h, if_pos (Nat.le_of_lt h)]
    refine and_congr_right fun _ => ⟨fun hx => ⟨?_, hx.2⟩, fun hx => ⟨?_, hx.2⟩⟩ <;> omega
  · rw [if_neg h, if_neg (by omega)]
    refine and_congr_right fun _ => ⟨fun hx => ⟨?_, ?_⟩, fun hx => ⟨?_, ?_⟩⟩ <;> omega

theorem shape_indirect : Shape sb T cnt (i, NDIRECT) ↔ Used sb T i ∧ NDIRECT < cnt i := by
  unfold Shape SLOTS
  simp only [Nat.le_refl, if_true]
  exact and_congr_right fun _ => ⟨fun hx => hx.2, fun hx => ⟨by omega, hx⟩⟩

/-- A slot is the indirect block's or that of a logical block. -/
theorem slot_cases {j : Nat} (h : j < SLOTS) : j = NDIRECT ∨ ∃ bn, bn < NDIRECT + NINDIRECT ∧ j = slotOf bn := by
  unfold SLOTS at h
  by_cases hj : j < NDIRECT
  · exact .inr ⟨j, by omega, (if_pos hj).symm⟩
  · by_cases he : j = NDIRECT
    · exact .inl he
    · refine .inr ⟨j - 1, by omega, ?_⟩
      unfold slotOf
      rw [if_neg (by omega)]
      omega

/-- One block more for inode `i`. -/
theorem shape_succ {n : Nat} (hi : Used sb T i) (hn : n < NDIRECT + NINDIRECT) (x : Nat × Nat) :
    Shape sb T (update cnt i (n + 1)) x ↔
      (Shape sb T (update cnt i n) x ∨ n = NDIRECT ∧ x = (i, NDIRECT)) ∨ x = (i, slotOf n) := by
  obtain ⟨k, j⟩ := x
  by_cases hk : k = i
  · subst hk
    by_cases hj : j < SLOTS
    · rcases slot_cases hj with rfl | ⟨bn, hbn, rfl⟩
      · have hne : NDIRECT ≠ slotOf n := Ne.symm (slotOf_ne n)
        simp only [shape_indirect, update_self, hi, true_and, Prod.mk.injEq, hne, and_false, and_true, or_false]
        omega
      · have hne : slotOf bn ≠ NDIRECT := slotOf_ne bn
        have hiff : slotOf bn = slotOf n ↔ bn = n := ⟨slotOf_inj, fun e => by rw [e]⟩
        simp only [shape_slotOf, update_self, hi, hbn, true_and, Prod.mk.injEq, hne, and_false, or_false, hiff]
        omega
    · have hslot := slotOf_lt hn
      have hind : NDIRECT < SLOTS := by
        unfold SLOTS
        omega
      have hx (m : Nat) : ¬ Shape sb T (update cnt k m) (k, j) := fun hx => hj hx.2.1
      simp only [hx, Prod.mk.injEq, true_and, false_or, false_iff]
      rintro (⟨-, rfl⟩ | rfl)
      · exact hj hind
      · exact hj hslot
  · unfold Shape
    simp only [update_of_ne hk, Prod.mk.injEq, hk, false_and, and_false, or_false]

end Shape

/-! ## The sizes -/

theorem nblk_le_iff {size n : Nat} : nblk size ≤ n ↔ size ≤ n * BSIZE := by
  unfold nblk BSIZE
  omega

theorem lt_nblk_iff {size bn : Nat} : bn < nblk size ↔ bn * BSIZE < size := by
  unfold nblk BSIZE
  omega

theorem div_lt_nblk {size o : Nat} (h : o < size) : o / BSIZE < nblk size := by
  unfold nblk BSIZE
  omega

theorem nblk_mono {a b : Nat} (h : a ≤ b) : nblk a ≤ nblk b := Nat.div_le_div_right (by omega)

theorem nblk_le_max {size : Nat} (h : size ≤ MAXBYTES) : nblk size ≤ NDIRECT + NINDIRECT := by
  rwa [nblk_le_iff]

/-! ## The invariant -/

/-- The invariant of the file system, for the inode table `T`. -/
structure Structural (sb : Superblock) (D : Nat → Block) (T : Nat → Dinode) : Prop where
  geo : Geometry sb
  super : sbAt (D 1) = sb
  metaMarked : ∀ b, b < nmeta sb → b < mapSize sb.size → marked sb D b = true
  inArea : ∀ i j, Used sb T i → j < SLOTS → slotVal D (T i) j ≠ 0 →
    nmeta sb ≤ slotVal D (T i) j ∧ slotVal D (T i) j < mapSize sb.size ∧ marked sb D (slotVal D (T i) j) = true
  once : ∀ i j i' j', Used sb T i → j < SLOTS → Used sb T i' → j' < SLOTS → slotVal D (T i) j ≠ 0 →
    slotVal D (T i) j = slotVal D (T i') j' → i = i' ∧ j = j'
  sizes : ∀ i, Used sb T i → (T i).size.toNat ≤ MAXBYTES
  mapped : ∀ i bn, Used sb T i → bn < NDIRECT + NINDIRECT →
    (slotVal D (T i) (slotOf bn) ≠ 0 ↔ bn < nblk (T i).size.toNat)
  indirect : ∀ i, Used sb T i → (slotVal D (T i) NDIRECT ≠ 0 ↔ NDIRECT < nblk (T i).size.toNat)

section Structural
variable {sb : Superblock} {D : Nat → Block} {T : Nat → Dinode} {blk : Nat → Nat → Block}

theorem Structural.shape (h : Structural sb D T) {i j : Nat} (hi : Used sb T i) (hj : j < SLOTS) :
    Shape sb T (sizeCnt T) (i, j) ↔ slotVal D (T i) j ≠ 0 := by
  rcases slot_cases hj with rfl | ⟨bn, hbn, rfl⟩
  · rw [shape_indirect, h.indirect i hi]
    exact and_iff_right hi
  · rw [shape_slotOf, h.mapped i bn hi hbn]
    exact ⟨fun hx => hx.2.2, fun hx => ⟨hi, hbn, hx⟩⟩

/-- What is stored is what the slots give. -/
theorem Structural.rep (h : Structural sb D T) :
    Rep sb D T (Shape sb T (sizeCnt T)) fun i bn => D (slotVal D (T i) (slotOf bn)) where
  geo := h.geo
  super := h.super
  metaMarked := h.metaMarked
  placed := by
    refine ⟨fun x hx => ⟨hx.1, hx.2.1⟩, fun x hx => ?_, fun x y hx hy he => ?_, fun x hd hx => ?_⟩
    · exact h.inArea x.1 x.2 hx.1 hx.2.1 ((h.shape hx.1 hx.2.1).1 hx)
    · have honce := h.once x.1 x.2 y.1 y.2 hx.1 hx.2.1 hy.1 hy.2.1 ((h.shape hx.1 hx.2.1).1 hx) he
      exact Prod.ext honce.1 honce.2
    · by_contra h0
      exact hx ((h.shape hd.1 hd.2).2 h0)
  ind i j hw hj := by
    obtain ⟨hi, -, hcnt⟩ := hw
    rw [if_neg (by simpa using hj)] at hcnt
    exact shape_indirect.2 ⟨hi, lt_of_lt_of_le hj hcnt⟩
  data _ _ _ _ _ := rfl

theorem Rep.slot_ne_zero_iff {W : Nat × Nat → Prop} (h : Rep sb D T W blk) {i j : Nat} (hi : Used sb T i)
    (hj : j < SLOTS) : slotVal D (T i) j ≠ 0 ↔ W (i, j) := by
  constructor
  · intro h0
    by_contra hw
    exact h0 (h.placed.off (i, j) ⟨hi, hj⟩ hw)
  · exact fun hw => h.pos hw

theorem Rep.structural (h : Rep sb D T (Shape sb T (sizeCnt T)) blk)
    (hsize : ∀ i, Used sb T i → (T i).size.toNat ≤ MAXBYTES) : Structural sb D T where
  geo := h.geo
  super := h.super
  metaMarked := h.metaMarked
  inArea i j hi hj h0 := h.placed.good (i, j) ((h.slot_ne_zero_iff hi hj).1 h0)
  once i j i' j' hi hj hi' hj' h0 he := by
    have hw := (h.slot_ne_zero_iff hi hj).1 h0
    have hw' := (h.slot_ne_zero_iff hi' hj').1 (he ▸ h0)
    exact Prod.mk.inj (h.placed.inj _ _ hw hw' he)
  sizes := hsize
  mapped i bn hi hbn := by
    rw [h.slot_ne_zero_iff hi (slotOf_lt hbn), shape_slotOf]
    exact ⟨fun hx => hx.2.2, fun hx => ⟨hi, hbn, hx⟩⟩
  indirect i hi := by
    rw [h.slot_ne_zero_iff hi (by unfold SLOTS; omega), shape_indirect]
    exact and_iff_right hi

/-- The bytes of a file are those of its blocks. -/
theorem Rep.contents_eq (h : Rep sb D T (Shape sb T (sizeCnt T)) blk)
    (hsize : ∀ i, Used sb T i → (T i).size.toNat ≤ MAXBYTES) {i o : Nat} (hi : Used sb T i)
    (ho : o < (T i).size.toNat) : contents D (T i) o = blk i (o / BSIZE) (o % BSIZE) := by
  have hblk := div_lt_nblk ho
  have hmax := nblk_le_max (hsize i hi)
  exact h.data i (o / BSIZE) (shape_slotOf.2 ⟨hi, by omega, hblk⟩) _ (Nat.mod_lt _ (by decide))

end Structural

end RiscvOsLab.Fs
