import RiscvOsLab.Fs.Create

/-!
# Disks after a power cut

A call that is cut off leaves the disk between two of its writes. What can still be relied on:

* `Anchored sb D T` : the weak form of `Structural`. The block numbers in the inodes of `T` are in the data area, marked
  and all different, and the blocks below the sizes are there; an indirect block may name more. `Anchored.rep`,
  `Rep.anchored` and `Rep.restrict` connect it to `Rep`, the last for an inode table that knows fewer blocks;
* `Recoverable sb D` : the weak form of `DiskOk`;
* `Torn sb D D' i src off m` : `m` bytes of a write to inode `i` are on the disk and no inode has changed;
  `WriteCut` : what a write leaves that is cut off, `WriteCut.recoverable` : the disk is recoverable then.
-/

namespace RiscvOsLab.Fs

open Bytes Function

/-! ## The weak invariant -/

structure Anchored (sb : Superblock) (D : Nat → Block) (T : Nat → Dinode) : Prop where
  geo : Geometry sb
  super : sbAt (D 1) = sb
  metaMarked : ∀ b, b < nmeta sb → b < mapSize sb.size → marked sb D b = true
  inArea : ∀ i j, Used sb T i → j < SLOTS → slotVal D (T i) j ≠ 0 →
    nmeta sb ≤ slotVal D (T i) j ∧ slotVal D (T i) j < mapSize sb.size ∧ marked sb D (slotVal D (T i) j) = true
  once : ∀ i j i' j', Used sb T i → j < SLOTS → Used sb T i' → j' < SLOTS → slotVal D (T i) j ≠ 0 →
    slotVal D (T i) j = slotVal D (T i') j' → i = i' ∧ j = j'
  sizes : ∀ i, Used sb T i → (T i).size.toNat ≤ MAXBYTES
  mapped : ∀ i bn, Used sb T i → bn < nblk (T i).size.toNat → slotVal D (T i) (slotOf bn) ≠ 0

/-- What is on the disk whenever the power fails. -/
structure Recoverable (sb : Superblock) (D : Nat → Block) : Prop where
  anchored : Anchored sb D (dinodeOf sb D)
  root : Used sb (dinodeOf sb D) ROOTINO
  dirs : ∀ i, Used sb (dinodeOf sb D) i → (dinodeOf sb D i).type = T_DIR → DirOk sb D i

/-- The slots that hold a block number. -/
def InUse (sb : Superblock) (D : Nat → Block) (T : Nat → Dinode) (x : Nat × Nat) : Prop :=
  Used sb T x.1 ∧ x.2 < SLOTS ∧ slotVal D (T x.1) x.2 ≠ 0

theorem indirect_lt_slots : NDIRECT < SLOTS := by
  unfold SLOTS
  omega

/-- A word is read only where there is an indirect block. -/
theorem addr_of_slotVal {D : Nat → Block} {din : Dinode} {j : Nat} (hj : NDIRECT < j) (h : slotVal D din j ≠ 0) :
    din.addr NDIRECT ≠ 0 := by
  intro h0
  unfold slotVal at h
  rw [if_neg (by omega), if_pos h0] at h
  exact h rfl

section Anchored
variable {sb : Superblock} {D D' : Nat → Block} {T T' : Nat → Dinode} {W : Nat × Nat → Prop} {blk : Nat → Nat → Block}

theorem Structural.anchored (h : Structural sb D T) : Anchored sb D T where
  geo := h.geo
  super := h.super
  metaMarked := h.metaMarked
  inArea := h.inArea
  once := h.once
  sizes := h.sizes
  mapped i bn hi hbn := by
    have hmax := nblk_le_max (h.sizes i hi)
    exact (h.mapped i bn hi (by omega)).2 hbn

theorem DiskOk.recoverable (h : DiskOk sb D) : Recoverable sb D := ⟨h.structural.anchored, h.root, h.dirs⟩

theorem Rep.anchored (h : Rep sb D T W blk) (hsize : ∀ i, Used sb T i → (T i).size.toNat ≤ MAXBYTES)
    (hmap : ∀ i bn, Used sb T i → bn < nblk (T i).size.toNat → W (i, slotOf bn)) : Anchored sb D T where
  geo := h.geo
  super := h.super
  metaMarked := h.metaMarked
  inArea i j hi hj h0 := h.placed.good (i, j) ((h.slot_ne_zero_iff hi hj).1 h0)
  once i j i' j' hi hj hi' hj' h0 he := by
    have hw := (h.slot_ne_zero_iff hi hj).1 h0
    have hw' := (h.slot_ne_zero_iff hi' hj').1 (he ▸ h0)
    exact Prod.mk.inj (h.placed.inj _ _ hw hw' he)
  sizes := hsize
  mapped i bn hi hbn := h.pos (hmap i bn hi hbn)

/-- An inode that holds some of the blocks of another. -/
theorem slotVal_of_addrs {din din' : Dinode} {j : Nat}
    (hdin : ∀ j ≤ NDIRECT, din'.addr j ≠ 0 → din.addr j = din'.addr j) (h0 : slotVal D din' j ≠ 0) :
    slotVal D' din j = slotVal D' din' j := by
  by_cases hd : j ≤ NDIRECT
  · rw [slotVal_direct D _ hd] at h0
    rw [slotVal_direct D' _ hd, slotVal_direct D' _ hd, hdin j hd h0]
  · have he := hdin NDIRECT (Nat.le_refl _) (addr_of_slotVal (by omega) h0)
    unfold slotVal
    rw [if_neg hd, if_neg hd, he]

/-- A table in which the inodes hold some of the blocks. -/
theorem Rep.restrict (h : Rep sb D T W blk) (hused : ∀ k, Used sb T' k → Used sb T k)
    (hT : ∀ k, ∀ j ≤ NDIRECT, (T' k).addr j ≠ 0 → (T k).addr j = (T' k).addr j) :
    Rep sb D T' (InUse sb D T') blk := by
  have hslot {x : Nat × Nat} (hx : InUse sb D T' x) : slotVal D (T x.1) x.2 = slotVal D (T' x.1) x.2 :=
    slotVal_of_addrs (hT x.1) hx.2.2
  have hw {x : Nat × Nat} (hx : InUse sb D T' x) : W x := by
    refine (h.slot_ne_zero_iff (hused _ hx.1) hx.2.1).1 ?_
    rw [hslot hx]
    exact hx.2.2
  refine ⟨h.geo, h.super, h.metaMarked, ⟨fun x hx => ⟨hx.1, hx.2.1⟩, fun x hx => ?_, fun x y hx hy he => ?_,
    fun x hd hx => ?_⟩, fun i j hx hj => ?_, fun i bn hx o ho => ?_⟩
  · rw [← hslot hx]
    exact h.placed.good x (hw hx)
  · rw [← hslot hx, ← hslot hy] at he
    exact h.placed.inj x y (hw hx) (hw hy) he
  · by_contra h0
    exact hx ⟨hd.1, hd.2, h0⟩
  · refine ⟨hx.1, indirect_lt_slots, ?_⟩
    rw [slotVal_direct D _ (Nat.le_refl _)]
    exact addr_of_slotVal hj hx.2.2
  · rw [← hslot hx]
    exact h.data i bn (hw hx) o ho

namespace Anchored

/-- What is stored is what the slots give. -/
theorem rep (h : Anchored sb D T) : Rep sb D T (InUse sb D T) fun i bn => D (slotVal D (T i) (slotOf bn)) where
  geo := h.geo
  super := h.super
  metaMarked := h.metaMarked
  placed := by
    refine ⟨fun x hx => ⟨hx.1, hx.2.1⟩, fun x hx => h.inArea x.1 x.2 hx.1 hx.2.1 hx.2.2, fun x y hx hy he => ?_,
      fun x hd hx => ?_⟩
    · have honce := h.once x.1 x.2 y.1 y.2 hx.1 hx.2.1 hy.1 hy.2.1 hx.2.2 he
      exact Prod.ext honce.1 honce.2
    · by_contra h0
      exact hx ⟨hd.1, hd.2, h0⟩
  ind i j hx hj := by
    refine ⟨hx.1, indirect_lt_slots, ?_⟩
    rw [slotVal_direct D _ (Nat.le_refl _)]
    exact addr_of_slotVal hj hx.2.2
  data _ _ _ _ _ := rfl

theorem bn_lt (h : Anchored sb D T) {i bn : Nat} (hi : Used sb T i) (hbn : bn < nblk (T i).size.toNat) :
    bn < NDIRECT + NINDIRECT := by
  have hmax := nblk_le_max (h.sizes i hi)
  omega

/-- All of a file is mapped. -/
theorem mappedTo (h : Anchored sb D T) {i : Nat} (hi : Used sb T i) : MappedTo D (T i) (T i).size.toNat := by
  intro o ho
  have hblk := div_lt_nblk ho
  exact ⟨h.bn_lt hi hblk, h.mapped i _ hi hblk⟩

theorem inUse (h : Anchored sb D T) {i o : Nat} (hi : Used sb T i) (ho : o < (T i).size.toNat) :
    InUse sb D T (i, slotOf (o / BSIZE)) :=
  ⟨hi, slotOf_lt (h.mappedTo hi o ho).1, (h.mappedTo hi o ho).2⟩

/-- The table matters only for the inodes there are. -/
theorem table_congr (h : Anchored sb D T) (hT : ∀ k < sb.ninodes, T' k = T k) : Anchored sb D T' := by
  have hused {k : Nat} (hk : Used sb T' k) : Used sb T k ∧ T' k = T k := by
    have he := hT k hk.1
    exact ⟨⟨hk.1, he ▸ hk.2⟩, he⟩
  refine (h.rep.table_congr hT).anchored (fun k hk => ?_) fun k bn hk hbn => ?_
  · rw [(hused hk).2]
    exact h.sizes k (hused hk).1
  · rw [(hused hk).2] at hbn
    exact ⟨(hused hk).1, slotOf_lt (h.bn_lt (hused hk).1 hbn), h.mapped k bn (hused hk).1 hbn⟩

/-- The files are in the data area. -/
theorem contents_congr (h : Anchored sb D T) (hD : ∀ b, nmeta sb ≤ b → D' b = D b) {k o : Nat} (hk : Used sb T k)
    (ho : o < (T k).size.toNat) : contents D' (T k) o = contents D (T k) o := by
  have hin := h.inUse hk ho
  have hslot : slotVal D' (T k) (slotOf (o / BSIZE)) = slotVal D (T k) (slotOf (o / BSIZE)) := by
    refine slotVal_congr hin.2.1 fun _ h0 p _ => ?_
    have harea := (h.inArea k NDIRECT hk indirect_lt_slots (by rwa [slotVal_direct _ _ (Nat.le_refl _)])).1
    rw [slotVal_direct _ _ (Nat.le_refl _)] at harea
    rw [hD _ harea]
  unfold contents
  rw [hslot, hD _ (h.inArea k _ hk hin.2.1 hin.2.2).1]

end Anchored

end Anchored

/-! ## A write that was cut off -/

/-- Of a write to inode `i` the first `m` bytes are on the disk, and the inodes are as they were. -/
structure Torn (sb : Superblock) (D D' : Nat → Block) (i : Nat) (src : Bytes) (off m : Nat) : Prop where
  dinodes : ∀ k < sb.ninodes, dinodeOf sb D' k = dinodeOf sb D k
  bytes : ∀ k, Used sb (dinodeOf sb D) k → ∀ o < (dinodeOf sb D k).size.toNat, contents D' (dinodeOf sb D k) o =
    if k = i ∧ off ≤ o ∧ o < off + m then src (o - off) else contents D (dinodeOf sb D k) o

/-- What a write of `n` bytes leaves: the data go out block by block, and the inode last. -/
inductive WriteCut (sb : Superblock) (D D' : Nat → Block) (i : Nat) (src : Bytes) (off n : Nat) : Prop
  | torn (m : Nat) (hm : m ≤ n) (hat : m = 0 ∨ m = n ∨ BSIZE ∣ off + m) (h : Torn sb D D' i src off m)
  | whole (h : Spliced sb D D' i src off n)

namespace Torn

variable {sb : Superblock} {D D' : Nat → Block} {i : Nat} {src : Bytes} {off m : Nat}

theorem refl (sb : Superblock) (D : Nat → Block) (i : Nat) (src : Bytes) (off : Nat) : Torn sb D D i src off 0 := by
  refine ⟨fun _ _ => rfl, fun k _ o _ => ?_⟩
  rw [if_neg (by omega)]

theorem used (h : Torn sb D D' i src off m) (k : Nat) : Used sb (dinodeOf sb D') k ↔ Used sb (dinodeOf sb D) k :=
  and_congr_right fun hk => by rw [h.dinodes k hk]

/-- A write within the file is whole when all its bytes are there. -/
theorem spliced (h : Torn sb D D' i src off m) (hi : Used sb (dinodeOf sb D) i)
    (hend : off + m ≤ (dinodeOf sb D i).size.toNat) : Spliced sb D D' i src off m := by
  have hmax : max (dinodeOf sb D i).size.toNat (off + m) = (dinodeOf sb D i).size.toNat := max_eq_left hend
  have hdin := h.dinodes i hi.1
  refine ⟨fun k hk _ => h.dinodes k hk, ⟨(dinodeOf sb D i).addrs, ?_⟩, by rw [hmax, hdin], fun o ho => ?_,
    fun k hk hki o ho => ?_⟩
  · rw [hmax, hdin, UInt32.ofNat_toNat]
  · rw [hmax] at ho
    rw [hdin, h.bytes i hi o ho]
    simp only [true_and]
  · rw [h.bytes k hk o ho, if_neg fun hin => hki hin.1]

/-- An entry of a file no byte of which has changed. -/
theorem direntAt_old (h : Torn sb D D' i src off m) {k o : Nat} (hk : Used sb (dinodeOf sb D) k)
    (hsame : k = i → m = 0 ∨ (dinodeOf sb D i).size.toNat ≤ off) (hend : o + DIRENT ≤ (dinodeOf sb D k).size.toNat) :
    direntAt D' (dinodeOf sb D' k) o = direntAt D (dinodeOf sb D k) o := by
  rw [h.dinodes k hk.1]
  refine direntAt_congr fun j hj => ?_
  rw [h.bytes k hk _ (by omega), if_neg]
  rintro ⟨rfl, hlo, hhi⟩
  have hs := hsame rfl
  omega

/-- A directory no byte of which has changed. -/
theorem dirOk (h : Torn sb D D' i src off m) {k : Nat} (hk : Used sb (dinodeOf sb D) k)
    (hsame : k = i → m = 0 ∨ (dinodeOf sb D i).size.toNat ≤ off) (hd : DirOk sb D k) : DirOk sb D' k := by
  have hdin := h.dinodes k hk.1
  refine ⟨by rw [hdin]; exact hd.size, fun o ho hlt h0 => ?_⟩
  rw [hdin] at hlt
  have hentry := h.direntAt_old hk hsame (dirent_end hd.size ho hlt)
  rw [hentry] at h0 ⊢
  exact (h.used _).2 (hd.entries o ho hlt h0)

end Torn

namespace WriteCut

variable {sb : Superblock} {D D' : Nat → Block} {i : Nat} {src : Bytes} {off n : Nat}

/-- The types of the inodes are as they were. -/
theorem type (h : WriteCut sb D D' i src off n) {k : Nat} (hk : k < sb.ninodes) :
    (dinodeOf sb D' k).type = (dinodeOf sb D k).type := by
  cases h with
  | torn m hm hat h => rw [h.dinodes k hk]
  | whole h => exact h.type hk

theorem used (h : WriteCut sb D D' i src off n) (k : Nat) : Used sb (dinodeOf sb D') k ↔ Used sb (dinodeOf sb D) k :=
  and_congr_right fun hk => by rw [h.type hk]

theorem recoverable (h : WriteCut sb D D' i src off n) (hD : Recoverable sb D) (ha : Anchored sb D' (dinodeOf sb D'))
    (hdir : (dinodeOf sb D i).type = T_DIR → DirOk sb D' i) : Recoverable sb D' := by
  refine ⟨ha, (h.used _).2 hD.root, fun k hk ht => ?_⟩
  have hk' := (h.used k).1 hk
  rw [h.type hk'.1] at ht
  by_cases hki : k = i
  · rw [hki] at ht ⊢
    exact hdir ht
  · cases h with
    | torn m hm hat h => exact h.dirOk hk' (fun he => absurd he hki) (hD.dirs k hk' ht)
    | whole h => exact h.dirOk hk' hki (hD.dirs k hk' ht)

/-- An entry goes out in one piece: entries do not straddle blocks. -/
theorem entry {e : Bytes} (h : WriteCut sb D D' i e off DIRENT) (hi : Used sb (dinodeOf sb D) i)
    (hsize : DIRENT ∣ (dinodeOf sb D i).size.toNat) (hoff : DIRENT ∣ off) (hle : off ≤ (dinodeOf sb D i).size.toNat) :
    Spliced sb D D' i e off DIRENT ∨
      ∃ m, Torn sb D D' i e off m ∧ (m = 0 ∨ (dinodeOf sb D i).size.toNat ≤ off) := by
  cases h with
  | whole h => exact .inl h
  | torn m hm hat h =>
      rcases Nat.lt_or_eq_of_le hle with hlt | heq
      · have hend := dirent_end hsize hoff hlt
        have hpiece : m = 0 ∨ m = DIRENT := by
          obtain ⟨a, rfl⟩ := hoff
          unfold DIRENT BSIZE at *
          omega
        rcases hpiece with rfl | rfl
        · exact .inr ⟨0, h, .inl rfl⟩
        · exact .inl (h.spliced hi hend)
      · exact .inr ⟨m, h, .inr (Nat.le_of_eq heq.symm)⟩

theorem dirOk_entry {inum : Nat} {name : Bytes}
    (h : WriteCut sb D D' i (mkDirent (UInt16.ofNat inum) name) off DIRENT) (hi : Used sb (dinodeOf sb D) i)
    (hd : DirOk sb D i) (hoff : DIRENT ∣ off) (hle : off ≤ (dinodeOf sb D i).size.toNat)
    (hused : Used sb (dinodeOf sb D) inum) (hfew : sb.ninodes ≤ 2 ^ 16) : DirOk sb D' i := by
  rcases h.entry hi hd.size hoff hle with h | ⟨m, h, hm⟩
  · exact h.dirOk_entry hd hoff hle hused hfew
  · exact h.dirOk hi (fun _ => hm) hd

end WriteCut

/-! ## A dinode that was taken -/

/-- The dinode of inode `i` is written. -/
theorem Recoverable.allot {sb : Superblock} {D : Nat → Block} (h : Recoverable sb D) {i : Nat} (hi : i < sb.ninodes)
    (hpos : 1 ≤ i) (hfree : (dinodeOf sb D i).type = 0) {type : UInt16} (ht : type ≠ 0) :
    let D' := update D (inodeBlock sb i) (putDinode (D (inodeBlock sb i)) (i % IPB) { Dinode.zero with type })
    Recoverable sb D' ∧ Allotted sb D D' i type := by
  intro D'
  have hnot : ¬ Used sb (dinodeOf sb D) i := fun hu => hu.2 hfree
  have hblk := h.anchored.geo.inodes i hi
  have hle := bmapstart_le sb
  have hdin (k : Nat) : dinodeOf sb D' k = if k = i then { Dinode.zero with type } else dinodeOf sb D k :=
    dinodeOf_put i k _
  have hallot : Allotted sb D D' i type := by
    refine ⟨hnot, hpos, hi, by rw [hdin, if_pos rfl], fun k hk => by rw [hdin, if_neg hk], fun b _ => ?_,
      fun k hk o ho => h.anchored.contents_congr (fun b hb => update_of_ne (by omega) _ _) hk ho⟩
    have hmap : sb.bmapstart ≤ mapBlock sb b := Nat.le_add_right _ _
    unfold marked
    rw [show D' (mapBlock sb b) = D (mapBlock sb b) from update_of_ne (by omega) _ _]
  have htable : update (dinodeOf sb D) i { Dinode.zero with type } = dinodeOf sb D' := by
    funext k
    rw [hdin]
    by_cases hk : k = i
    · rw [hk, update_self, if_pos rfl]
    · rw [update_of_ne hk, if_neg hk]
  have haddr (j : Nat) : ({ Dinode.zero with type } : Dinode).addr j = 0 := by
    unfold Dinode.addr Dinode.zero
    split <;> rfl
  have hrep := (h.anchored.rep.putInode hi { Dinode.zero with type }).addInode hnot haddr
  rw [htable] at hrep
  have hsize {k : Nat} (hk : Used sb (dinodeOf sb D') k) :
      Used sb (dinodeOf sb D) k ∧ dinodeOf sb D' k = dinodeOf sb D k ∨ (dinodeOf sb D' k).size = 0 := by
    rcases (hallot.used ht k).1 hk with hk | rfl
    · exact .inl ⟨hk, hallot.inode_old hk⟩
    · rw [hallot.inode]
      exact .inr rfl
  refine ⟨⟨hrep.anchored (fun k hk => ?_) fun k bn hk hbn => ?_, (hallot.used ht _).2 (.inl h.root),
    fun k hk hd => ?_⟩, hallot⟩
  · rcases hsize hk with ⟨hk, he⟩ | h0
    · rw [he]
      exact h.anchored.sizes k hk
    · rw [h0]
      exact Nat.zero_le _
  · rcases hsize hk with ⟨hk, he⟩ | h0
    · rw [he] at hbn
      exact ⟨hk, slotOf_lt (h.anchored.bn_lt hk hbn), h.anchored.mapped k bn hk hbn⟩
    · rw [h0] at hbn
      exact absurd hbn (by simp [nblk, BSIZE])
  · rcases (hallot.used ht k).1 hk with hk | rfl
    · rw [hallot.inode_old hk] at hd
      exact hallot.dirOk ht hk (h.dirs k hk hd)
    · refine ⟨?_, fun o _ hlt => ?_⟩
      · rw [hallot.inode]
        exact Nat.dvd_zero _
      · rw [hallot.inode] at hlt
        exact absurd hlt (Nat.not_lt_zero _)

end RiscvOsLab.Fs
