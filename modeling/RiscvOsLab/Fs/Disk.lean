import RiscvOsLab.Fs.Layout
import RiscvOsLab.Lib.Placement

/-!
# What a disk represents

The areas of the disk as functions of the superblock, and the relation between its blocks and the files they
represent.

* `dinodeOf`, `marked`, `slotVal` : a dinode, a bit of the map, a block number of an inode. The block numbers of an
  inode are numbered in one row: 0 to 11 are direct, 12 is the indirect block, the others are its words;
* `Rep sb D T W blk` : in the disk `D` with the inode table `T`, the slots of `W` hold the numbers of distinct
  marked data blocks and the others hold 0; `blk i bn` is the data of logical block `bn` of inode `i`;
* `Rep.frame`, `Rep.alloc`, `Rep.linkAddr`, `Rep.linkWord`, `Rep.putData`, `Rep.putInode` : one lemma for each way the
  disk changes.
-/

namespace RiscvOsLab.Fs

open Bytes Function

/-! ## The areas -/

/-- Block numbers an inode can hold. -/
def SLOTS : Nat := NDIRECT + 1 + NINDIRECT

/-- The block of dinode `i`. -/
def inodeBlock (sb : Superblock) (i : Nat) : Nat := sb.inodestart + i / IPB

/-- The block of the bit map with the bit of block `b`. -/
def mapBlock (sb : Superblock) (b : Nat) : Nat := sb.bmapstart + b / BPB

/-- The first block of the data area. -/
def nmeta (sb : Superblock) : Nat := sb.bmapstart + (sb.size + BPB - 1) / BPB

def dinodeOf (sb : Superblock) (D : Nat → Block) (i : Nat) : Dinode := dinodeAt (D (inodeBlock sb i)) (i % IPB)

/-- The bit of block `b`. -/
def marked (sb : Superblock) (D : Nat → Block) (b : Nat) : Bool := bitAt (D (mapBlock sb b)) (b % BPB)

/-- Inode `i` is in use. -/
def Used (sb : Superblock) (T : Nat → Dinode) (i : Nat) : Prop := i < sb.ninodes ∧ (T i).type ≠ 0

/-- The block number in slot `j` of an inode. -/
def slotVal (D : Nat → Block) (din : Dinode) (j : Nat) : Nat :=
  if j ≤ NDIRECT then din.addr j
  else if din.addr NDIRECT = 0 then 0
  else (u32At (D (din.addr NDIRECT)) (4 * (j - (NDIRECT + 1)))).toNat

/-- The slot of logical block `bn`. -/
def slotOf (bn : Nat) : Nat := if bn < NDIRECT then bn else bn + 1

/-- A layout that `mkfs` makes, whatever its counts. -/
structure Geometry (sb : Superblock) : Prop where
  magic : sb.magic = FSMAGIC
  inodes : ∀ i, i < sb.ninodes → 1 < inodeBlock sb i ∧ inodeBlock sb i < sb.bmapstart
  root : ROOTINO < sb.ninodes
  few : sb.ninodes ≤ 2 ^ 16
  size : sb.size < 2 ^ 32

/-- The bits that `balloc` looks at: those of whole bytes. -/
def mapSize (size : Nat) : Nat := (size + 7) / 8 * 8

theorem le_mapSize (size : Nat) : size ≤ mapSize size := by
  unfold mapSize
  omega

theorem mapSize_of_dvd {size : Nat} (h : 8 ∣ size) : mapSize size = size := by
  unfold mapSize
  omega

theorem lt_of_mapSize {size b : Nat} (h : b < mapSize size) (hsize : size < 2 ^ 32) : b < 2 ^ 32 := by
  unfold mapSize at h
  omega

theorem mapBlock_lt {sb : Superblock} {b : Nat} (h : b < mapSize sb.size) : mapBlock sb b < nmeta sb := by
  unfold mapSize at h
  unfold mapBlock nmeta BPB BSIZE
  omega

theorem Geometry.one_lt {sb : Superblock} (h : Geometry sb) : 1 < sb.bmapstart := by
  have hroot := h.inodes _ h.root
  omega

theorem bmapstart_le (sb : Superblock) : sb.bmapstart ≤ nmeta sb := Nat.le_add_right _ _

theorem slotOf_lt {bn : Nat} (h : bn < NDIRECT + NINDIRECT) : slotOf bn < SLOTS := by
  unfold slotOf SLOTS NDIRECT NINDIRECT BSIZE at *
  split <;> omega

theorem slotOf_ne (bn : Nat) : slotOf bn ≠ NDIRECT := by
  unfold slotOf
  split <;> omega

theorem slotOf_inj {m n : Nat} (h : slotOf m = slotOf n) : m = n := by
  unfold slotOf at h
  split at h <;> split at h <;> omega

theorem slotVal_direct (D : Nat → Block) (din : Dinode) {j : Nat} (h : j ≤ NDIRECT) : slotVal D din j = din.addr j :=
  if_pos h

/-- Beyond the direct slots the value depends on the indirect block. -/
theorem slotVal_congr {D D' : Nat → Block} {din : Dinode} {j : Nat} (hj : j < SLOTS)
    (h : NDIRECT < j → din.addr NDIRECT ≠ 0 → ∀ o < BSIZE, D' (din.addr NDIRECT) o = D (din.addr NDIRECT) o) :
    slotVal D' din j = slotVal D din j := by
  unfold slotVal
  by_cases hd : j ≤ NDIRECT
  · rw [if_pos hd, if_pos hd]
  · rw [if_neg hd, if_neg hd]
    by_cases h0 : din.addr NDIRECT = 0
    · rw [if_pos h0, if_pos h0]
    · rw [if_neg h0, if_neg h0]
      congr 1
      apply u32At_congr
      intro i hi
      apply h (by omega) h0
      unfold SLOTS NINDIRECT BSIZE at *
      omega

/-! ## The bit map -/

/-- The disk after `balloc` has taken block `b`: its bit is set and the block is zeroed. -/
def allocated (sb : Superblock) (D : Nat → Block) (b : Nat) : Nat → Block :=
  let D' := update D (mapBlock sb b) (setBit (D (mapBlock sb b)) (b % BPB))
  update D' b (blit (D' b) 0 (fun _ => 0) BSIZE)

theorem allocated_of_ne {sb : Superblock} {D : Nat → Block} {b x : Nat} (hb : x ≠ b) (hmap : x ≠ mapBlock sb b) :
    allocated sb D b x = D x := by
  unfold allocated
  rw [update_of_ne hb, update_of_ne hmap]

theorem allocated_self {sb : Superblock} {D : Nat → Block} {b o : Nat} (ho : o < BSIZE) :
    allocated sb D b b o = 0 := by
  unfold allocated
  rw [update_self, blit_in (Nat.zero_le _) (by omega)]

theorem marked_allocated_of_ne {sb : Superblock} {D : Nat → Block} {b c : Nat} (hne : mapBlock sb c ≠ b) :
    marked sb (allocated sb D b) c = (decide (c = b) || marked sb D c) := by
  unfold marked allocated
  rw [update_of_ne hne]
  by_cases hmap : mapBlock sb c = mapBlock sb b
  · rw [hmap, update_self, bitAt_setBit]
    congr 1
    rw [decide_eq_decide]
    unfold mapBlock at hmap
    constructor
    · intro hmod
      have hdiv : c / BPB = b / BPB := by omega
      rw [← Nat.div_add_mod c BPB, ← Nat.div_add_mod b BPB, hdiv, hmod]
    · rintro rfl
      rfl
  · rw [update_of_ne hmap]
    have hcb : c ≠ b := fun e => hmap (e ▸ rfl)
    simp [hcb]

theorem marked_allocated {sb : Superblock} {D : Nat → Block} {b c : Nat} (hb : nmeta sb ≤ b) (hc : c < mapSize sb.size) :
    marked sb (allocated sb D b) c = (decide (c = b) || marked sb D c) := by
  refine marked_allocated_of_ne ?_
  have hlt := mapBlock_lt hc
  omega

/-! ## The relation -/

structure Rep (sb : Superblock) (D : Nat → Block) (T : Nat → Dinode) (W : Nat × Nat → Prop)
    (blk : Nat → Nat → Block) : Prop where
  geo : Geometry sb
  super : sbAt (D 1) = sb
  metaMarked : ∀ b, b < nmeta sb → b < mapSize sb.size → marked sb D b = true
  placed : Placed (fun x => Used sb T x.1 ∧ x.2 < SLOTS)
    (fun b => nmeta sb ≤ b ∧ b < mapSize sb.size ∧ marked sb D b = true) (fun x => slotVal D (T x.1) x.2) W
  ind : ∀ i j, W (i, j) → NDIRECT < j → W (i, NDIRECT)
  data : ∀ i bn, W (i, slotOf bn) → ∀ o < BSIZE, D (slotVal D (T i) (slotOf bn)) o = blk i bn o

/-- A marked block of zeros that no slot holds. -/
structure Fresh (sb : Superblock) (D : Nat → Block) (T : Nat → Dinode) (W : Nat × Nat → Prop) (b : Nat) : Prop where
  area : nmeta sb ≤ b
  lt : b < mapSize sb.size
  marked : marked sb D b = true
  new : ∀ x, W x → slotVal D (T x.1) x.2 ≠ b
  zero : ∀ o < BSIZE, D b o = 0

/-- The block in slot `x` is now `d`. -/
def withBlock (blk : Nat → Nat → Block) (x : Nat × Nat) (d : Block) : Nat → Nat → Block :=
  fun k bn => if (k, slotOf bn) = x then d else blk k bn

theorem withBlock_self (blk : Nat → Nat → Block) (i bn : Nat) (d : Block) :
    withBlock blk (i, slotOf bn) d i bn = d := if_pos rfl

/-- The data of the files is not in the indirect blocks. -/
theorem withBlock_indirect (blk : Nat → Nat → Block) (i : Nat) (d : Block) : withBlock blk (i, NDIRECT) d = blk := by
  funext k bn
  exact if_neg fun he => slotOf_ne bn (Prod.mk.inj he).2

theorem withBlock_of_ne (blk : Nat → Nat → Block) {i bn k n : Nat} (h : ¬ (k = i ∧ n = bn)) (d : Block) :
    withBlock blk (i, slotOf bn) d k n = blk k n := by
  refine if_neg fun he => h ?_
  obtain ⟨rfl, hs⟩ := Prod.mk.inj he
  exact ⟨rfl, slotOf_inj hs⟩

namespace Rep

variable {sb : Superblock} {D D' : Nat → Block} {T : Nat → Dinode} {W : Nat × Nat → Prop} {blk : Nat → Nat → Block}

/-- The indirect block is there when its number is not 0. -/
theorem mapped_indirect (h : Rep sb D T W blk) {i : Nat} (hi : Used sb T i) (h0 : (T i).addr NDIRECT ≠ 0) :
    W (i, NDIRECT) := by
  by_contra hw
  have hoff := h.placed.off (i, NDIRECT) ⟨hi, by unfold SLOTS NINDIRECT BSIZE; omega⟩ hw
  exact h0 ((slotVal_direct D (T i) (Nat.le_refl _)).symm.trans hoff)

theorem pos (h : Rep sb D T W blk) {x : Nat × Nat} (hx : W x) : slotVal D (T x.1) x.2 ≠ 0 := by
  have hgood := (h.placed.good x hx).1
  have hone := h.geo.one_lt
  have hle := bmapstart_le sb
  omega

/-- Where the indirect blocks are the same the slots are. -/
theorem slots (h : Rep sb D T W blk)
    (hind : ∀ i, W (i, NDIRECT) → ∀ o < BSIZE, D' ((T i).addr NDIRECT) o = D ((T i).addr NDIRECT) o)
    (x : Nat × Nat) (hx : Used sb T x.1 ∧ x.2 < SLOTS) : slotVal D' (T x.1) x.2 = slotVal D (T x.1) x.2 :=
  slotVal_congr hx.2 fun _ h0 => hind x.1 (h.mapped_indirect hx.1 h0)

/-- An indirect block is one of the mapped blocks. -/
theorem indirect_of_data
    (hdata : ∀ x, W x → ∀ o < BSIZE, D' (slotVal D (T x.1) x.2) o = D (slotVal D (T x.1) x.2) o)
    (i : Nat) (hi : W (i, NDIRECT)) (o : Nat) (ho : o < BSIZE) :
    D' ((T i).addr NDIRECT) o = D ((T i).addr NDIRECT) o := by
  have hind := hdata (i, NDIRECT) hi o ho
  rwa [slotVal_direct _ _ (Nat.le_refl _)] at hind

/-- A change outside the mapped blocks. -/
theorem frame (h : Rep sb D T W blk) (hsuper : D' 1 = D 1)
    (hmarked : ∀ b, b < mapSize sb.size → marked sb D b = true → marked sb D' b = true)
    (hdata : ∀ x, W x → ∀ o < BSIZE, D' (slotVal D (T x.1) x.2) o = D (slotVal D (T x.1) x.2) o) :
    Rep sb D' T W blk where
  geo := h.geo
  super := by rw [hsuper, h.super]
  metaMarked b hb hs := hmarked b hs (h.metaMarked b hb hs)
  placed := (h.placed.mono fun b hb => ⟨hb.1, hb.2.1, hmarked b hb.2.1 hb.2.2⟩).congr (h.slots (indirect_of_data hdata))
  ind := h.ind
  data i bn hw o ho := by
    rw [h.slots (indirect_of_data hdata) (i, slotOf bn) (h.placed.sub _ hw), hdata (i, slotOf bn) hw o ho, h.data i bn hw o ho]

/-- The set of the slots in use may be described in another way. -/
theorem of_iff {W' : Nat × Nat → Prop} (h : Rep sb D T W blk) (hW : ∀ x, W' x ↔ W x) : Rep sb D T W' blk := by
  have he : W' = W := funext fun x => propext (hW x)
  rwa [he]

/-- A block that is not marked is a data block no slot holds. -/
theorem fresh (h : Rep sb D T W blk) {b : Nat} (hb : b < mapSize sb.size) (hclear : marked sb D b = false) :
    nmeta sb ≤ b ∧ ∀ x, W x → slotVal D (T x.1) x.2 ≠ b := by
  constructor
  · by_contra hlt
    exact absurd (h.metaMarked b (by omega) hb) (by simp [hclear])
  · rintro x hx rfl
    exact absurd (h.placed.good x hx).2.2 (by simp [hclear])

/-- `balloc` takes block `b`, which no slot holds yet. -/
theorem alloc (h : Rep sb D T W blk) {b : Nat} (hb : b < mapSize sb.size) (hclear : marked sb D b = false) :
    Rep sb (allocated sb D b) T W blk ∧ Fresh sb (allocated sb D b) T W b := by
  obtain ⟨hnmeta, hfree⟩ := h.fresh hb hclear
  have hone := h.geo.one_lt
  have hle := bmapstart_le sb
  have hmap : sb.bmapstart ≤ mapBlock sb b := Nat.le_add_right _ _
  have hmap' := mapBlock_lt hb
  have hsame (x : Nat × Nat) (hx : W x) (o : Nat) (_ : o < BSIZE) :
      allocated sb D b (slotVal D (T x.1) x.2) o = D (slotVal D (T x.1) x.2) o := by
    have hgood := (h.placed.good x hx).1
    rw [allocated_of_ne (hfree x hx) (by omega)]
  have hslots := h.slots (indirect_of_data hsame)
  constructor
  · refine h.frame ?_ (fun c hc hm => ?_) hsame
    · exact allocated_of_ne (by omega) (by omega)
    · rw [marked_allocated hnmeta hc, hm, Bool.or_true]
  · refine ⟨hnmeta, hb, ?_, fun x hx => ?_, fun o ho => allocated_self ho⟩
    · rw [marked_allocated hnmeta hb, decide_eq_true rfl, Bool.true_or]
    · rw [hslots x (h.placed.sub x hx)]
      exact hfree x hx

/-- The dinodes are as before. -/
theorem dinodeOf_allocated (h : Rep sb D T W blk) {b i : Nat} (hb : b < mapSize sb.size) (hclear : marked sb D b = false)
    (hi : i < sb.ninodes) : dinodeOf sb (allocated sb D b) i = dinodeOf sb D i := by
  obtain ⟨hnmeta, -⟩ := h.fresh hb hclear
  obtain ⟨hone, hlt⟩ := h.geo.inodes i hi
  have hle := bmapstart_le sb
  have hmap : sb.bmapstart ≤ mapBlock sb b := Nat.le_add_right _ _
  unfold dinodeOf
  rw [allocated_of_ne (by omega) (by omega)]

theorem unmarked_allocated (h : Rep sb D T W blk) {b : Nat} (hb : b < mapSize sb.size) (hclear : marked sb D b = false) :
    unmarked (marked sb (allocated sb D b)) (mapSize sb.size) + 1 = unmarked (marked sb D) (mapSize sb.size) := by
  rw [← unmarked_update hb hclear]
  congr 1
  apply unmarked_congr
  intro c hc
  rw [marked_allocated (h.fresh hb hclear).1 hc]
  by_cases hcb : c = b
  · subst hcb
    simp
  · simp [hcb]

/-- A fresh block goes into a slot of the inode. -/
theorem linkAddr (h : Rep sb D T W blk) {b : Nat} (hb : Fresh sb D T W b) {i j : Nat} (hi : Used sb T i)
    (hj : j ≤ NDIRECT) (hoff : ¬ W (i, j)) :
    Rep sb D (update T i ((T i).setAddr j b)) (fun x => W x ∨ x = (i, j)) (withBlock blk (i, j) fun _ => 0) := by
  have hlt : b < 2 ^ 32 := lt_of_mapSize hb.lt h.geo.size
  have haddr (k : Nat) : ((T i).setAddr j b).addr k = if k = j then b else (T i).addr k :=
    Dinode.addr_setAddr (Nat.lt_succ_of_le hj) _ hlt k
  have hused (k : Nat) : Used sb (update T i ((T i).setAddr j b)) k ↔ Used sb T k := by
    unfold Used
    by_cases hk : k = i
    · rw [hk, update_self, Dinode.setAddr_type]
    · rw [update_of_ne hk]
  have hself : slotVal D (update T i ((T i).setAddr j b) i) j = b := by
    rw [update_self, slotVal_direct D _ hj, haddr, if_pos rfl]
  have hval (x : Nat × Nat) (hx : Used sb T x.1 ∧ x.2 < SLOTS) (hne : x ≠ (i, j)) :
      slotVal D (update T i ((T i).setAddr j b) x.1) x.2 = slotVal D (T x.1) x.2 := by
    obtain ⟨k, l⟩ := x
    by_cases hk : k = i
    · subst hk
      have hl : l ≠ j := fun e => hne (by rw [e])
      simp only [update_self]
      by_cases hd : l ≤ NDIRECT
      · rw [slotVal_direct D _ hd, slotVal_direct D _ hd, haddr, if_neg hl]
      · unfold slotVal
        rw [if_neg hd, if_neg hd, haddr]
        by_cases hind : NDIRECT = j
        · -- the new indirect block has no words yet
          have h0 := h.placed.off (k, j) ⟨hi, by unfold SLOTS NINDIRECT BSIZE; omega⟩ hoff
          rw [slotVal_direct D _ hj] at h0
          have hword : u32At (D b) (4 * (l - (NDIRECT + 1))) = 0 := by
            apply u32At_zero
            intro n hn
            apply hb.zero
            have hl := hx.2
            unfold SLOTS NINDIRECT BSIZE at *
            omega
          rw [if_pos hind, hword, hind, if_pos h0]
          split <;> rfl
        · rw [if_neg hind]
    · rw [update_of_ne hk]
  refine ⟨h.geo, h.super, h.metaMarked, ?_, fun k l hw hl => ?_, fun k bn hw o ho => ?_⟩
  · have hslot : j < SLOTS := by
      unfold SLOTS
      omega
    have hplaced : Placed _ _ (fun x : Nat × Nat => slotVal D (update T i ((T i).setAddr j b) x.1) x.2) _ :=
      h.placed.extend ⟨hi, hslot⟩ ⟨hb.area, hb.lt, hb.marked⟩ hb.new hself hval
    refine hplaced.of_dom fun x => ?_
    rw [hused]
  · rcases hw with hw | he
    · exact .inl (h.ind k l hw hl)
    · obtain ⟨rfl, rfl⟩ := Prod.mk.inj he
      omega
  · unfold withBlock
    by_cases he : (k, slotOf bn) = (i, j)
    · rw [if_pos he]
      obtain ⟨rfl, hs⟩ := Prod.mk.inj he
      rw [hs, hself]
      exact hb.zero o ho
    · have hw := hw.resolve_right he
      rw [if_neg he, hval (k, slotOf bn) (h.placed.sub _ hw) he]
      exact h.data k bn hw o ho

/-- The block a slot holds is written. -/
theorem putData (h : Rep sb D T W blk) {i bn : Nat} (hw : W (i, slotOf bn)) (d : Block) :
    Rep sb (update D (slotVal D (T i) (slotOf bn)) d) T W (withBlock blk (i, slotOf bn) d) := by
  have hgood := (h.placed.good _ hw).1
  have hone := h.geo.one_lt
  have hle := bmapstart_le sb
  have hother (x : Nat × Nat) (hx : W x) (hne : x ≠ (i, slotOf bn)) :
      slotVal D (T x.1) x.2 ≠ slotVal D (T i) (slotOf bn) := fun he => hne (h.placed.inj _ _ hx hw he)
  have hind (k : Nat) (hk : W (k, NDIRECT)) (o : Nat) (_ : o < BSIZE) :
      update D (slotVal D (T i) (slotOf bn)) d ((T k).addr NDIRECT) o = D ((T k).addr NDIRECT) o := by
    have hne := hother (k, NDIRECT) hk fun he => slotOf_ne bn (Prod.mk.inj he).2.symm
    rw [slotVal_direct D (T k) (Nat.le_refl _)] at hne
    rw [update_of_ne hne]
  have hslots := h.slots hind
  have hmarked (c : Nat) (hc : c < mapSize sb.size) : marked sb (update D (slotVal D (T i) (slotOf bn)) d) c = marked sb D c := by
    have hmap := mapBlock_lt hc
    unfold marked
    rw [update_of_ne (by simp only at hgood; omega)]
  refine ⟨h.geo, ?_, fun c hc hs => ?_, ?_, h.ind, fun k n hk o ho => ?_⟩
  · simp only at hgood
    rw [update_of_ne (by omega), h.super]
  · rw [hmarked c hs, h.metaMarked c hc hs]
  · refine (h.placed.mono fun c hc => ⟨hc.1, hc.2.1, ?_⟩).congr hslots
    rw [hmarked c hc.2.1, hc.2.2]
  · rw [hslots (k, slotOf n) (h.placed.sub _ hk)]
    unfold withBlock
    by_cases he : (k, slotOf n) = (i, slotOf bn)
    · obtain ⟨rfl, hs⟩ := Prod.mk.inj he
      rw [if_pos he, hs, update_self]
    · rw [if_neg he, update_of_ne (hother _ hk he)]
      exact h.data k n hk o ho

/-- A fresh block goes into a word of the indirect block. -/
theorem linkWord (h : Rep sb D T W blk) {b : Nat} (hb : Fresh sb D T W b) {i e : Nat} (hi : W (i, NDIRECT))
    (he : e < NINDIRECT) (hoff : ¬ W (i, NDIRECT + 1 + e)) :
    Rep sb (update D ((T i).addr NDIRECT) (put32 (D ((T i).addr NDIRECT)) (4 * e) (UInt32.ofNat b))) T
      (fun x => W x ∨ x = (i, NDIRECT + 1 + e)) (withBlock blk (i, NDIRECT + 1 + e) fun _ => 0) := by
  have hlt : b < 2 ^ 32 := lt_of_mapSize hb.lt h.geo.size
  have hused : Used sb T i := (h.placed.sub _ hi).1
  have hdirect := slotVal_direct D (T i) (Nat.le_refl NDIRECT)
  have hgood := (h.placed.good _ hi).1
  have hpos := h.pos hi
  have hnew := hb.new _ hi
  simp only [hdirect] at hgood hpos hnew
  have hone := h.geo.one_lt
  have hle := bmapstart_le sb
  generalize hD' : update D ((T i).addr NDIRECT) (put32 (D ((T i).addr NDIRECT)) (4 * e) (UInt32.ofNat b)) = D'
  have hne {c : Nat} (hc : c ≠ (T i).addr NDIRECT) : D' c = D c := by rw [← hD', update_of_ne hc]
  have hmarked (c : Nat) (hc : c < mapSize sb.size) : marked sb D' c = marked sb D c := by
    have hmap := mapBlock_lt hc
    unfold marked
    rw [hne (by omega)]
  have hself : slotVal D' (T i) (NDIRECT + 1 + e) = b := by
    unfold slotVal
    rw [if_neg (by omega), if_neg hpos, ← hD', update_self, Nat.add_sub_cancel_left, u32At_put32,
      UInt32.toNat_ofNat', Nat.mod_eq_of_lt hlt]
  have hval (x : Nat × Nat) (hx : Used sb T x.1 ∧ x.2 < SLOTS) (hx' : x ≠ (i, NDIRECT + 1 + e)) :
      slotVal D' (T x.1) x.2 = slotVal D (T x.1) x.2 := by
    obtain ⟨k, l⟩ := x
    by_cases hd : l ≤ NDIRECT
    · rw [slotVal_direct _ _ hd, slotVal_direct _ _ hd]
    · unfold slotVal
      rw [if_neg hd, if_neg hd]
      by_cases h0 : (T k).addr NDIRECT = 0
      · rw [if_pos h0, if_pos h0]
      · rw [if_neg h0, if_neg h0]
        by_cases hki : k = i
        · -- another word of the same block
          have hl : l ≠ NDIRECT + 1 + e := fun e => hx' (by rw [hki, e])
          rw [hki, ← hD', update_self, put32, u32At_blit_out (by omega)]
        · have hind := h.placed.inj (k, NDIRECT) (i, NDIRECT) (h.mapped_indirect hx.1 h0) hi
          simp only [slotVal_direct _ _ (Nat.le_refl NDIRECT), Prod.mk.injEq, and_true] at hind
          rw [hne fun e => hki (hind e)]
  refine ⟨h.geo, ?_, fun c hc hs => ?_, ?_, fun k l hw hl => ?_, fun k bn hw o ho => ?_⟩
  · rw [hne (by omega), h.super]
  · rw [hmarked c hs, h.metaMarked c hc hs]
  · have hplaced : Placed _ (fun c => nmeta sb ≤ c ∧ c < mapSize sb.size ∧ marked sb D' c = true) _ W :=
      h.placed.mono fun c hc => ⟨hc.1, hc.2.1, (hmarked c hc.2.1).trans hc.2.2⟩
    refine hplaced.extend ⟨hused, ?_⟩ ⟨hb.area, hb.lt, (hmarked b hb.lt).trans hb.marked⟩ hb.new hself hval
    unfold SLOTS
    omega
  · rcases hw with hw | he
    · exact .inl (h.ind k l hw hl)
    · obtain ⟨rfl, rfl⟩ := Prod.mk.inj he
      exact .inl hi
  · unfold withBlock
    by_cases hx : (k, slotOf bn) = (i, NDIRECT + 1 + e)
    · rw [if_pos hx]
      obtain ⟨rfl, hs⟩ := Prod.mk.inj hx
      rw [hs, hself, hne (Ne.symm hnew)]
      exact hb.zero o ho
    · have hw := hw.resolve_right hx
      have hother : slotVal D (T k) (slotOf bn) ≠ (T i).addr NDIRECT := fun e =>
        slotOf_ne bn (Prod.mk.inj (h.placed.inj (k, slotOf bn) (i, NDIRECT) hw hi (by simp only [hdirect, e]))).2
      rw [if_neg hx, hval (k, slotOf bn) (h.placed.sub _ hw) hx, hne hother]
      exact h.data k bn hw o ho

/-- The dinode of an inode is written. -/
theorem putInode (h : Rep sb D T W blk) {i : Nat} (hi : i < sb.ninodes) (din : Dinode) :
    Rep sb (update D (inodeBlock sb i) (putDinode (D (inodeBlock sb i)) (i % IPB) din)) T W blk := by
  obtain ⟨hone, hlt⟩ := h.geo.inodes i hi
  have hle := bmapstart_le sb
  refine h.frame ?_ (fun c hc hm => ?_) fun x hx o _ => ?_
  · rw [update_of_ne (by omega)]
  · have hmap : sb.bmapstart ≤ mapBlock sb c := Nat.le_add_right _ _
    unfold marked
    rw [update_of_ne (by omega)]
    exact hm
  · have hgood := (h.placed.good x hx).1
    rw [update_of_ne (by omega)]

/-- A used inode with no blocks is added. -/
theorem addInode (h : Rep sb D T W blk) {i : Nat} (hi : ¬ Used sb T i) {din : Dinode} (hdin : ∀ j, din.addr j = 0) :
    Rep sb D (update T i din) W blk := by
  have hin {x : Nat × Nat} (hx : W x) : update T i din x.1 = T x.1 := by
    refine update_of_ne (fun he => hi ?_) _ _
    rw [← he]
    exact (h.placed.sub x hx).1
  refine ⟨h.geo, h.super, h.metaMarked, ⟨fun x hx => ?_, fun x hx => ?_, fun x y hx hy he => ?_, fun x hd hx => ?_⟩,
    h.ind, fun k n hk o ho => ?_⟩
  · obtain ⟨hused, hlt⟩ := h.placed.sub x hx
    exact ⟨⟨hused.1, by rw [hin hx]; exact hused.2⟩, hlt⟩
  · rw [hin hx]
    exact h.placed.good x hx
  · rw [hin hx, hin hy] at he
    exact h.placed.inj x y hx hy he
  · by_cases hk : x.1 = i
    · rw [hk, update_self]
      unfold slotVal
      rw [hdin, hdin, if_pos rfl, ite_self]
    · obtain ⟨⟨hlt, htype⟩, hslot⟩ := hd
      rw [update_of_ne hk] at htype ⊢
      exact h.placed.off x ⟨⟨hlt, htype⟩, hslot⟩ hx
  · rw [hin (x := (k, slotOf n)) hk]
    exact h.data k n hk o ho

/-- Only the block numbers and the types count. -/
theorem retype (h : Rep sb D T W blk) {T' : Nat → Dinode}
    (hT : ∀ k, (T' k).addrs = (T k).addrs ∧ ((T' k).type ≠ 0 ↔ (T k).type ≠ 0)) : Rep sb D T' W blk := by
  have hval (k j : Nat) : slotVal D (T' k) j = slotVal D (T k) j := by
    unfold slotVal Dinode.addr
    rw [(hT k).1]
  refine ⟨h.geo, h.super, h.metaMarked, ?_, h.ind, fun k n hk o ho => ?_⟩
  · refine (h.placed.congr fun x _ => hval x.1 x.2).of_dom fun x => ?_
    unfold Used
    rw [(hT x.1).2]
  · rw [hval]
    exact h.data k n hk o ho

/-- The table matters only for the inodes there are. -/
theorem table_congr (h : Rep sb D T W blk) {T' : Nat → Dinode} (hT : ∀ k < sb.ninodes, T' k = T k) :
    Rep sb D T' W blk := by
  have hused (k : Nat) : Used sb T' k ↔ Used sb T k := and_congr_right fun hk => by rw [hT k hk]
  have hin {x : Nat × Nat} (hx : Used sb T x.1) : T' x.1 = T x.1 := hT x.1 hx.1
  refine ⟨h.geo, h.super, h.metaMarked, ?_, h.ind, fun k n hk o ho => ?_⟩
  · refine (h.placed.congr fun x hx => by rw [hin hx.1]).of_dom fun x => ?_
    rw [hused]
  · rw [hT k (h.placed.sub _ hk).1.1]
    exact h.data k n hk o ho

end Rep

end RiscvOsLab.Fs
