import RiscvOsLab.Fs.Tree
import RiscvOsLab.Mkfs.Mkfs

/-!
# The image of `mkfs`

`Image total D` : the disk `D` is an image as `mkfs` leaves it: the superblock, the bits of the metadata blocks and of
one data block, and the root directory with the entries `.` and `..` in that block.

* `main_run`, `Makes.image` : every image is like this, and has room for the data block; `makes` : there is one for
  every block count with room;
* `Image.diskOk` : the invariant of the file system holds;
* `mkfs_establishes` : what the kernel finds in the image.
-/

namespace RiscvOsLab.Mkfs

open Prog Function Bytes
open RiscvOsLab.Fs

/-! ## The layout -/

theorem nmeta_eq (total : Nat) : Fs.nmeta (superblock total) = nmeta total := by
  show 2 + inodeblocks + (total + BPB - 1) / BPB = 1 + 1 + inodeblocks + nbitmap total
  rfl

theorem inodeblocks_eq : inodeblocks = 13 := by decide

theorem nmeta_ge (total : Nat) : nmeta total = 15 + nbitmap total := by
  unfold nmeta
  rw [inodeblocks_eq]

theorem mapBlock_eq (total b : Nat) : mapBlock (superblock total) b = 15 + b / BPB := by
  show 2 + inodeblocks + b / BPB = _
  rw [inodeblocks_eq]

theorem le_mapBlock (total b : Nat) : 15 ≤ mapBlock (superblock total) b := by
  rw [mapBlock_eq]
  exact Nat.le_add_right _ _

theorem inodeBlock_eq (total i : Nat) : inodeBlock (superblock total) i = 2 + i / IPB := rfl

/-- The inode blocks are 2 to 14. -/
theorem inodeBlock_lt {i : Nat} (h : i < NINODES) (total : Nat) :
    2 ≤ inodeBlock (superblock total) i ∧ inodeBlock (superblock total) i < 15 := by
  rw [inodeBlock_eq]
  unfold IPB BSIZE
  unfold NINODES at h
  omega

theorem div_lt_nbitmap {total b : Nat} (h : b < total) : b / BPB < nbitmap total := by
  unfold nbitmap BPB BSIZE
  omega

theorem div_lt_of_mapSize {total b : Nat} (h : b < mapSize total) : b / BPB < nbitmap total := by
  unfold mapSize at h
  unfold nbitmap BPB BSIZE
  omega

/-- The bits of the metadata blocks and of the first data block are in the map, if there is one. -/
theorem div_lt_nbitmap_of_le {total b : Nat} (h : b ≤ nmeta total) (hpos : 0 < nbitmap total) :
    b / BPB < nbitmap total := by
  rw [nmeta_ge] at h
  unfold BPB BSIZE
  omega

theorem mapBlock_le {total b : Nat} (h : b ≤ nmeta total) : mapBlock (superblock total) b ≤ nmeta total := by
  rw [mapBlock_eq]
  rw [nmeta_ge] at h ⊢
  unfold BPB BSIZE
  omega

theorem mapBlock_lt_nmeta {total b : Nat} (h : b / BPB < nbitmap total) :
    mapBlock (superblock total) b < nmeta total := by
  rw [mapBlock_eq, nmeta_ge]
  exact Nat.add_lt_add_left h 15

theorem nbitmap_pos {total : Nat} (h : 0 < total) : 0 < nbitmap total := by
  unfold nbitmap BPB BSIZE
  omega

theorem u32At_blit_words (f : Nat → UInt32) {k n : Nat} (h : k < n) :
    u32At (blit (fun _ => 0) 0 (words32 f) (4 * n)) (4 * k) = f k := by
  have hin : u32At (blit (fun _ => 0) 0 (words32 f) (4 * n)) (0 + 4 * k) = u32At (words32 f) (4 * k) :=
    u32At_blit_in (by omega)
  rw [Nat.zero_add] at hin
  rw [hin, u32At_words32]

/-- The words of a superblock. -/
def sbWord (sb : Superblock) : Nat → Nat
  | 0 => sb.magic | 1 => sb.size | 2 => sb.nblocks | 3 => sb.ninodes | 4 => sb.nlog | 5 => sb.logstart
  | 6 => sb.inodestart | _ => sb.bmapstart

/-- The superblock is read back as it was written. -/
theorem sbAt_superblock {total : Nat} (h : total < 2 ^ 32) : sbAt (sbBytes (superblock total)) = superblock total := by
  have hval {n : Nat} (hn : n < 2 ^ 32) : (UInt32.ofNat n).toNat = n := by
    rw [UInt32.toNat_ofNat', Nat.mod_eq_of_lt hn]
  have hread {k v : Nat} (hk : k < 8) (hv : v < 2 ^ 32)
      (hw : u32At (sbBytes (superblock total)) (4 * k) = UInt32.ofNat v) :
      (u32At (sbBytes (superblock total)) (4 * k)).toNat = v := by
    rw [hw, hval hv]
  unfold sbAt superblock
  rw [Superblock.mk.injEq]
  have hw {k : Nat} (hk : k < 8) := u32At_blit_words (n := 8) (fun i => UInt32.ofNat (sbWord (superblock total) i)) hk
  exact ⟨hread (k := 0) (by decide) (by decide) (hw (by decide)), hread (k := 1) (by decide) h (hw (by decide)),
    hread (k := 2) (by decide) (by omega) (hw (by decide)), hread (k := 3) (by decide) (by decide) (hw (by decide)),
    hread (k := 4) (by decide) (by decide) (hw (by decide)), hread (k := 5) (by decide) (by decide) (hw (by decide)),
    hread (k := 6) (by decide) (by decide) (hw (by decide)), hread (k := 7) (by decide) (by decide) (hw (by decide))⟩

/-- The layout is one that the kernel can read. -/
theorem geometry {total : Nat} (hsize : total < 2 ^ 32) : Geometry (superblock total) where
  magic := Eq.refl _
  inodes i hi := by
    have hblk := inodeBlock_lt hi total
    have hstart : (superblock total).bmapstart = 15 := congrArg (2 + ·) inodeblocks_eq
    omega
  root := (by decide : ROOTINO < NINODES)
  few := (by decide : NINODES ≤ 2 ^ 16)
  size := hsize

/-! ## The image -/

/-- The entry of the directory that contains it, or is its parent. -/
def dotEntry (name : List UInt8) : Bytes := mkDirent (UInt16.ofNat ROOTINO) (nameBytes name)

/-- The block of the root directory. -/
def rootBlock : Block := blit (blit (fun _ => 0) 0 (dotEntry [0x2e]) DIRENT) DIRENT (dotEntry [0x2e, 0x2e]) DIRENT

/-- The dinode of the root directory, of `size` bytes, in block `b`. -/
def rootDinode (b : Nat) (size : UInt32) : Dinode :=
  { ({ Dinode.zero with type := T_DIR, nlink := 1 } : Dinode).setAddr 0 b with size }

theorem rootDinode_addr {b : Nat} (h : b < 2 ^ 32) (size : UInt32) : (rootDinode b size).addr 0 = b := by
  have hset := Dinode.addr_setAddr (j := 0) (by decide) { Dinode.zero with type := T_DIR, nlink := 1 } h 0
  rw [if_pos (Eq.refl _)] at hset
  exact hset

/-- The superblock, the bits of the blocks below `m`, the dinode of the root and its block. -/
structure Layout (total m : Nat) (din : Dinode) (data : Block) (D : Nat → Block) : Prop where
  super : D SBLOCK = sbBytes (superblock total)
  bits : ∀ b, b / BPB < nbitmap total → marked (superblock total) D b = decide (b < m)
  root : dinodeOf (superblock total) D ROOTINO = din
  others : ∀ i < NINODES, i ≠ ROOTINO → dinodeOf (superblock total) D i = Dinode.zero
  data : D (nmeta total) = data

/-- The disk is an image of `mkfs`. -/
def Image (total : Nat) (D : Nat → Block) : Prop :=
  Layout total (nmeta total + 1) (rootDinode (nmeta total) 32) rootBlock D

namespace Layout

variable {total m : Nat} {din : Dinode} {data : Block} {D : Nat → Block}

theorem zeros (total : Nat) :
    Layout total 0 Dinode.zero (fun _ => 0) (update (fun _ _ => 0) SBLOCK (sbBytes (superblock total))) where
  super := update_self _ _ _
  bits b _ := by
    have hne : mapBlock (superblock total) b ≠ SBLOCK := by
      have hle := le_mapBlock total b
      unfold SBLOCK
      omega
    unfold marked
    rw [update_of_ne hne]
    unfold bitAt
    simp
  root := by
    have hlt := inodeBlock_lt (i := ROOTINO) (by decide) total
    unfold dinodeOf
    rw [update_of_ne]
    · exact dinodeAt_zero fun _ _ _ => rfl
    · unfold SBLOCK
      omega
  others i hi _ := by
    have hlt := inodeBlock_lt hi total
    unfold dinodeOf
    rw [update_of_ne]
    · exact dinodeAt_zero fun _ _ _ => rfl
    · unfold SBLOCK
      omega
  data := by
    have hge := nmeta_ge total
    rw [update_of_ne]
    unfold SBLOCK
    omega

/-- The next bit is set. -/
theorem mark (h : Layout total m din data D) (hm : m / BPB < nbitmap total) :
    Layout total (m + 1) din data
      (update D (mapBlock (superblock total) m) (setBit (D (mapBlock (superblock total) m)) (m % BPB))) := by
  have hmap := le_mapBlock total m
  have hnext := mapBlock_lt_nmeta hm
  refine ⟨?_, fun b hb => ?_, ?_, fun i hi hne => ?_, ?_⟩
  · rw [update_of_ne]
    · exact h.super
    · unfold SBLOCK
      omega
  · have hbit := h.bits b hb
    unfold marked at hbit ⊢
    by_cases heq : mapBlock (superblock total) b = mapBlock (superblock total) m
    · rw [heq, update_self, bitAt_setBit, ← heq, hbit]
      rw [mapBlock_eq, mapBlock_eq] at heq
      have hdiv : b / BPB = m / BPB := by omega
      have hiff : b % BPB = m % BPB ↔ b = m := by
        constructor
        · intro hmod
          rw [← Nat.div_add_mod b BPB, ← Nat.div_add_mod m BPB, hdiv, hmod]
        · rintro rfl
          exact Eq.refl _
      simp only [hiff, ← Bool.decide_or, decide_eq_decide]
      omega
    · rw [update_of_ne heq, hbit, decide_eq_decide]
      have hne : b ≠ m := by
        rintro rfl
        exact heq (Eq.refl _)
      omega
  · have hlt := inodeBlock_lt (i := ROOTINO) (by decide) total
    unfold dinodeOf
    rw [update_of_ne (by omega)]
    exact h.root
  · have hlt := inodeBlock_lt hi total
    unfold dinodeOf
    rw [update_of_ne (by omega)]
    exact h.others i hi hne
  · rw [update_of_ne (by omega)]
    exact h.data

/-- The dinode of the root is written. -/
theorem winode (h : Layout total m din data D) (din' : Dinode) :
    Layout total m din' data (update D (inodeBlock (superblock total) ROOTINO)
      (putDinode (D (inodeBlock (superblock total) ROOTINO)) (ROOTINO % IPB) din')) := by
  have hlt := inodeBlock_lt (i := ROOTINO) (by decide) total
  have hge := nmeta_ge total
  refine ⟨?_, fun b hb => ?_, ?_, fun i hi hne => ?_, ?_⟩
  · rw [update_of_ne]
    · exact h.super
    · unfold SBLOCK
      omega
  · have hmap := le_mapBlock total b
    have hnext := mapBlock_lt_nmeta hb
    unfold marked
    rw [update_of_ne (by omega)]
    exact h.bits b hb
  · unfold dinodeOf
    rw [update_self, dinodeAt_putDinode_self]
  · have hother := h.others i hi hne
    unfold dinodeOf at hother ⊢
    by_cases heq : inodeBlock (superblock total) i = inodeBlock (superblock total) ROOTINO
    · rw [heq] at hother ⊢
      rw [update_self, dinodeAt_putDinode_of_ne]
      · exact hother
      · rw [inodeBlock_eq, inodeBlock_eq] at heq
        unfold IPB BSIZE ROOTINO at *
        omega
    · rw [update_of_ne heq]
      exact hother
  · rw [update_of_ne (by omega)]
    exact h.data

/-- The block after the metadata is written. -/
theorem put (h : Layout total m din data D) (data' : Block) : Layout total m din data' (update D (nmeta total) data') := by
  have hge := nmeta_ge total
  refine ⟨?_, fun b hb => ?_, ?_, fun i hi hne => ?_, update_self _ _ _⟩
  · rw [update_of_ne]
    · exact h.super
    · unfold SBLOCK
      omega
  · have hmap := le_mapBlock total b
    have hnext := mapBlock_lt_nmeta hb
    unfold marked
    rw [update_of_ne (by omega)]
    exact h.bits b hb
  · have hlt := inodeBlock_lt (i := ROOTINO) (by decide) total
    unfold dinodeOf
    rw [update_of_ne (by omega)]
    exact h.root
  · have hlt := inodeBlock_lt hi total
    unfold dinodeOf
    rw [update_of_ne (by omega)]
    exact h.others i hi hne

end Layout


/-! ## The run of `main` -/

/-- There is no image for a block count that is too large for an `int`, or leaves no data block. -/
def NoImage (total : Nat) : Prop := 2 ^ 31 ≤ total + BPB - 1 ∨ total ≤ nmeta total

/-- The image file in the middle of `main`. -/
structure Stage (total m freeblock : Nat) (din : Dinode) (data : Block) (s : State) : Prop where
  len : s.len = max total 2
  sb : s.sb = superblock total
  freeblock : s.freeblock = freeblock
  layout : Layout total m din data s.blocks

section Run
variable {total m f sec : Nat} {din : Dinode} {data : Block} {s : State}

theorem wp_rsect {Q : Block → State → Prop} (hlen : s.len = max total 2) (hsec : sec ≤ nmeta total)
    (hQ : sec < s.len → Q (s.blocks sec) s) : (rsect sec).wp Q (fun _ => NoImage total) s := by
  unfold rsect
  rw [wp_bind, wp_get]
  by_cases hin : sec < s.len
  · rw [if_pos hin]
    exact hQ hin
  · rw [if_neg hin]
    refine .inr ?_
    omega

theorem wp_wsect {Q : Unit → State → Prop} {E : Halt → Prop} {buf : Block} (hin : sec < s.len)
    (hQ : Q () { s with blocks := update s.blocks sec buf }) : (wsect sec buf).wp Q E s := by
  unfold wsect
  rw [wp_modify, max_eq_left (by omega)]
  exact hQ

theorem markBit_eq (buf : Block) (b : Nat) : markBit buf b = setBit buf (b % BPB) := by
  unfold markBit setBit
  rw [Nat.mod_mod_of_dvd b (show 8 ∣ BPB by decide)]

theorem wp_ballocMark (h : Stage total m f din data s) (hm : m ≤ nmeta total) {Q : Unit → State → Prop}
    (hQ : ∀ t, Stage total (m + 1) f din data t → t.freeinode = s.freeinode → Q () t) :
    (ballocMark m).wp Q (fun _ => NoImage total) s := by
  unfold ballocMark
  rw [wp_bind, wp_gets, h.sb, wp_bind]
  refine wp_rsect h.len (mapBlock_le hm) fun hin => ?_
  refine wp_wsect hin ?_
  rw [markBit_eq]
  have hlen := h.len
  have hpos : 0 < nbitmap total := by
    have hle := le_mapBlock total m
    unfold mapBlock at hle
    exact nbitmap_pos (by omega)
  exact hQ _ ⟨h.len, h.sb, h.freeblock, h.layout.mark (div_lt_nbitmap_of_le hm hpos)⟩ (Eq.refl _)

theorem wp_winode (h : Stage total m f din data s) (din' : Dinode) {Q : Unit → State → Prop}
    (hQ : ∀ t, Stage total m f din' data t → t.freeinode = s.freeinode → Q () t) :
    (winode ROOTINO din').wp Q (fun _ => NoImage total) s := by
  have hge := nmeta_ge total
  have hlt := inodeBlock_lt (i := ROOTINO) (by decide) total
  unfold winode
  rw [wp_bind, wp_gets, h.sb, wp_bind]
  refine wp_rsect h.len (by show inodeBlock (superblock total) ROOTINO ≤ _; omega) fun hin => ?_
  refine wp_wsect hin ?_
  exact hQ _ ⟨h.len, h.sb, h.freeblock, h.layout.winode din'⟩ (Eq.refl _)

theorem wp_rinode (h : Stage total m f din data s) {Q : Dinode → State → Prop} (hQ : Q din s) :
    (rinode ROOTINO).wp Q (fun _ => NoImage total) s := by
  have hge := nmeta_ge total
  have hlt := inodeBlock_lt (i := ROOTINO) (by decide) total
  unfold rinode
  rw [wp_bind, wp_gets, h.sb, wp_bind]
  refine wp_rsect h.len (by show inodeBlock (superblock total) ROOTINO ≤ _; omega) fun _ => ?_
  have hroot := h.layout.root
  unfold dinodeOf inodeBlock at hroot
  rw [wp_pure, hroot]
  exact hQ

/-- What writing to the first block of the root does to the counts and to its dinode. -/
def grown (total : Nat) (din : Dinode) : Dinode := if din.addr 0 = 0 then din.setAddr 0 (nmeta total) else din

/-- The first block of the root directory is allocated when its first entry is written. -/
theorem wp_blockOf (h : Stage total m f din data s) (hnew : din.addr 0 = 0 → m = nmeta total ∧ f = nmeta total)
    (hold : din.addr 0 ≠ 0 → din.addr 0 = nmeta total) {Q : Dinode × Nat → State → Prop}
    (hQ : ∀ f' t, Stage total (if din.addr 0 = 0 then m + 1 else m) f' din data t →
      Q (grown total din, nmeta total) t) : (blockOf din 0).wp Q (fun _ => NoImage total) s := by
  unfold blockOf
  unfold grown at hQ
  rw [if_pos (by decide)]
  by_cases h0 : din.addr 0 = 0
  · obtain ⟨rfl, hf⟩ := hnew h0
    rw [if_pos h0, if_pos h0] at hQ
    rw [if_pos h0]
    unfold nextBlock
    simp only [wp_bind, wp_gets, wp_modify, wp_pure, h.freeblock, hf]
    have hnext : Stage total (nmeta total) (nmeta total + 1) din data { s with freeblock := nmeta total + 1 } :=
      ⟨h.len, h.sb, Eq.refl _, h.layout⟩
    exact wp_ballocMark hnext (Nat.le_refl _) fun t ht _ => hQ _ t ht
  · rw [if_neg h0, if_neg h0] at hQ
    rw [if_neg h0, hold h0]
    exact hQ f s h

theorem wp_iappend (h : Stage total m f din data s) (hnew : din.addr 0 = 0 → m = nmeta total ∧ f = nmeta total)
    (hold : din.addr 0 ≠ 0 → din.addr 0 = nmeta total) (xp : Bytes) {n : Nat} (hn : 0 < n)
    (hfit : din.size.toNat + n ≤ BSIZE) {Q : Unit → State → Prop}
    (hQ : ∀ f' t, Stage total (if din.addr 0 = 0 then m + 1 else m) f'
      { grown total din with size := UInt32.ofNat (din.size.toNat + n) } (blit data din.size.toNat xp n) t →
      nmeta total < total → Q () t) : (iappend ROOTINO xp n).wp Q (fun _ => NoImage total) s := by
  have hoff : din.size.toNat / BSIZE = 0 := Nat.div_eq_of_lt (by omega)
  have hmod : din.size.toNat % BSIZE = din.size.toNat := Nat.mod_eq_of_lt (by omega)
  have hmin : min (BSIZE - din.size.toNat) n = n := Nat.min_eq_right (by omega)
  unfold iappend
  rw [wp_bind]
  refine wp_rinode h ?_
  unfold iappendLoop
  rw [if_pos hn, hoff, if_pos (by decide), hmod, hmin]
  simp only [wp_bind]
  refine wp_blockOf h hnew hold fun f' t ht => ?_
  refine wp_rsect ht.len (Nat.le_refl _) fun hin => ?_
  refine wp_wsect hin ?_
  -- one block takes the whole entry
  unfold iappendLoop
  rw [Nat.sub_self, if_neg (Nat.lt_irrefl 0), wp_pure]
  have hput := ht.layout.put (blit (t.blocks (nmeta total)) din.size.toNat (fun i => xp (0 + i)) n)
  rw [ht.layout.data] at hput
  simp only [Nat.zero_add] at hput ⊢
  rw [ht.layout.data]
  have hstage := Stage.mk (s := { t with blocks := update t.blocks (nmeta total) (blit data din.size.toNat xp n) })
    ht.len ht.sb ht.freeblock hput
  refine wp_winode hstage _ fun u hu _ => hQ f' u hu ?_
  have hlen := ht.len
  have hge := nmeta_ge total
  omega

end Run

/-- The image file is zeroed. -/
theorem wp_zeros (total : Nat) (E : Halt → Prop) :
    (forN (fun i => wsect i fun _ => 0) total).wp (fun _ s => s = { boot with len := total }) E boot := by
  refine wp_forN (fun i s => s = { boot with len := i }) (Eq.refl _) fun i s _ hs => ?_
  rw [hs]
  unfold wsect
  rw [wp_modify]
  congr 1
  · exact update_eq_self i _
  · exact max_eq_right (Nat.le_succ i)

/-- The superblock is written, and no bit is set yet. -/
theorem stage_start (total : Nat) : Stage total 0 (nmeta total) Dinode.zero (fun _ => 0)
    { blocks := update (fun _ _ => 0) SBLOCK (sbBytes (superblock total)), len := max total (SBLOCK + 1),
      sb := superblock total, freeblock := nmeta total, freeinode := 1 } :=
  ⟨Eq.refl _, Eq.refl _, Eq.refl _, Layout.zeros total⟩

/-- `main` leaves an image, for every block count that leaves a data block. -/
theorem main_run (total : Nat) :
    (∀ a img, (main total).run boot = .ok (a, img) → Image total img.blocks ∧ ¬ NoImage total) ∧
      ∀ h, (main total).run boot = .error h → NoImage total := by
  refine (wp_iff (main total)).1 ?_
  rw [main, wp_ite]
  constructor
  · intro hover
    exact .inl hover
  · intro hover
    rw [wp_bind]
    refine wp_post (wp_zeros total _) fun _ s hs => ?_
    rw [hs]
    simp only [wp_bind, wp_modify]
    unfold wsect
    rw [wp_modify]
    refine wp_post (wp_forN (fun i t => Stage total i (nmeta total) Dinode.zero (fun _ => 0) t ∧ t.freeinode = 1)
      ⟨stage_start total, Eq.refl _⟩ fun i t hi ht =>
        wp_ballocMark ht.1 (Nat.le_of_lt hi) fun u hu hfree => ⟨hu, hfree.trans ht.2⟩) fun _ t ht => ?_
    unfold ialloc
    simp only [wp_bind, wp_gets, wp_modify, wp_pure, ht.2]
    have hnext : Stage total (nmeta total) (nmeta total) Dinode.zero (fun _ => 0) { t with freeinode := 1 + 1 } :=
      ⟨ht.1.len, ht.1.sb, ht.1.freeblock, ht.1.layout⟩
    refine wp_winode hnext _ fun u hu _ => ?_
    rw [if_pos (by decide), wp_bind]
    refine wp_iappend hu (fun _ => ⟨Eq.refl _, Eq.refl _⟩) (fun h0 => absurd (by decide) h0) _ (by decide) (by decide)
      fun f' v hv hroom => ?_
    have hlt : nmeta total < 2 ^ 32 := by
      unfold BPB BSIZE at hover
      omega
    have hpos : nmeta total ≠ 0 := by
      have hge := nmeta_ge total
      omega
    have hdot : Stage total (nmeta total + 1) f' (rootDinode (nmeta total) 16)
        (blit (fun _ => 0) 0 (dotEntry [0x2e]) DIRENT) v := by
      unfold grown at hv
      rw [if_pos (by decide), if_pos (by decide)] at hv
      exact hv
    have hset : (rootDinode (nmeta total) 16).addr 0 ≠ 0 := by
      rw [rootDinode_addr hlt]
      exact hpos
    have hfit : (16 : UInt32).toNat + DIRENT ≤ BSIZE := by decide
    refine wp_iappend hdot (fun h0 => absurd h0 hset) (fun _ => rootDinode_addr hlt 16) _ (by decide) hfit
      fun g w hw _ => ?_
    unfold grown at hw
    rw [if_neg hset, if_neg hset] at hw
    refine ⟨hw.layout, ?_⟩
    rintro (hn | hn)
    · exact hover hn
    · omega

theorem Makes.image {total : Nat} {img : State} (h : Makes total img) : Image total img.blocks ∧ ¬ NoImage total :=
  (main_run total).1 () img h

theorem makes (total : Nat) (h : ¬ NoImage total) : ∃ img, Makes total img ∧ Image total img.blocks := by
  cases hrun : (main total).run boot with
  | ok r => exact ⟨r.2, hrun, ((main_run total).1 r.1 r.2 hrun).1⟩
  | error e => exact absurd ((main_run total).2 e hrun) h

/-! ## The image as the kernel reads it -/

namespace Image

variable {total : Nat} {D : Nat → Block}

theorem sbAt_eq (h : Image total D) (hlt : total < 2 ^ 32) : sbAt (D 1) = superblock total := by
  have hsuper : D 1 = _ := h.super
  rw [hsuper, sbAt_superblock hlt]

/-- Only the root is in use. -/
theorem used_iff (h : Image total D) (i : Nat) :
    Used (superblock total) (dinodeOf (superblock total) D) i ↔ i = ROOTINO := by
  unfold Used
  constructor
  · rintro ⟨hi, htype⟩
    by_contra hne
    rw [h.others i hi hne] at htype
    exact htype (Eq.refl _)
  · rintro rfl
    refine ⟨(by decide : ROOTINO < NINODES), ?_⟩
    rw [h.root]
    exact (by decide : T_DIR ≠ 0)

theorem slotVal_root (hlt : nmeta total < 2 ^ 32) (size : UInt32) (j : Nat) :
    slotVal D (rootDinode (nmeta total) size) j = if j = 0 then nmeta total else 0 := by
  have haddr (k : Nat) : (rootDinode (nmeta total) size).addr k = if k = 0 then nmeta total else 0 := by
    have hset := Dinode.addr_setAddr (j := 0) (by decide) { Dinode.zero with type := T_DIR, nlink := 1 } hlt k
    have hzero : Dinode.addr { Dinode.zero with type := T_DIR, nlink := 1 } k = 0 := by
      unfold Dinode.addr
      split
      · exact Eq.refl _
      · exact Eq.refl _
    rw [hzero] at hset
    exact hset
  unfold slotVal
  rw [haddr, haddr, if_neg (show NDIRECT ≠ 0 by decide), if_pos (Eq.refl 0)]
  by_cases hj : j ≤ NDIRECT
  · rw [if_pos hj]
  · rw [if_neg hj, if_neg]
    rintro rfl
    exact hj (Nat.zero_le _)

/-- The entries of the root. -/
theorem direntAt_root (h : Image total D) (hlt : nmeta total < 2 ^ 32) {off i : Nat} (hin : off + i < BSIZE)
    (hi : i < DIRENT) : direntAt D (rootDinode (nmeta total) 32) off i = rootBlock (off + i) := by
  rw [direntAt_eq _ _ _ hi]
  unfold contents slotOf
  rw [Nat.div_eq_of_lt hin, Nat.mod_eq_of_lt hin, if_pos (by decide), slotVal_root hlt, if_pos (Eq.refl 0), h.data]

theorem deInum_root (h : Image total D) (hlt : nmeta total < 2 ^ 32) {off : Nat} (hoff : off = 0 ∨ off = DIRENT) :
    deInum (direntAt D (rootDinode (nmeta total) 32) off) = UInt16.ofNat ROOTINO := by
  have hread : deInum (direntAt D (rootDinode (nmeta total) 32) off) = u16At rootBlock off := by
    refine u16At_congr fun i hi => ?_
    rw [h.direntAt_root hlt]
    · rw [Nat.zero_add]
    · unfold DIRENT at hoff
      unfold BSIZE
      omega
    · unfold DIRENT
      omega
  rw [hread]
  rcases hoff with rfl | rfl <;> decide

/-- The invariant of the file system holds. -/
theorem diskOk (h : Image total D) (hno : ¬ NoImage total) : DiskOk (superblock total) D := by
  unfold NoImage at hno
  rw [not_or, Nat.not_le, Nat.not_le] at hno
  obtain ⟨hover, hroom⟩ := hno
  have hsize : total < 2 ^ 32 := by
    unfold BPB BSIZE at hover
    omega
  have hlt : nmeta total < 2 ^ 32 := hroom.trans hsize
  have hmeta := nmeta_eq total
  have hge := nmeta_ge total
  have hroot := h.root
  have hslot (j : Nat) : slotVal D (dinodeOf (superblock total) D ROOTINO) j = if j = 0 then nmeta total else 0 := by
    rw [hroot]
    exact slotVal_root hlt 32 j
  have hbit {b : Nat} (hb : b < mapSize total) : marked (superblock total) D b = decide (b < nmeta total + 1) :=
    h.bits b (div_lt_of_mapSize hb)
  have hroom' : nmeta total < mapSize total := hroom.trans_le (le_mapSize total)
  have hblocks : nblk (dinodeOf (superblock total) D ROOTINO).size.toNat = 1 := by
    rw [hroot]
    exact (by decide : nblk (32 : UInt32).toNat = 1)
  refine ⟨⟨geometry hsize, h.sbAt_eq hsize, fun b hb hbs => ?_, fun i j hi hj h0 => ?_,
    fun i j i' j' hi hj hi' hj' h0 he => ?_, fun i hi => ?_, fun i bn hi hbn => ?_, fun i hi => ?_⟩, ?_, fun i hi _ => ?_⟩
  · rw [hbit hbs, decide_eq_true_eq]
    omega
  · rw [h.used_iff] at hi
    subst hi
    rw [hslot] at h0 ⊢
    by_cases hj0 : j = 0
    · rw [if_pos hj0, hbit hroom', hmeta]
      exact ⟨Nat.le_refl _, hroom', decide_eq_true (Nat.lt_succ_self _)⟩
    · exact absurd (if_neg hj0) h0
  · rw [h.used_iff] at hi hi'
    subst hi hi'
    rw [hslot] at h0 he
    rw [hslot] at he
    refine ⟨Eq.refl _, ?_⟩
    by_cases hj0 : j = 0
    · by_cases hj0' : j' = 0
      · rw [hj0, hj0']
      · rw [if_pos hj0, if_neg hj0'] at he
        omega
    · exact absurd (if_neg hj0) h0
  · rw [h.used_iff] at hi
    subst hi
    rw [hroot]
    exact (by decide : (32 : UInt32).toNat ≤ MAXBYTES)
  · rw [h.used_iff] at hi
    subst hi
    rw [hslot, hblocks]
    unfold slotOf
    constructor
    · intro h0
      by_contra hbn'
      refine h0 (if_neg ?_)
      split <;> omega
    · intro hbn'
      have hbn0 : bn = 0 := by omega
      subst hbn0
      rw [if_pos (show 0 < NDIRECT by decide), if_pos (Eq.refl 0)]
      omega
  · rw [h.used_iff] at hi
    subst hi
    rw [hslot, hblocks, if_neg (by decide)]
    exact ⟨fun h0 => absurd (Eq.refl 0) h0, fun hn => absurd hn (by decide)⟩
  · rw [h.used_iff]
  · rw [h.used_iff] at hi
    subst hi
    have hsize32 : (dinodeOf (superblock total) D ROOTINO).size.toNat = 32 := by
      rw [hroot]
      exact (by decide : (32 : UInt32).toNat = 32)
    refine ⟨?_, fun off hdvd hoff _ => ?_⟩
    · rw [hsize32]
      exact ⟨2, Eq.refl _⟩
    · rw [hsize32] at hoff
      have hcases : off = 0 ∨ off = DIRENT := by
        unfold DIRENT at *
        omega
      rw [hroot, h.deInum_root hlt hcases, h.used_iff]
      decide

end Image

/-! ## Mounting an image -/

/-- The image is mounted. -/
def MountStart (img : State) (s : Fs.State) : Prop :=
  ∃ s₀ : Fs.State, s₀.dev = Dev.boot img.blocks ∧
    (do lift binit; fsinit ROOTDEV : Prog Fs.State Unit).run s₀ = .ok ((), s)

section Mount
variable {total : Nat} {img : State} {s s₀ : Fs.State}

theorem Image.wp_mount {D : Nat → Block} (h : Image total D) (hsize : total < 2 ^ 32) (hs₀ : s₀.dev = Dev.boot D) :
    (do lift binit; fsinit ROOTDEV : Prog Fs.State Unit).wp (fun _ t => Idle t.dev [] ∧ t.dev.disk = D ∧
      t.sb = superblock total ∧ Refs t fun _ => 0) (fun _ => False) s₀ := by
  have hsb := h.sbAt_eq hsize
  have hmagic : (sbAt (D 1)).magic = FSMAGIC := by
    rw [hsb]
    exact Eq.refl _
  have hmount := Fs.wp_mount hs₀ hmagic
  rwa [hsb] at hmount

theorem Makes.size_lt (hm : Makes total img) : total < 2 ^ 32 := by
  have hno := hm.image.2
  unfold NoImage BPB BSIZE at hno
  omega

/-- What `binit` and `fsinit` leave. -/
theorem Makes.mounted (hm : Makes total img) (h : MountStart img s) :
    Idle s.dev [] ∧ s.dev.disk = img.blocks ∧ s.sb = superblock total ∧ Refs s fun _ => 0 := by
  obtain ⟨s₀, hs₀, hrun⟩ := h
  have hmount := hm.image.1.wp_mount hm.size_lt hs₀
  exact wp_ok hmount hrun

/-- An image can be mounted. -/
theorem Makes.mountStart_of (hm : Makes total img) (hs₀ : s₀.dev = Dev.boot img.blocks) :
    ∃ s, (do lift binit; fsinit ROOTDEV : Prog Fs.State Unit).run s₀ = .ok ((), s) := by
  have hmount := hm.image.1.wp_mount hm.size_lt hs₀
  obtain ⟨a, s, hrun, -⟩ := wp_total hmount
  exact ⟨s, hrun⟩

theorem Makes.mountStart (hm : Makes total img) : ∃ s, MountStart img s := by
  obtain ⟨s₀, hs₀⟩ : ∃ s₀ : Fs.State, s₀.dev = Dev.boot img.blocks :=
    ⟨⟨Dev.boot img.blocks, superblock total, fun _ => ⟨0, 0, 0, false, Dinode.zero⟩⟩, Eq.refl _⟩
  obtain ⟨s, hrun⟩ := hm.mountStart_of hs₀
  exact ⟨s, s₀, hs₀, hrun⟩

/-- The invariant of the file system holds on a mounted image. -/
theorem Makes.fsInv (hm : Makes total img) (h : MountStart img s) : FsInv s fun _ => 0 := by
  obtain ⟨hidle, hdisk, hsb, hrefs⟩ := hm.mounted h
  have hsuper := hm.image.1.sbAt_eq hm.size_lt
  refine fsInv_of_mount hidle hdisk ?_ hrefs ?_
  · rw [hsuper, hsb]
  · rw [hsuper]
    exact hm.image.1.diskOk hm.image.2

/-- The root of a mounted image, locked. -/
theorem Makes.wp_root (hm : Makes total img) (h : MountStart img s) :
    (do let ip ← iget ROOTDEV ROOTINO; ilock ip; return ip : Prog Fs.State (Fin NINODE)).wp (fun ip t =>
      FsInv t (hold (fun _ => 0) ip) ∧ (t.icache ip).valid = true ∧ (t.icache ip).din = rootDinode (nmeta total) 32 ∧
      t.dev.disk = img.blocks) (fun _ => False) s := by
  have hinv := hm.fsInv h
  obtain ⟨-, hdisk, hsb, -⟩ := hm.mounted h
  rw [wp_bind]
  refine hinv.wp_iget hinv.disk.root (fun ip t ht hst hinum => ?_) (.inr ⟨⟨0, by decide⟩, rfl⟩)
  rw [wp_bind]
  refine ht.wp_ilock (hold_pos _ ip) fun u hu hst' hv => ⟨hu, hv, ?_, ?_⟩
  · rw [hu.clean ip hv, hst'.inum ip (hold_pos _ ip), hinum, hst'.sb, hst'.disk, hst.sb, hst.disk, hdisk, hsb]
    exact hm.image.1.root
  · rw [hst'.disk, hst.disk, hdisk]

end Mount

/-! ## What the kernel assumes -/

/-- The areas of the layout: block 1, then the blocks of the inodes, of the bit map and of the data. -/
structure Areas (sb : Superblock) (total : Nat) : Prop where
  nmeta : Fs.nmeta sb = 15 + (total + 8191) / 8192
  inodes : ∀ k, 2 ≤ k ∧ k < 15 ↔ ∃ i < NINODES, inodeBlock sb i = k
  inodesOnce : ∀ i j, inodeBlock sb i = inodeBlock sb j → i % IPB = j % IPB → i = j
  bits : ∀ k, 15 ≤ k ∧ k < Fs.nmeta sb ↔ ∃ b < total, mapBlock sb b = k
  bitsOnce : ∀ b c, mapBlock sb b = mapBlock sb c → b % BPB = c % BPB → b = c
  data : Fs.nmeta sb < total
  size : sb.size = total ∧ sb.ninodes = NINODES

theorem areas {total : Nat} (hroom : nmeta total < total) : Areas (superblock total) total where
  nmeta := by
    rw [nmeta_eq, nmeta_ge]
    unfold nbitmap BPB BSIZE
    exact congrArg (15 + ·) (congrArg (· / 8192) (by omega))
  inodes k := by
    constructor
    · rintro ⟨hlo, hhi⟩
      refine ⟨16 * (k - 2), ?_, ?_⟩
      · unfold NINODES
        omega
      · rw [inodeBlock_eq]
        unfold IPB BSIZE
        omega
    · rintro ⟨i, hi, rfl⟩
      exact inodeBlock_lt hi total
  inodesOnce i j hblk hmod := by
    rw [inodeBlock_eq, inodeBlock_eq] at hblk
    rw [← Nat.div_add_mod i IPB, ← Nat.div_add_mod j IPB, hmod, Nat.add_left_cancel hblk]
  bits k := by
    rw [nmeta_eq, nmeta_ge]
    constructor
    · rintro ⟨hlo, hhi⟩
      refine ⟨8192 * (k - 15), ?_, ?_⟩
      · unfold nbitmap BPB BSIZE at hhi
        omega
      · rw [mapBlock_eq]
        unfold BPB BSIZE
        omega
    · rintro ⟨b, hb, rfl⟩
      have hlt := mapBlock_lt_nmeta (div_lt_nbitmap hb)
      rw [nmeta_ge] at hlt
      exact ⟨le_mapBlock total b, hlt⟩
  bitsOnce b c hblk hmod := by
    rw [mapBlock_eq, mapBlock_eq] at hblk
    rw [← Nat.div_add_mod b BPB, ← Nat.div_add_mod c BPB, hmod, Nat.add_left_cancel hblk]
  data := by
    rw [nmeta_eq]
    exact hroom
  size := ⟨rfl, rfl⟩

/-- The buffer holds this name, with its NUL. -/
def Holds (buf : Bytes) (name : List UInt8) : Prop := ∀ i ≤ name.length, buf i = name.getD i 0

/-- What is found under the root, from a state in which the root is locked. -/
def FindsRoot (ip : Fin NINODE) (s : Fs.State) : Prop :=
  ∀ buf, Holds buf [0x2e] ∨ Holds buf [0x2e, 0x2e] →
    (dirlookup ip buf).wp (fun r t => ∃ jp, r = some jp ∧ (t.icache jp).inum = ROOTINO) (fun _ => False) s

/-- The kernel, after `fsinit`: what `ilock` makes of an inode, and where `namei` and `dirlookup` lead. -/
structure Mounted (s : Fs.State) : Prop where
  root : (iget ROOTDEV ROOTINO).wp (fun ip t => (ilock ip).wp (fun _ u =>
    (u.icache ip).din.type = T_DIR ∧ (u.icache ip).din.size = 32 ∧ FindsRoot ip u) (fun _ => False) t) (fun _ => False) s
  others : ∀ i < NINODES, i ≠ ROOTINO → (dinodeOf s.sb s.dev.disk i).type = 0 ∧
    (iget ROOTDEV i).wp (fun ip t => (ilock ip).wp (fun _ _ => False) (· = .panic "ilock: no type") t) (fun _ => False) s
  namei : (namei [slash]).wp (fun r t => ∃ ip, r = some ip ∧ (t.icache ip).inum = ROOTINO) (fun _ => False) s

section Found
variable {total : Nat} {D : Nat → Block} {s : Fs.State} {ip : Fin NINODE} {refs : Fin NINODE → Nat}

theorem mappedTo_root (hlt : nmeta total < 2 ^ 32) : MappedTo D (rootDinode (nmeta total) 32) 32 := by
  intro o ho
  have hdiv : o / BSIZE = 0 := by
    unfold BSIZE
    omega
  have hge := nmeta_ge total
  rw [hdiv, Image.slotVal_root hlt]
  refine ⟨by decide, ?_⟩
  rw [if_pos (by decide)]
  omega

/-- The names of the entries of the root. -/
theorem deName_root (h : Image total D) (hlt : nmeta total < 2 ^ 32) {off i : Nat} (hoff : off = 0 ∨ off = DIRENT)
    (hi : i < DIRSIZ) : deName (direntAt D (rootDinode (nmeta total) 32) off) i = rootBlock (off + (2 + i)) := by
  unfold deName
  rw [h.direntAt_root hlt]
  · unfold DIRENT DIRSIZ at *
    unfold BSIZE
    omega
  · unfold DIRENT
    unfold DIRSIZ at hi
    omega

/-- Entry `off` of the root has this name. -/
def named (D : Nat → Block) (total off : Nat) (name : Bytes) : Bool :=
  nameMatch (deName (direntAt D (rootDinode (nmeta total) 32) off)) name DIRSIZ 0

/-- The search of the root: both entries lead to it. -/
theorem lookup_named (h : Image total D) (hlt : nmeta total < 2 ^ 32) (name : Bytes) :
    lookup D (rootDinode (nmeta total) 32) name =
      if named D total 0 name then some ROOTINO else if named D total DIRENT name then some ROOTINO else none := by
  have hsize : (rootDinode (nmeta total) 32).size.toNat = 32 := (by decide : (32 : UInt32).toNat = 32)
  have hinum : UInt16.ofNat ROOTINO ≠ 0 := by decide
  have hroot : (UInt16.ofNat ROOTINO).toNat = ROOTINO := by decide
  have hend : lookupFrom D (rootDinode (nmeta total) 32) name (DIRENT + DIRENT) = none := by
    rw [lookupFrom, hsize, if_neg (by decide)]
  unfold lookup named
  rw [lookupFrom, hsize, if_pos (by decide), h.deInum_root hlt (.inl rfl), if_neg hinum, Nat.zero_add, lookupFrom, hend,
    hsize, if_pos (show DIRENT < 32 by decide), h.deInum_root hlt (.inr rfl), if_neg hinum, hroot]

/-- A name that does not start with a dot is not in the root. -/
theorem lookup_root (h : Image total D) (hlt : nmeta total < 2 ^ 32) {name : Bytes} (hdot : name 0 ≠ 0x2e) :
    lookup D (rootDinode (nmeta total) 32) name = none := by
  have hfirst : rootBlock (0 + (2 + 0)) = 0x2e ∧ rootBlock (DIRENT + (2 + 0)) = 0x2e := by decide
  -- both entries start with a dot
  have hno {off : Nat} (hoff : off = 0 ∨ off = DIRENT) : named D total off name = false := by
    have hbyte : deName (direntAt D (rootDinode (nmeta total) 32) off) 0 = 0x2e := by
      rw [deName_root h hlt hoff (by decide)]
      rcases hoff with rfl | rfl
      · exact hfirst.1
      · exact hfirst.2
    unfold named DIRSIZ nameMatch
    rw [hbyte, if_pos (Ne.symm hdot)]
  rw [lookup_named h hlt, hno (.inl rfl), hno (.inr rfl), if_neg Bool.false_ne_true, if_neg Bool.false_ne_true]

/-- `.` and `..` are in the root. -/
theorem lookup_dots (h : Image total D) (hlt : nmeta total < 2 ^ 32) {buf : Bytes}
    (hbuf : Holds buf [0x2e] ∨ Holds buf [0x2e, 0x2e]) : lookup D (rootDinode (nmeta total) 32) buf = some ROOTINO := by
  have hname {off : Nat} (hoff : off = 0 ∨ off = DIRENT) (i : Nat) (hi : i < DIRSIZ) := deName_root h hlt hoff hi
  rw [lookup_named h hlt]
  rcases hbuf with hdot | hdots
  · have h0 := hdot 0 (by decide)
    have h1 := hdot 1 (by decide)
    have hfirst : named D total 0 buf = true := by
      unfold named DIRSIZ nameMatch nameMatch
      rw [hname (.inl rfl) 0 (by decide), hname (.inl rfl) 1 (by decide), h0, h1]
      rw [if_neg (by decide), if_neg (by decide), if_neg (by decide), if_pos (by decide)]
    rw [if_pos hfirst]
  · have h0 := hdots 0 (by decide)
    have h1 := hdots 1 (by decide)
    have h2 := hdots 2 (by decide)
    have hsecond : named D total DIRENT buf = true := by
      unfold named DIRSIZ nameMatch nameMatch nameMatch
      rw [hname (.inr rfl) 0 (by decide), hname (.inr rfl) 1 (by decide), hname (.inr rfl) 2 (by decide), h0, h1, h2]
      rw [if_neg (by decide), if_neg (by decide), if_neg (by decide), if_neg (by decide), if_neg (by decide),
        if_pos (by decide)]
    rw [if_pos hsecond, ite_self]

theorem findsRoot (h : Image total D) (hlt : nmeta total < 2 ^ 32) (hidle : Idle s.dev []) (hdisk : s.dev.disk = D)
    (hdev : (s.icache ip).dev = ROOTDEV) (hdin : (s.icache ip).din = rootDinode (nmeta total) 32) (hrefs : Refs s refs)
    (hfree : ∃ jp, refs jp = 0) : FindsRoot ip s := by
  intro buf hbuf
  have hlookup := lookup_dots h hlt hbuf
  rw [← hdin, ← hdisk] at hlookup
  have hsize : (rootDinode (nmeta total) 32).size.toNat = 32 := (by decide : (32 : UInt32).toNat = 32)
  have hmap : MappedTo s.dev.disk (s.icache ip).din (s.icache ip).din.size.toNat := by
    rw [hdin, hsize]
    exact mappedTo_root hlt
  refine Fs.wp_dirlookup hidle hdev (by rw [hdin, hsize]; decide) hmap buf (fun hnone _ _ _ => ?_) fun i hi d _ _ => ?_
  · rw [hlookup] at hnone
    exact absurd hnone (by simp)
  · obtain rfl : ROOTINO = i := Option.some.inj (hlookup.symm.trans hi)
    have hrefs' : Refs { s with dev := d } refs := hrefs.same fun _ => ⟨rfl, rfl, rfl, rfl⟩
    refine Fs.wp_iget hrefs' (fun jp _ _ hinum => ⟨jp, rfl, ?_⟩) (fun _ jp _ => ⟨jp, rfl, ?_⟩) (.inr hfree)
    · rw [State.setInode_self]
      exact hinum
    · rw [State.setInode_self]

theorem mounted (h : Image total D) (hlt : nmeta total < 2 ^ 32) (hidle : Idle s.dev []) (hdisk : s.dev.disk = D)
    (hsb : s.sb = superblock total) (hrefs : Refs s fun _ => 0) : Mounted s := by
  have higet (i : Nat) {Q : Fin NINODE → Fs.State → Prop}
      (hQ : ∀ ip, Refs (s.setInode ip { s.icache ip with dev := ROOTDEV, inum := i, ref := 1, valid := false })
        (hold (fun _ => 0) ip) →
        Q ip (s.setInode ip { s.icache ip with dev := ROOTDEV, inum := i, ref := 1, valid := false })) :
      (iget ROOTDEV i).wp Q (fun _ => False) s :=
    Fs.wp_iget hrefs (fun ip hip => absurd hip (Nat.lt_irrefl 0)) (fun hmiss ip hip => hQ ip (hrefs.taken hip hmiss))
      (.inr ⟨⟨0, by decide⟩, rfl⟩)
  -- the slot taken is read from the disk
  have hread (i : Nat) (ip : Fin NINODE) {Q : Unit → Fs.State → Prop} {E : Halt → Prop}
      (hQ : ∀ d, Idle d [] → d.disk = D → (dinodeOf (superblock total) D i).type ≠ 0 →
        Q () (State.setInode { s with dev := d } ip { s.icache ip with dev := ROOTDEV, inum := i, ref := 1, valid := true, din := dinodeOf (superblock total) D i }))
      (hE : (dinodeOf (superblock total) D i).type = 0 → E (.panic "ilock: no type")) :
      (ilock ip).wp Q E (s.setInode ip { s.icache ip with dev := ROOTDEV, inum := i, ref := 1, valid := false }) := by
    refine wp_ilock_read (s := s.setInode ip _) hidle ?_ ?_ ?_ (fun d hd hdisk' htype => ?_) fun h0 => ?_
    · rw [State.setInode_self]
    · rw [State.setInode_self]
      exact Int.one_pos
    · rw [State.setInode_self]
    · rw [State.setInode_dev, hdisk] at hdisk'
      simp only [State.setInode_self, State.setInode_dev, State.setInode_sb, hsb, hdisk] at htype ⊢
      have hq := hQ d hd hdisk' htype
      simp only [State.setInode, hsb] at hq ⊢
      rw [update_idem]
      exact hq
    · simp only [State.setInode_self, State.setInode_dev, State.setInode_sb, hsb, hdisk] at h0
      exact hE h0
  refine ⟨higet ROOTINO fun ip ht => ?_, fun i hi hne => ⟨?_, higet i fun ip ht => ?_⟩, ?_⟩
  · refine hread ROOTINO ip (fun d hd hdisk' _ => ?_) fun h0 => ?_
    · rw [h.root, State.setInode_self]
      refine ⟨rfl, rfl, ?_⟩
      have hvalid := ht.validated (Nat.ne_of_gt (hold_pos (fun _ => 0) ip))
      refine findsRoot h hlt hd hdisk' ?_ ?_ (hvalid.same fun jp => ?_) ?_
      · rw [State.setInode_self]
      · rw [State.setInode_self]
      · by_cases hjp : jp = ip
        · rw [hjp]
          simp only [State.setInode_self, and_self]
        · rw [State.setInode_of_ne hjp, State.setInode_of_ne hjp, State.setInode_of_ne hjp]
          exact ⟨rfl, rfl, rfl, rfl⟩
      · refine FsInv.spare_hold ⟨⟨0, by decide⟩, ⟨1, by decide⟩, by decide, rfl, rfl⟩ ip
    · rw [h.root] at h0
      exact absurd h0 (by decide : T_DIR ≠ 0)
  · rw [hsb, hdisk, h.others i hi hne]
    exact Eq.refl _
  · refine hread i ip (fun d hd hdisk' htype => ?_) fun _ => Eq.refl _
    rw [h.others i hi hne] at htype
    exact htype rfl
  · unfold namei namex
    simp only [wp_bind, wp_pure]
    refine higet ROOTINO fun ip ht => ?_
    have hskip : skipelem [slash] (fun _ => 0) = none := by decide
    unfold namexFrom
    split
    · rename_i hsome
      rw [hskip] at hsome
      exact absurd hsome (by simp)
    · refine ⟨ip, rfl, ?_⟩
      rw [State.setInode_self]

end Found

theorem mkfs_establishes (total : Nat) (hlt : total < 2 ^ 30) (hroom : nmeta total < total) :
    Areas (superblock total) total ∧
    ∃ img, Makes total img ∧
      (∀ b < total, marked (superblock total) img.blocks b = true ↔
        b < nmeta total ∨ ∃ j < SLOTS, slotVal img.blocks (dinodeOf (superblock total) img.blocks ROOTINO) j = b) ∧
      ∀ s : Fs.State, s.dev = Dev.boot img.blocks →
        (do lift binit; fsinit ROOTDEV : Prog Fs.State Unit).wp
          (fun _ t => t.sb = superblock total ∧ t.dev.disk = img.blocks ∧ Mounted t) (fun _ => False) s := by
  have hsize : total < 2 ^ 32 := by omega
  have hlt' : nmeta total < 2 ^ 32 := hroom.trans hsize
  have hno : ¬ NoImage total := by
    rintro (hover | hover)
    · unfold BPB BSIZE at hover
      omega
    · omega
  obtain ⟨img, hmakes, himage⟩ := makes total hno
  refine ⟨areas hroom, img, hmakes, fun b hb => ?_, fun s hs => ?_⟩
  · have hbit := himage.bits b (div_lt_nbitmap hb)
    rw [hbit, decide_eq_true_eq, himage.root]
    simp only [Image.slotVal_root hlt']
    constructor
    · intro hlt
      by_cases hmeta : b < nmeta total
      · exact .inl hmeta
      · refine .inr ⟨0, by decide, ?_⟩
        rw [if_pos rfl]
        omega
    · rintro (hmeta | ⟨j, -, rfl⟩)
      · omega
      · split <;> omega
  · refine wp_post (himage.wp_mount hsize hs) fun _ t ht => ?_
    obtain ⟨hidle, hdisk, hsb, hrefs⟩ := ht
    exact ⟨hsb, hdisk, mounted himage hlt' hidle hdisk hsb hrefs⟩

/-- The default image. -/
theorem mkfs_establishes_default : nmeta 1000 = 16 ∧ Areas (superblock 1000) 1000 ∧ ∃ img, Makes 1000 img := by
  obtain ⟨hareas, img, hmakes, -⟩ := mkfs_establishes 1000 (by decide) (by decide)
  exact ⟨by decide, hareas, img, hmakes⟩

end RiscvOsLab.Mkfs
