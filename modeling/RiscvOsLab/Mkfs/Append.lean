import Mathlib.Algebra.BigOperators.Group.Finset.Basic
import Mathlib.Algebra.Order.BigOperators.Group.Finset
import RiscvOsLab.Mkfs.Image

/-!
# Filling an image

`main` lays out the image, then creates one inode and appends to it twice. Here any number of inodes is created, and
appended to in any order.

* `Op`, `fill` : the calls of `ialloc` and `iappend` after the layout; `contentsOf` : the bytes appended to an inode;
* `Filling` : the image in the middle of a call, in terms of `Rep`; `Filling.wp_blockOf` is the mapping of blocks of
  `iappend`, which the kernel has in `bmap`;
* `Built` : the image between two calls. The data blocks are taken in order, as many as the contents need (`need`), so
  every marked block is in an inode: `Built.marked_iff`;
* `fill_read` : what the kernel reads from the image.
-/

namespace RiscvOsLab.Mkfs

open Prog Function Bytes
open RiscvOsLab.Fs

/-! ## The calls -/

/-- A call after the layout of the image. -/
inductive Op where
  | ialloc (type : UInt16)
  | iappend (inum : Nat) (xp : List UInt8)

def Op.run : Op → Prog State Unit
  | .ialloc type => do
      let _ ← Mkfs.ialloc type
      return ()
  | .iappend inum xp => Mkfs.iappend inum (fun i => xp.getD i 0) xp.length

def fill : List Op → Prog State Unit
  | [] => return ()
  | op :: ops => do
      op.run
      fill ops

/-- `main` up to the root directory. -/
def layout (total : Nat) : Prog State Unit := do
  if 2 ^ 31 ≤ total + BPB - 1 then
    .panic "overflow"
  else
    forN (fun i => wsect i fun _ => 0) total
    modify fun s => { s with sb := superblock total }
    wsect SBLOCK (sbBytes (superblock total))
    modify fun s => { s with freeblock := nmeta total }
    forN ballocMark (nmeta total)

/-- The bytes appended to inode `i`, in order. -/
def contentsOf (ops : List Op) (i : Nat) : List UInt8 :=
  ops.flatMap fun op =>
    match op with
    | .ialloc _ => []
    | .iappend inum xp => if inum = i then xp else []

/-- How many inodes are created. -/
def created (ops : List Op) : Nat :=
  ops.countP fun op =>
    match op with
    | .ialloc _ => true
    | .iappend _ _ => false

/-- Inodes are created with a type, in the table there is, and appended to when there are `k - 1` of them or more. -/
def Valid : Nat → List Op → Prop
  | _, [] => True
  | k, .ialloc type :: ops => type ≠ 0 ∧ k < NINODES ∧ Valid (k + 1) ops
  | k, .iappend inum _ :: ops => 1 ≤ inum ∧ inum < k ∧ Valid k ops

/-- The blocks for these contents. -/
def need (txt : Nat → List UInt8) : Nat := ∑ i ∈ Finset.range NINODES, blocksFor 0 (nblk (txt i).length)

/-! ## Blocks -/

theorem blocksFor_mono {m n : Nat} (h : m ≤ n) : blocksFor 0 m ≤ blocksFor 0 n := by
  have htrans := blocksFor_trans (Nat.zero_le m) h
  omega

theorem blocksFor_self (n : Nat) : blocksFor n n = 0 := by
  unfold blocksFor
  rw [if_neg (by omega)]
  omega

theorem need_mono {txt txt' : Nat → List UInt8} (h : ∀ i, (txt i).length ≤ (txt' i).length) : need txt ≤ need txt' :=
  Finset.sum_le_sum fun i _ => blocksFor_mono (nblk_mono (h i))

/-- What an append adds to the need. -/
theorem need_append (txt : Nat → List UInt8) {i : Nat} (hi : i < NINODES) (l : List UInt8) :
    need (update txt i (txt i ++ l)) =
      need txt + blocksFor (nblk (txt i).length) (nblk ((txt i).length + l.length)) := by
  have hmem : i ∈ Finset.range NINODES := Finset.mem_range.2 hi
  have htrans := blocksFor_trans (Nat.zero_le _) (nblk_mono (Nat.le_add_right (txt i).length l.length))
  have hrest : ∑ j ∈ (Finset.range NINODES).erase i, blocksFor 0 (nblk (update txt i (txt i ++ l) j).length) =
      ∑ j ∈ (Finset.range NINODES).erase i, blocksFor 0 (nblk (txt j).length) := by
    apply Finset.sum_congr rfl
    intro j hj
    rw [update_of_ne (Finset.ne_of_mem_erase hj)]
  have hsplit := Finset.add_sum_erase (Finset.range NINODES) (fun j => blocksFor 0 (nblk (txt j).length)) hmem
  unfold need
  rw [← Finset.add_sum_erase _ _ hmem, hrest, ← hsplit, update_self, List.length_append]
  omega

/-- The slots of a file are the first ones, whatever its size. -/
theorem shape_iff {sb : Superblock} {T : Nat → Dinode} {cnt : Nat → Nat} {i j : Nat}
    (hcnt : cnt i ≤ NDIRECT + NINDIRECT) : Shape sb T cnt (i, j) ↔ Used sb T i ∧ j < blocksFor 0 (cnt i) := by
  unfold Shape SLOTS blocksFor
  simp only [Nat.zero_le, true_and, Nat.sub_zero]
  refine and_congr_right fun _ => ?_
  by_cases hd : j ≤ NDIRECT
  · rw [if_pos hd]
    split <;> omega
  · rw [if_neg hd]
    split <;> omega

/-! ## A block for a file -/

/-- The image in the middle of a call. On the disk the inode table is `T₀`, and in `T` one of its inodes is edited: with
`T`, the slots of `W` hold the data blocks. Blocks are taken in order, and the rest is zero. -/
structure Filling (total : Nat) (T₀ T : Nat → Dinode) (W : Nat × Nat → Prop) (blk : Nat → Nat → Block) (s : State) :
    Prop where
  len : s.len = max total 2
  sb : s.sb = superblock total
  area : nmeta total ≤ s.freeblock
  room : s.freeblock ≤ total
  rep : Rep (superblock total) s.blocks T W blk
  table : ∀ k < NINODES, dinodeOf (superblock total) s.blocks k = T₀ k
  bits : ∀ b, b / BPB < nbitmap total → marked (superblock total) s.blocks b = decide (b < s.freeblock)
  zero : ∀ b, s.freeblock ≤ b → ∀ o < BSIZE, s.blocks b o = 0

/-- The image during `iappend` to inode `i`: the dinode `din` is in memory and has `n` blocks. -/
structure Appending (total : Nat) (T₀ : Nat → Dinode) (cnt : Nat → Nat) (i : Nat) (din : Dinode) (n : Nat)
    (blk : Nat → Nat → Block) (s : State) : Prop where
  used : Used (superblock total) T₀ i
  dinode : ∃ addrs, din = { T₀ i with addrs }
  filling : Filling total T₀ (update T₀ i din) (Shape (superblock total) T₀ (update cnt i n)) blk s

section Blocks
variable {total : Nat} {T₀ T : Nat → Dinode} {W : Nat × Nat → Prop} {blk : Nat → Nat → Block} {s : State}
  {E : Halt → Prop}

theorem wp_rsect_lt {sec : Nat} (hin : sec < s.len) {Q : Block → State → Prop} (hQ : Q (s.blocks sec) s) :
    (rsect sec).wp Q E s := by
  unfold rsect
  rw [wp_bind, wp_get, if_pos hin]
  exact hQ

theorem wp_ballocMark_lt (hsb : s.sb = superblock total) {b : Nat} (hin : mapBlock (superblock total) b < s.len)
    {Q : Unit → State → Prop}
    (hQ : Q () { s with
      blocks := update s.blocks (mapBlock (superblock total) b)
        (setBit (s.blocks (mapBlock (superblock total) b)) (b % BPB)) }) : (ballocMark b).wp Q E s := by
  unfold ballocMark
  rw [wp_bind, wp_gets, hsb, wp_bind]
  refine wp_rsect_lt hin ?_
  refine wp_wsect hin ?_
  rw [markBit_eq]
  exact hQ

namespace Filling

theorem of_iff {W' : Nat × Nat → Prop} (h : Filling total T₀ T W blk s) (hW : ∀ x, W' x ↔ W x) :
    Filling total T₀ T W' blk s :=
  ⟨h.len, h.sb, h.area, h.room, h.rep.of_iff hW, h.table, h.bits, h.zero⟩

/-- A block in use is in the image. -/
theorem lt_len (h : Filling total T₀ T W blk s) {x : Nat × Nat} (hx : W x) :
    slotVal s.blocks (T x.1) x.2 < s.len := by
  obtain ⟨-, hlt, hmarked⟩ := h.rep.placed.good x hx
  rw [h.bits _ (div_lt_of_mapSize hlt), decide_eq_true_eq] at hmarked
  have hlen := h.len
  have hroom := h.room
  omega

/-- A data block in use is written. -/
theorem put (h : Filling total T₀ T W blk s) {c : Nat} (hc : nmeta total ≤ c) (hlt : c < s.freeblock) {d : Block}
    {W' : Nat × Nat → Prop} {blk' : Nat → Nat → Block} (hrep : Rep (superblock total) (update s.blocks c d) T W' blk') :
    Filling total T₀ T W' blk' { s with blocks := update s.blocks c d } where
  len := h.len
  sb := h.sb
  area := h.area
  room := h.room
  rep := hrep
  table k hk := by
    have hblk := inodeBlock_lt hk total
    have hge := nmeta_ge total
    have htable := h.table k hk
    unfold dinodeOf at htable ⊢
    simp only
    rw [update_of_ne (by omega)]
    exact htable
  bits b hb := by
    have hmap := mapBlock_lt_nmeta hb
    have hbit := h.bits b hb
    unfold marked at hbit ⊢
    simp only
    rw [update_of_ne (by omega)]
    exact hbit
  zero b hb o ho := by
    simp only at hb ⊢
    rw [update_of_ne (by omega)]
    exact h.zero b hb o ho

/-- `next_block` takes the first block that is not in use. -/
theorem wp_nextBlock (h : Filling total T₀ T W blk s) (hroom : s.freeblock < total) {Q : Nat → State → Prop}
    (hQ : ∀ t, Filling total T₀ T W blk t → Fresh (superblock total) t.blocks T W s.freeblock →
      (∀ c, nmeta total ≤ c → t.blocks c = s.blocks c) → t.freeblock = s.freeblock + 1 →
      t.freeinode = s.freeinode → Q s.freeblock t) : nextBlock.wp Q E s := by
  have hsize : s.freeblock < mapSize (superblock total).size := hroom.trans_le (le_mapSize total)
  have hclear : marked (superblock total) s.blocks s.freeblock = false := by
    rw [h.bits _ (div_lt_nbitmap hroom)]
    exact decide_eq_false (Nat.lt_irrefl _)
  obtain ⟨hrep, hfresh⟩ := h.rep.alloc hsize hclear
  have hmeta := h.area
  have hmap := mapBlock_lt_nmeta (div_lt_nbitmap hroom)
  have hlen := h.len
  -- the block is zero already, so only the map changes
  have hD : update s.blocks (mapBlock (superblock total) s.freeblock)
      (setBit (s.blocks (mapBlock (superblock total) s.freeblock)) (s.freeblock % BPB)) =
      allocated (superblock total) s.blocks s.freeblock := by
    unfold allocated
    simp only
    symm
    rw [update_eq_self_iff]
    funext o
    rw [update_of_ne (by omega)]
    by_cases ho : o < BSIZE
    · rw [blit_in (Nat.zero_le _) (by omega), h.zero _ (Nat.le_refl _) o ho]
    · rw [blit_out (.inr (by omega))]
  have hother (c : Nat) (hc : nmeta total ≤ c) : allocated (superblock total) s.blocks s.freeblock c = s.blocks c := by
    rw [← hD, update_of_ne (by omega)]
  have hnext : Filling total T₀ T W blk { s with
      blocks := allocated (superblock total) s.blocks s.freeblock, freeblock := s.freeblock + 1 } := by
    refine ⟨h.len, h.sb, Nat.le_succ_of_le hmeta, hroom, hrep, fun k hk => ?_, fun b hb => ?_, fun b hb o ho => ?_⟩
    · rw [h.rep.dinodeOf_allocated hsize hclear hk, h.table k hk]
    · have hlt := mapBlock_lt_nmeta hb
      rw [marked_allocated_of_ne (by omega), h.bits b hb, ← Bool.decide_or, decide_eq_decide]
      simp only
      omega
    · have hle : s.freeblock + 1 ≤ b := hb
      exact (congrFun (hother b (by omega)) o).trans (h.zero b (by omega) o ho)
  unfold nextBlock
  simp only [wp_bind, wp_gets, wp_modify, wp_pure]
  have hin : mapBlock (superblock total) s.freeblock < s.len := by omega
  refine wp_ballocMark_lt (s := { s with freeblock := s.freeblock + 1 }) h.sb hin ?_
  simp only [hD]
  exact hQ _ hnext hfresh hother (Eq.refl _) (Eq.refl _)

end Filling

/-! ## The mapping of blocks -/

namespace Filling

variable {i : Nat} {din : Dinode}

theorem used (hdin : din.type = (T₀ i).type) (k : Nat) :
    Used (superblock total) (update T₀ i din) k ↔ Used (superblock total) T₀ k := by
  unfold Used
  by_cases hk : k = i
  · rw [hk, update_self, hdin]
  · rw [update_of_ne hk]

/-- A new block for an address of the dinode. -/
theorem wp_addr (h : Filling total T₀ (update T₀ i din) W blk s) (hi : Used (superblock total) (update T₀ i din) i)
    {j : Nat} (hj : j ≤ NDIRECT) (hoff : ¬ W (i, j)) (hroom : s.freeblock < total) {Q : Nat → State → Prop}
    (hQ : ∀ b t, Filling total T₀ (update T₀ i (din.setAddr j b)) (fun x => W x ∨ x = (i, j))
        (withBlock blk (i, j) fun _ => 0) t → (din.setAddr j b).addr j = b → t.freeblock = s.freeblock + 1 →
      t.freeinode = s.freeinode → Q b t) : nextBlock.wp Q E s := by
  refine h.wp_nextBlock hroom fun t ht hfresh _ hfree hino => ?_
  have hlt : s.freeblock < 2 ^ 32 := lt_of_mapSize hfresh.lt h.rep.geo.size
  have hrep := ht.rep.linkAddr hfresh hi hj hoff
  rw [update_self, update_idem] at hrep
  refine hQ _ t ⟨ht.len, ht.sb, ht.area, ht.room, hrep, ht.table, ht.bits, ht.zero⟩ ?_ hfree hino
  rw [Dinode.addr_setAddr (Nat.lt_succ_of_le hj) _ hlt, if_pos (Eq.refl _)]

/-- The part of `blockOf` after the indirect block, where there is no block yet. -/
theorem wp_word (h : Filling total T₀ (update T₀ i din) W blk s) {e : Nat} (hw : W (i, NDIRECT)) (he : e < NINDIRECT)
    (hoff : ¬ W (i, NDIRECT + 1 + e)) (hroom : s.freeblock < total) {Q : Dinode × Nat → State → Prop}
    (hQ : ∀ b t, Filling total T₀ (update T₀ i din) (fun x => W x ∨ x = (i, NDIRECT + 1 + e))
        (withBlock blk (i, NDIRECT + 1 + e) fun _ => 0) t → slotVal t.blocks din (NDIRECT + 1 + e) = b →
      t.freeblock = s.freeblock + 1 → t.freeinode = s.freeinode → Q (din, b) t) :
    (do
      let ibuf ← rsect (din.addr NDIRECT)
      if (u32At ibuf (4 * e)).toNat = 0 then
        let b ← nextBlock
        wsect (din.addr NDIRECT) (put32 ibuf (4 * e) (UInt32.ofNat b))
        return (din, b)
      else
        return (din, (u32At ibuf (4 * e)).toNat) : Prog State (Dinode × Nat)).wp Q E s := by
  have hgood := (h.rep.placed.good _ hw).1
  have hind0 := h.rep.pos hw
  have hin := h.lt_len hw
  simp only [update_self, slotVal_direct _ _ (Nat.le_refl NDIRECT)] at hgood hind0 hin
  rw [nmeta_eq] at hgood
  have hslot : NDIRECT + 1 + e < SLOTS := by
    unfold SLOTS
    omega
  have hzero := h.rep.placed.off (_, NDIRECT + 1 + e) ⟨(h.rep.placed.sub _ hw).1, hslot⟩ hoff
  simp only [update_self] at hzero
  unfold slotVal at hzero
  rw [if_neg (by omega), if_neg hind0, Nat.add_sub_cancel_left] at hzero
  rw [wp_bind]
  refine wp_rsect_lt hin ?_
  rw [if_pos hzero, wp_bind]
  refine h.wp_nextBlock hroom fun t ht hfresh hkeep hfree hino => ?_
  have hlt : s.freeblock < 2 ^ 32 := lt_of_mapSize hfresh.lt h.rep.geo.size
  have hlen : s.len = t.len := h.len.trans ht.len.symm
  have hrep := ht.rep.linkWord hfresh hw he hoff
  have hused := (h.rep.placed.good _ hw).2
  simp only [update_self, slotVal_direct _ _ (Nat.le_refl NDIRECT)] at hrep hused
  rw [h.bits _ (div_lt_of_mapSize hused.1), decide_eq_true_eq] at hused
  rw [wp_bind]
  refine wp_wsect (hlen ▸ hin) ?_
  rw [wp_pure, ← hkeep _ hgood]
  refine hQ _ _ (ht.put hgood (by omega) hrep) ?_ hfree hino
  simp only
  unfold slotVal
  rw [if_neg (by omega), if_neg hind0, update_self, Nat.add_sub_cancel_left, u32At_put32, UInt32.toNat_ofNat',
    Nat.mod_eq_of_lt hlt]

end Filling

namespace Appending

variable {cnt : Nat → Nat} {i n : Nat} {din : Dinode}

theorem type (h : Appending total T₀ cnt i din n blk s) : din.type = (T₀ i).type := by
  obtain ⟨addrs, he⟩ := h.dinode
  rw [he]

theorem size (h : Appending total T₀ cnt i din n blk s) : din.size = (T₀ i).size := by
  obtain ⟨addrs, he⟩ := h.dinode
  rw [he]

theorem setAddr (h : Appending total T₀ cnt i din n blk s) (j b : Nat) :
    ∃ addrs, din.setAddr j b = { T₀ i with addrs } := by
  obtain ⟨addrs, he⟩ := h.dinode
  exact ⟨(din.setAddr j b).addrs, by rw [he]; exact Eq.refl _⟩

theorem used' (h : Appending total T₀ cnt i din n blk s) : Used (superblock total) (update T₀ i din) i :=
  (Filling.used h.type i).2 h.used

theorem mapped (h : Appending total T₀ cnt i din n blk s) (j : Nat) :
    Shape (superblock total) T₀ (update cnt i n) (i, slotOf j) ↔ j < NDIRECT + NINDIRECT ∧ j < n := by
  rw [shape_slotOf, update_self, and_iff_right h.used]

/-- `blockOf` where the file ends. -/
theorem wp_blockOf_next (h : Appending total T₀ cnt i din n blk s) (hn : n < NDIRECT + NINDIRECT)
    (hroom : s.freeblock + blocksFor n (n + 1) ≤ total) {Q : Dinode × Nat → State → Prop}
    (hQ : ∀ din' t, Appending total T₀ cnt i din' (n + 1) (withBlock blk (i, slotOf n) fun _ => 0) t →
      t.freeblock = s.freeblock + blocksFor n (n + 1) → t.freeinode = s.freeinode →
      Q (din', slotVal t.blocks din' (slotOf n)) t) : (blockOf din n).wp Q E s := by
  have hfill (x : Nat × Nat) : Shape (superblock total) T₀ (update cnt i (n + 1)) x ↔
      (Shape (superblock total) T₀ (update cnt i n) x ∨ n = NDIRECT ∧ x = (i, NDIRECT)) ∨ x = (i, slotOf n) :=
    shape_succ h.used hn x
  have hoff : ¬ Shape (superblock total) T₀ (update cnt i n) (i, slotOf n) := fun hx =>
    Nat.lt_irrefl n ((h.mapped n).1 hx).2
  have hindirect : Shape (superblock total) T₀ (update cnt i n) (i, NDIRECT) ↔ NDIRECT < n := by
    rw [shape_indirect, update_self, and_iff_right h.used]
  -- an address that is not mapped is 0
  have hunset {j : Nat} (hj : j ≤ NDIRECT) (hw : ¬ Shape (superblock total) T₀ (update cnt i n) (i, j)) :
      din.addr j = 0 := by
    have hslot : j < SLOTS := by
      unfold SLOTS
      omega
    have hoff := h.filling.rep.placed.off (i, j) ⟨h.used', hslot⟩ hw
    rwa [update_self, slotVal_direct _ _ hj] at hoff
  unfold blockOf
  by_cases hd : n < NDIRECT
  · have hslotOf : slotOf n = n := if_pos hd
    have hone : blocksFor n (n + 1) = 1 := by
      unfold blocksFor
      split <;> omega
    rw [hone] at hroom hQ
    rw [hslotOf] at hoff hQ
    rw [if_pos hd, if_pos (hunset (Nat.le_of_lt hd) hoff), wp_bind]
    refine h.filling.wp_addr h.used' (Nat.le_of_lt hd) hoff (by omega) fun b t ht hb hfree hino => ?_
    have hq := hQ (din.setAddr n b) t ⟨h.used, h.setAddr n b, ht.of_iff fun x => ?_⟩ hfree hino
    · rw [slotVal_direct _ _ (Nat.le_of_lt hd), hb] at hq
      exact hq
    · rw [hfill, hslotOf]
      simp only [Nat.ne_of_lt hd, false_and, or_false]
  · have hslotOf : slotOf n = NDIRECT + 1 + (n - NDIRECT) := by
      unfold slotOf
      rw [if_neg hd]
      omega
    rw [hslotOf] at hoff hQ
    rw [if_neg hd]
    by_cases he : n = NDIRECT
    · -- the indirect block first, then its first word
      have htwo : blocksFor n (n + 1) = 2 := by
        unfold blocksFor
        rw [if_pos (by omega)]
        omega
      rw [htwo] at hroom hQ
      have hind : ¬ Shape (superblock total) T₀ (update cnt i n) (i, NDIRECT) := fun hx => by
        have := hindirect.1 hx
        omega
      rw [if_pos (hunset (Nat.le_refl _) hind), wp_bind]
      refine h.filling.wp_addr h.used' (Nat.le_refl _) hind (by omega) fun b t ht _ hfree hino => ?_
      rw [withBlock_indirect] at ht
      rw [wp_bind, wp_pure]
      refine ht.wp_word (.inr (Eq.refl _)) (by omega) ?_ (by omega) fun c u hu hc hfree' hino' => ?_
      · rintro (hx | hx)
        · exact hoff hx
        · have := (Prod.mk.inj hx).2
          omega
      · rw [← hc]
        refine hQ _ u ⟨h.used, h.setAddr NDIRECT b, hu.of_iff fun x => ?_⟩ (by omega) (hino'.trans hino)
        rw [hfill, hslotOf]
        simp only [he, true_and]
    · have hone : blocksFor n (n + 1) = 1 := by
        unfold blocksFor
        rw [if_neg (by omega)]
        omega
      rw [hone] at hroom hQ
      have hind := hindirect.2 (by omega)
      have hpos := h.filling.rep.pos hind
      simp only [update_self, slotVal_direct _ _ (Nat.le_refl NDIRECT)] at hpos
      rw [if_neg hpos, wp_bind, wp_pure]
      refine h.filling.wp_word hind (by omega) hoff (by omega) fun c u hu hc hfree hino => ?_
      rw [← hc]
      refine hQ _ u ⟨h.used, h.dinode, hu.of_iff fun x => ?_⟩ hfree hino
      rw [hfill, hslotOf]
      simp only [he, false_and, or_false]

/-- A mapped block is looked up. -/
theorem wp_blockOf_mapped (h : Appending total T₀ cnt i din n blk s) {fbn : Nat}
    (hlt : fbn < n) (hmax : fbn < NDIRECT + NINDIRECT) {Q : Dinode × Nat → State → Prop}
    (hQ : Q (din, slotVal s.blocks din (slotOf fbn)) s) : (blockOf din fbn).wp Q E s := by
  have hpos := h.filling.rep.pos ((h.mapped fbn).2 ⟨hmax, hlt⟩)
  simp only [update_self] at hpos
  unfold blockOf
  unfold slotVal slotOf at hpos hQ
  by_cases hd : fbn < NDIRECT
  · rw [if_pos hd, if_pos (Nat.le_of_lt hd)] at hpos hQ
    rw [if_pos hd, if_neg hpos]
    exact hQ
  · rw [if_neg hd, if_neg (by omega), show fbn + 1 - (NDIRECT + 1) = fbn - NDIRECT by omega] at hpos hQ
    have hind : din.addr NDIRECT ≠ 0 := fun h0 => hpos (if_pos h0)
    have hin := h.filling.lt_len (x := (i, NDIRECT)) (by
      rw [shape_indirect, update_self]
      exact ⟨h.used, by omega⟩)
    simp only [update_self, slotVal_direct _ _ (Nat.le_refl NDIRECT)] at hin
    rw [if_neg hind] at hpos hQ
    rw [if_neg hd, if_neg hind, wp_bind, wp_pure, wp_bind]
    refine wp_rsect_lt hin ?_
    rw [if_neg hpos]
    exact hQ

/-- `blockOf` for an append, which may take the next block. -/
theorem wp_blockOf (h : Appending total T₀ cnt i din n blk s) {fbn : Nat} (hle : fbn ≤ n)
    (hmax : fbn < NDIRECT + NINDIRECT) (hroom : s.freeblock + blocksFor n (max n (fbn + 1)) ≤ total)
    {Q : Dinode × Nat → State → Prop}
    (hQ : ∀ din' blk' t, Appending total T₀ cnt i din' (max n (fbn + 1)) blk' t →
      (∀ k m, k ≠ i ∨ m < n → blk' k m = blk k m) → t.freeblock = s.freeblock + blocksFor n (max n (fbn + 1)) →
      t.freeinode = s.freeinode → Q (din', slotVal t.blocks din' (slotOf fbn)) t) : (blockOf din fbn).wp Q E s := by
  rcases Nat.lt_or_eq_of_le hle with hlt | rfl
  · have hsame : max n (fbn + 1) = n := by omega
    rw [hsame, blocksFor_self] at hroom hQ
    exact h.wp_blockOf_mapped hlt hmax (hQ din blk s h (fun _ _ _ => Eq.refl _) (Eq.refl _) (Eq.refl _))
  · have hsame : max fbn (fbn + 1) = fbn + 1 := by omega
    rw [hsame] at hroom hQ
    refine h.wp_blockOf_next hmax hroom fun din' t ht hfree hino => ?_
    refine hQ din' _ t ht (fun k m hkm => withBlock_of_ne blk ?_ _) hfree hino
    rintro ⟨rfl, rfl⟩
    rcases hkm with hk | hm
    · exact hk (Eq.refl _)
    · exact Nat.lt_irrefl _ hm

/-- A mapped block is written. -/
theorem putData (h : Appending total T₀ cnt i din n blk s) {bn : Nat} (hn : bn < n) (hmax : bn < NDIRECT + NINDIRECT)
    (d : Block) : Appending total T₀ cnt i din n (withBlock blk (i, slotOf bn) d)
      { s with blocks := update s.blocks (slotVal s.blocks din (slotOf bn)) d } := by
  have hin := (h.mapped bn).2 ⟨hmax, hn⟩
  obtain ⟨hlo, hlt, hmarked⟩ := h.filling.rep.placed.good _ hin
  have hrep := h.filling.rep.putData hin d
  simp only [update_self] at hlo hlt hmarked hrep
  rw [nmeta_eq] at hlo
  rw [h.filling.bits _ (div_lt_of_mapSize hlt), decide_eq_true_eq] at hmarked
  exact ⟨h.used, h.dinode, h.filling.put hlo hmarked hrep⟩

/-- The loop of `iappend` goes from block to block. -/
theorem wp_iappendLoop (xp : Bytes) (pos off left : Nat) (din : Dinode) (blk : Nat → Nat → Block) (s : State)
    (h : Appending total T₀ cnt i din (nblk off) blk s) (hmax : off + left ≤ MAXBYTES)
    (hroom : s.freeblock + blocksFor (nblk off) (nblk (off + left)) ≤ total) {Q : Dinode × Nat → State → Prop}
    (hQ : ∀ din' blk' t, Appending total T₀ cnt i din' (nblk (off + left)) blk' t →
      (∀ k bn, k ≠ i → blk' k bn = blk k bn) → (∀ o < off, fileByte blk' i o = fileByte blk i o) →
      (∀ o, off ≤ o → o < off + left → fileByte blk' i o = xp (pos + (o - off))) →
      t.freeblock = s.freeblock + blocksFor (nblk off) (nblk (off + left)) → t.freeinode = s.freeinode →
      Q (din', off + left) t) : (iappendLoop din xp pos off left).wp Q E s := by
  induction hk : left using Nat.strong_induction_on generalizing pos off left din blk s Q with
  | _ k ih =>
    subst hk
    unfold iappendLoop
    by_cases hpos : 0 < left
    · rw [if_pos hpos]
      generalize hm : min (BSIZE - off % BSIZE) left = m
      have hmod : off % BSIZE < BSIZE := Nat.mod_lt _ (by decide)
      have hsum : off + m + (left - m) = off + left := by omega
      have hblk : off / BSIZE < NDIRECT + NINDIRECT := by
        have hlt : off / BSIZE < nblk (off + left) := div_lt_nblk (by omega)
        have hle := nblk_le_max hmax
        omega
      have hle : off / BSIZE ≤ nblk off := by
        unfold nblk BSIZE
        omega
      -- after this round the file ends in this block
      have hnext : max (nblk off) (off / BSIZE + 1) = nblk (off + m) := by
        unfold nblk BSIZE at *
        omega
      have hmono : nblk (off + m) ≤ nblk (off + left) := nblk_mono (by omega)
      have htrans := blocksFor_trans (nblk_mono (Nat.le_add_right off m)) hmono
      rw [if_pos hblk]
      simp only [wp_bind]
      refine h.wp_blockOf hle hblk (by rw [hnext]; omega) fun din' blk' t ht hkeep hfree hino => ?_
      rw [hnext] at ht hfree
      have hn : off / BSIZE < nblk (off + m) := by omega
      have hin := (ht.mapped (off / BSIZE)).2 ⟨hblk, hn⟩
      have hlen := ht.filling.lt_len hin
      have hold (o : Nat) (ho : o < BSIZE) :
          t.blocks (slotVal t.blocks din' (slotOf (off / BSIZE))) o = blk' i (off / BSIZE) o := by
        have hdata := ht.filling.rep.data _ _ hin o ho
        simpa only [update_self] using hdata
      simp only [update_self] at hlen
      refine wp_rsect_lt hlen ?_
      refine wp_wsect hlen ?_
      have hput := ht.putData hn hblk (blit (t.blocks (slotVal t.blocks din' (slotOf (off / BSIZE)))) (off % BSIZE)
        (fun j => xp (pos + j)) m)
      -- the bytes of this block
      have hfirst := fileByte_blit blk' i (fun j => xp (pos + j)) (m := m) (by omega) hold
      refine ih (left - m) (by omega) (pos + m) (off + m) (left - m) din' _ _ hput (by omega) ?_
        (fun din'' blk'' u hu hothers hframe hbytes hfree' hino' => ?_) (Eq.refl _)
      · rw [hsum]
        show t.freeblock + _ ≤ total
        omega
      · rw [hsum] at hu hbytes hfree' ⊢
        refine hQ din'' blk'' u hu (fun k bn hk => ?_) (fun o ho => ?_) (fun o ho ho' => ?_) ?_ (hino'.trans hino)
        · rw [hothers k bn hk, withBlock_of_ne _ (fun he => hk he.1), hkeep k bn (.inl hk)]
        · rw [hframe o (by omega), hfirst, if_neg (by omega)]
          unfold fileByte
          rw [hkeep _ _ (.inr (div_lt_nblk ho))]
        · by_cases hom : off + m ≤ o
          · rw [hbytes o hom ho']
            congr 1
            omega
          · rw [hframe o (by omega), hfirst, if_pos ⟨ho, by omega⟩]
        · have hfree'' : u.freeblock = t.freeblock + _ := hfree'
          omega
    · have h0 : left = 0 := by omega
      subst h0
      refine hQ din blk s h (fun _ _ _ => Eq.refl _) (fun _ _ => Eq.refl _) (fun o ho ho' => ?_) ?_ (Eq.refl _)
      · omega
      · rw [Nat.add_zero, blocksFor_self, Nat.add_zero]

end Appending

end Blocks

/-! ## Between two calls -/

theorem shape_congr {sb : Superblock} {T T' : Nat → Dinode} {cnt cnt' : Nat → Nat}
    (hused : ∀ k, Used sb T' k ↔ Used sb T k) (hcnt : ∀ k, cnt' k = cnt k) (x : Nat × Nat) :
    Shape sb T' cnt' x ↔ Shape sb T cnt x := by
  unfold Shape
  rw [hused, hcnt]

/-- The slots in use for these contents. -/
def Taken (total : Nat) (T : Nat → Dinode) (txt : Nat → List UInt8) : Nat × Nat → Prop :=
  Shape (superblock total) T fun i => nblk (txt i).length

/-- The image between two calls: the next inode is `k`, and `txt i` has been appended to inode `i`. -/
structure Built (total k : Nat) (txt : Nat → List UInt8) (blk : Nat → Nat → Block) (s : State) : Prop where
  next : s.freeinode = k
  few : k ≤ NINODES
  used : ∀ i < NINODES, (dinodeOf (superblock total) s.blocks i).type ≠ 0 ↔ 1 ≤ i ∧ i < k
  filling : Filling total (dinodeOf (superblock total) s.blocks) (dinodeOf (superblock total) s.blocks)
    (Taken total (dinodeOf (superblock total) s.blocks) txt) blk s
  size : ∀ i, 1 ≤ i → i < k → (dinodeOf (superblock total) s.blocks i).size.toNat = (txt i).length
  none : ∀ i, ¬ (1 ≤ i ∧ i < k) → txt i = []
  bytes : ∀ i o, o < (txt i).length → fileByte blk i o = (txt i).getD o 0
  count : s.freeblock = nmeta total + need txt
  max : ∀ i, (txt i).length ≤ MAXBYTES

section Calls
variable {total k : Nat} {T₀ T : Nat → Dinode} {W : Nat × Nat → Prop} {txt : Nat → List UInt8}
  {blk : Nat → Nat → Block} {s : State} {E : Halt → Prop}

theorem Filling.inodeBlock_lt_len (h : Filling total T₀ T W blk s) {i : Nat} (hi : i < NINODES) :
    inodeBlock (superblock total) i < s.len := by
  have hblk := inodeBlock_lt hi total
  have hge := nmeta_ge total
  have hlen := h.len
  have harea := h.area
  have hroom := h.room
  omega

theorem Filling.wp_winode (h : Filling total T₀ T W blk s) {i : Nat} (hi : i < NINODES) (din : Dinode)
    {Q : Unit → State → Prop}
    (hQ : ∀ u, Filling total (update T₀ i din) T W blk u →
      (∀ k, dinodeOf (superblock total) u.blocks k = if k = i then din else dinodeOf (superblock total) s.blocks k) →
      u.freeblock = s.freeblock → u.freeinode = s.freeinode → Q () u) : (winode i din).wp Q E s := by
  have hblk := inodeBlock_lt hi total
  have hge := nmeta_ge total
  have harea := h.area
  have hin := h.inodeBlock_lt_len hi
  have hput (k : Nat) : dinodeOf (superblock total) (update s.blocks (inodeBlock (superblock total) i)
      (putDinode (s.blocks (inodeBlock (superblock total) i)) (i % IPB) din)) k =
      if k = i then din else dinodeOf (superblock total) s.blocks k := dinodeOf_put i k din
  unfold winode
  rw [wp_bind, wp_gets, h.sb, wp_bind]
  refine wp_rsect_lt hin ?_
  refine wp_wsect hin ?_
  refine hQ _ ⟨h.len, h.sb, h.area, h.room, h.rep.putInode hi din, fun j hj => ?_, fun b hb => ?_,
    fun b hb o ho => ?_⟩ hput (Eq.refl _) (Eq.refl _)
  · refine (hput j).trans ?_
    by_cases hji : j = i
    · rw [if_pos hji, hji, update_self]
    · rw [if_neg hji, update_of_ne hji, h.table j hj]
  · have hmap := le_mapBlock total b
    have hbit := h.bits b hb
    unfold marked at hbit ⊢
    have hne : mapBlock (superblock total) b ≠ inodeBlock (superblock total) i := by omega
    exact (congrArg (bitAt · _) (update_of_ne hne _ _)).trans hbit
  · have hle : s.freeblock ≤ b := hb
    have hne : b ≠ inodeBlock (superblock total) i := by omega
    exact (congrFun (update_of_ne hne _ _) o).trans (h.zero b hb o ho)

namespace Built

theorem usedIff (h : Built total k txt blk s) (i : Nat) :
    Used (superblock total) (dinodeOf (superblock total) s.blocks) i ↔ 1 ≤ i ∧ i < k := by
  have hfew := h.few
  constructor
  · rintro ⟨hi, htype⟩
    exact (h.used i hi).1 htype
  · intro hi
    have hlt : i < NINODES := by omega
    exact ⟨hlt, (h.used i hlt).2 hi⟩

/-- `ialloc` adds an empty inode. -/
theorem wp_ialloc (h : Built total k txt blk s) {type : UInt16} (htype : type ≠ 0) (hk : k < NINODES) (hpos : 1 ≤ k)
    {Q : Nat → State → Prop} (hQ : ∀ t, Built total (k + 1) txt blk t → Q k t) : (Mkfs.ialloc type).wp Q E s := by
  have hempty : txt k = [] := h.none k fun hi => Nat.lt_irrefl k hi.2
  have hunused : ¬ Used (superblock total) (dinodeOf (superblock total) s.blocks) k := by
    rw [h.usedIff]
    exact fun hi => Nat.lt_irrefl k hi.2
  have hstart : Filling total (dinodeOf (superblock total) s.blocks) (dinodeOf (superblock total) s.blocks) _ blk
      { s with freeinode := k + 1 } := ⟨h.filling.len, h.filling.sb, h.filling.area, h.filling.room, h.filling.rep,
    h.filling.table, h.filling.bits, h.filling.zero⟩
  unfold Mkfs.ialloc
  rw [wp_bind, wp_gets, h.next, wp_bind, wp_modify, wp_bind]
  refine hstart.wp_winode hk _ fun u hu hput hfree hino => ?_
  rw [wp_pure]
  have hzero (j : Nat) : Dinode.addr { Dinode.zero with type, nlink := 1 } j = 0 := by
    unfold Dinode.addr
    split
    · exact Eq.refl _
    · exact Eq.refl _
  have hused (i : Nat) (hi : i < NINODES) : (dinodeOf (superblock total) u.blocks i).type ≠ 0 ↔ 1 ≤ i ∧ i < k + 1 := by
    rw [hput]
    by_cases hik : i = k
    · rw [if_pos hik]
      have hin : 1 ≤ i ∧ i < k + 1 := by omega
      exact ⟨fun _ => hin, fun _ => htype⟩
    · rw [if_neg hik, h.used i hi]
      omega
  have hrep : Rep (superblock total) u.blocks (dinodeOf (superblock total) u.blocks)
      (Taken total (dinodeOf (superblock total) s.blocks) txt) blk := by
    refine (hu.rep.addInode hunused hzero).table_congr fun j _ => ?_
    rw [hput]
    by_cases hjk : j = k
    · rw [if_pos hjk, hjk, update_self]
    · rw [if_neg hjk, update_of_ne hjk]
  refine hQ u ⟨hino, hk, hused, ?_, fun i hi hik => ?_, fun i hi => h.none i (by omega), h.bytes,
    hfree.trans h.count, h.max⟩
  · refine Filling.of_iff ⟨hu.len, hu.sb, hu.area, hu.room, hrep, fun _ _ => Eq.refl _, hu.bits, hu.zero⟩ fun x => ?_
    by_cases hx : x.1 = k
    · -- the new inode has no blocks
      unfold Taken Shape
      rw [hx]
      simp only [hempty, hunused, false_and, iff_false]
      rintro ⟨-, -, hlt⟩
      have h0 : nblk ([] : List UInt8).length = 0 := by decide
      rw [h0] at hlt
      split at hlt <;> omega
    · unfold Taken Shape Used
      rw [hput, if_neg hx]
  · rw [hput]
    by_cases hik' : i = k
    · rw [if_pos hik', hik', hempty]
      exact Eq.refl _
    · rw [if_neg hik', h.size i hi (by omega)]

/-- `iappend` adds bytes behind those of the inode. -/
theorem wp_iappend (h : Built total k txt blk s) {i : Nat} (hi : 1 ≤ i) (hik : i < k) (l : List UInt8)
    (hmax : (txt i).length + l.length ≤ MAXBYTES) (hroom : nmeta total + need (update txt i (txt i ++ l)) ≤ total)
    {Q : Unit → State → Prop} (hQ : ∀ blk' t, Built total k (update txt i (txt i ++ l)) blk' t → Q () t) :
    (Mkfs.iappend i (fun j => l.getD j 0) l.length).wp Q E s := by
  have hlt : i < NINODES := hik.trans_le h.few
  have hused := (h.usedIff i).2 ⟨hi, hik⟩
  have hsize := h.size i hi hik
  rw [need_append txt hlt] at hroom
  have hcount := h.count
  generalize hT : dinodeOf (superblock total) s.blocks = T at hused hsize
  have hstart : Appending total T (fun j => nblk (txt j).length) i (T i) (nblk (T i).size.toNat) blk s := by
    refine ⟨hused, ⟨(T i).addrs, Eq.refl _⟩, ?_⟩
    rw [update_eq_self, hsize, update_eq_self, ← hT]
    exact h.filling
  unfold Mkfs.iappend rinode
  rw [wp_bind, wp_bind, wp_gets, h.filling.sb, wp_bind]
  refine wp_rsect_lt (h.filling.inodeBlock_lt_len hlt) ?_
  rw [wp_pure, wp_bind]
  have hread : dinodeAt (s.blocks (inodeBlock (superblock total) i)) (i % IPB) = T i := congrFun hT i
  rw [hread]
  refine hstart.wp_iappendLoop _ 0 _ _ _ _ _ (by omega) (by rw [hsize]; omega)
    fun din blk' t ht hothers hkeep hbytes hfree hino => ?_
  rw [hsize] at ht hkeep hbytes hfree
  refine ht.filling.wp_winode hlt _ fun u hu hput hfree' hino' => ?_
  have htype := ht.type
  have htable (j : Nat) (hj : j < NINODES) : dinodeOf (superblock total) u.blocks j =
      update T i { din with size := UInt32.ofNat ((T i).size.toNat + l.length) } j := by
    rw [hput, ht.filling.table j hj]
    by_cases hji : j = i
    · rw [if_pos hji, hji, update_self]
    · rw [if_neg hji, update_of_ne hji]
  have htypes (j : Nat) (hj : j < NINODES) : (dinodeOf (superblock total) u.blocks j).type = (T j).type := by
    rw [htable j hj]
    by_cases hji : j = i
    · rw [hji, update_self]
      exact htype
    · rw [update_of_ne hji]
  have husedIff (j : Nat) :
      Used (superblock total) (dinodeOf (superblock total) u.blocks) j ↔ Used (superblock total) T j :=
    and_congr_right fun hj => by rw [htypes j hj]
  have hrep : Rep (superblock total) u.blocks (dinodeOf (superblock total) u.blocks)
      (Taken total (dinodeOf (superblock total) u.blocks) (update txt i (txt i ++ l))) blk' := by
    have hsame (j : Nat) :
        (update T i { din with size := UInt32.ofNat ((T i).size.toNat + l.length) } j).addrs =
          (update T i din j).addrs ∧
        ((update T i { din with size := UInt32.ofNat ((T i).size.toNat + l.length) } j).type ≠ 0 ↔
          (update T i din j).type ≠ 0) := by
      by_cases hji : j = i
      · rw [hji, update_self, update_self]
        exact ⟨Eq.refl _, Iff.rfl⟩
      · rw [update_of_ne hji, update_of_ne hji]
        exact ⟨Eq.refl _, Iff.rfl⟩
    refine ((hu.rep.retype hsame).table_congr htable).of_iff fun x => shape_congr husedIff (fun j => ?_) x
    by_cases hji : j = i
    · rw [hji, update_self, update_self, List.length_append]
    · rw [update_of_ne hji, update_of_ne hji]
  refine hQ blk' u ⟨(hino'.trans hino).trans h.next, h.few, fun j hj => ?_, ?_, fun j hj hjk => ?_, fun j hj => ?_,
    fun j o ho => ?_, ?_, fun j => ?_⟩
  · rw [htypes j hj, ← hT]
    exact h.used j hj
  · exact ⟨hu.len, hu.sb, hu.area, hu.room, hrep, fun _ _ => Eq.refl _, hu.bits, hu.zero⟩
  · rw [htable j (hjk.trans_le h.few)]
    by_cases hji : j = i
    · rw [hji, update_self, update_self, List.length_append, hsize]
      show (UInt32.ofNat _).toNat = _
      unfold MAXBYTES NDIRECT NINDIRECT BSIZE at hmax
      rw [UInt32.toNat_ofNat', Nat.mod_eq_of_lt (by omega)]
    · rw [update_of_ne hji, update_of_ne hji, ← hT]
      exact h.size j hj hjk
  · rw [update_of_ne]
    · exact h.none j hj
    · rintro rfl
      exact hj ⟨hi, hik⟩
  · by_cases hji : j = i
    · rw [hji, update_self] at ho ⊢
      rw [List.length_append] at ho
      by_cases hold : o < (txt i).length
      · rw [hkeep o hold, h.bytes i o hold, List.getD_append _ _ _ _ hold]
      · rw [hbytes o (by omega) ho, List.getD_append_right _ _ _ _ (by omega), Nat.zero_add]
    · rw [update_of_ne hji] at ho ⊢
      have hbyte := h.bytes j o ho
      unfold fileByte at hbyte ⊢
      rw [hothers j _ hji, hbyte]
  · rw [hfree', hfree, hcount, need_append txt hlt]
    omega
  · by_cases hji : j = i
    · rw [hji, update_self, List.length_append]
      exact hmax
    · rw [update_of_ne hji]
      exact h.max j

end Built

/-! ## The run -/

@[simp] theorem contentsOf_ialloc (type : UInt16) (ops : List Op) :
    contentsOf (.ialloc type :: ops) = contentsOf ops := rfl

theorem contentsOf_iappend (inum : Nat) (xp : List UInt8) (ops : List Op) (i : Nat) :
    contentsOf (.iappend inum xp :: ops) i = (if inum = i then xp else []) ++ contentsOf ops i := rfl

/-- The contents after one more append are those with the rest behind. -/
theorem append_contentsOf (txt : Nat → List UInt8) (inum : Nat) (xp : List UInt8) (ops : List Op) (i : Nat) :
    txt i ++ contentsOf (.iappend inum xp :: ops) i = update txt inum (txt inum ++ xp) i ++ contentsOf ops i := by
  rw [contentsOf_iappend, ← List.append_assoc]
  by_cases hi : inum = i
  · rw [if_pos hi, hi, update_self]
  · rw [if_neg hi, update_of_ne (Ne.symm hi), List.append_nil]

theorem wp_fill (ops : List Op) (h : Built total k txt blk s) (hpos : 1 ≤ k) (hv : Valid k ops)
    (hmax : ∀ i, (txt i ++ contentsOf ops i).length ≤ MAXBYTES)
    (hroom : nmeta total + need (fun i => txt i ++ contentsOf ops i) ≤ total) :
    (fill ops).wp (fun _ t =>
      ∃ blk', Built total (k + created ops) (fun i => txt i ++ contentsOf ops i) blk' t) E s := by
  induction ops generalizing k txt blk s with
  | nil =>
      refine ⟨blk, ?_⟩
      have hsame : (fun i => txt i ++ contentsOf [] i) = txt := by
        funext i
        exact List.append_nil _
      rw [hsame]
      exact h
  | cons op ops ih =>
      unfold fill
      rw [wp_bind]
      cases op with
      | ialloc type =>
          obtain ⟨htype, hlt, hrest⟩ := hv
          have hcreated : k + created (.ialloc type :: ops) = k + 1 + created ops := by
            unfold created
            rw [List.countP_cons_of_pos (Eq.refl _)]
            omega
          rw [hcreated]
          unfold Op.run
          rw [wp_bind]
          refine h.wp_ialloc htype hlt hpos fun t ht => ?_
          exact ih ht (Nat.le_add_left 1 k) hrest hmax hroom
      | iappend inum xp =>
          obtain ⟨hinum, hlt, hrest⟩ := hv
          have hcreated : created (.iappend inum xp :: ops) = created ops :=
            List.countP_cons_of_neg Bool.false_ne_true
          have htxt : (fun i => txt i ++ contentsOf (.iappend inum xp :: ops) i) =
              fun i => update txt inum (txt inum ++ xp) i ++ contentsOf ops i := by
            funext i
            exact append_contentsOf txt inum xp ops i
          have hlen (i : Nat) : (update txt inum (txt inum ++ xp) i ++ contentsOf ops i).length ≤ MAXBYTES := by
            rw [← append_contentsOf]
            exact hmax i
          rw [htxt] at hroom ⊢
          rw [hcreated]
          -- the blocks for the first piece are among those for all
          have hmono : need (update txt inum (txt inum ++ xp)) ≤
              need fun i => update txt inum (txt inum ++ xp) i ++ contentsOf ops i := by
            apply need_mono
            intro i
            rw [List.length_append]
            exact Nat.le_add_right _ _
          have hfit : (txt inum).length + xp.length ≤ MAXBYTES := by
            have hle := hlen inum
            rw [update_self, List.length_append, List.length_append] at hle
            omega
          exact h.wp_iappend hinum hlt xp hfit (by omega) fun blk' t ht => ih ht hpos hrest hlen hroom

/-- The layout is an image in which nothing is created yet. -/
theorem layout_run (hcount : total + BPB - 1 < 2 ^ 31) (hroom : nmeta total ≤ total) :
    ∃ a t, (layout total).run boot = .ok (a, t) ∧ ∃ blk, Built total 1 (fun _ => []) blk t := by
  have hge := nmeta_ge total
  have hsize : total < 2 ^ 32 := by
    unfold BPB BSIZE at hcount
    omega
  have hpos : 0 < nbitmap total := nbitmap_pos (by omega)
  apply wp_total
  unfold layout
  rw [if_neg (by omega), wp_bind]
  refine wp_post (wp_zeros total _) fun _ s hs => ?_
  rw [hs]
  simp only [wp_bind, wp_modify]
  unfold wsect
  rw [wp_modify]
  refine wp_post (wp_forN (fun i t => Stage total i (nmeta total) Dinode.zero (fun _ => 0) t ∧ t.freeinode = 1 ∧
    ∀ b, nmeta total ≤ b → t.blocks b = fun _ => 0) ⟨stage_start total, Eq.refl _, fun b hb => ?_⟩
    fun i t hi ht => ?_) fun _ t ht => ?_
  · refine update_of_ne ?_ _ _
    unfold SBLOCK
    omega
  · obtain ⟨hstage, hfree, hzero⟩ := ht
    have hdiv := div_lt_nbitmap_of_le (Nat.le_of_lt hi) hpos
    have hmap := mapBlock_lt_nmeta hdiv
    have hlen := hstage.len
    refine wp_ballocMark_lt hstage.sb (by omega) ⟨⟨hstage.len, hstage.sb, hstage.freeblock, ?_⟩, hfree, fun b hb => ?_⟩
    · exact hstage.layout.mark hdiv
    · exact (update_of_ne (by omega) _ _).trans (hzero b hb)
  · obtain ⟨hstage, hfree, hzero⟩ := ht
    have hnone (i : Nat) (hi : i < NINODES) : dinodeOf (superblock total) t.blocks i = Dinode.zero := by
      by_cases hroot : i = ROOTINO
      · rw [hroot, hstage.layout.root]
      · exact hstage.layout.others i hi hroot
    have hunused (i : Nat) : ¬ Used (superblock total) (dinodeOf (superblock total) t.blocks) i := by
      rintro ⟨hi, htype⟩
      rw [hnone i hi] at htype
      exact htype (Eq.refl _)
    have hoff {x : Nat × Nat} : ¬ Taken total (dinodeOf (superblock total) t.blocks) (fun _ => []) x := fun hx =>
      hunused x.1 hx.1
    have hbit {b : Nat} (hb : b / BPB < nbitmap total) :
        marked (superblock total) t.blocks b = decide (b < t.freeblock) := by
      rw [hstage.layout.bits b hb, hstage.freeblock]
    refine ⟨fun _ _ _ => 0, hfree, by decide, fun i hi => ?_, ⟨hstage.len, hstage.sb, ?_, ?_, ?_, fun _ _ => Eq.refl _,
      fun b hb => hbit hb, fun b hb o _ => ?_⟩, fun i hi hik => ?_, fun _ _ => Eq.refl _, fun _ o ho => ?_, ?_, ?_⟩
    · rw [hnone i hi]
      simp only [ne_eq, Dinode.zero, not_true_eq_false, false_iff]
      omega
    · exact Nat.le_of_eq hstage.freeblock.symm
    · rw [hstage.freeblock]
      exact hroom
    · refine ⟨geometry hsize, ?_, fun b hb hbs => ?_, ⟨fun x hx => absurd hx hoff, fun x hx => absurd hx hoff,
        fun x _ hx => absurd hx hoff, fun x hx => absurd hx.1 (hunused x.1)⟩, fun _ _ hx => absurd hx hoff,
        fun _ _ hx => absurd hx hoff⟩
      · exact (congrArg sbAt hstage.layout.super).trans (sbAt_superblock hsize)
      · rw [hbit (div_lt_of_mapSize hbs), hstage.freeblock, decide_eq_true_eq]
        rwa [nmeta_eq] at hb
    · rw [hstage.freeblock] at hb
      rw [hzero b hb]
    · omega
    · exact absurd ho (Nat.not_lt_zero o)
    · rw [hstage.freeblock]
      exact (Nat.add_eq_left.2 (Finset.sum_eq_zero fun _ _ => (by decide : blocksFor 0 (nblk 0) = 0))).symm
    · exact fun _ => Nat.zero_le _

end Calls

/-! ## The image filled -/

namespace Built

variable {total k : Nat} {txt : Nat → List UInt8} {blk : Nat → Nat → Block} {img : State}

theorem cnt_le (h : Built total k txt blk img) (i : Nat) : nblk (txt i).length ≤ NDIRECT + NINDIRECT :=
  nblk_le_max (h.max i)

/-- The file system is sound. -/
theorem structural (h : Built total k txt blk img) :
    Structural (superblock total) img.blocks (dinodeOf (superblock total) img.blocks) := by
  have hsize {i : Nat} (hi : Used (superblock total) (dinodeOf (superblock total) img.blocks) i) :
      (dinodeOf (superblock total) img.blocks i).size.toNat = (txt i).length := by
    rw [h.usedIff] at hi
    exact h.size i hi.1 hi.2
  have hshape (x : Nat × Nat) : Shape (superblock total) (dinodeOf (superblock total) img.blocks)
      (sizeCnt (dinodeOf (superblock total) img.blocks)) x ↔
      Taken total (dinodeOf (superblock total) img.blocks) txt x := by
    unfold Taken Shape sizeCnt
    refine and_congr_right fun hx => ?_
    rw [hsize hx]
  have hrep := h.filling.rep.of_iff hshape
  refine hrep.structural fun i hi => ?_
  rw [hsize hi]
  exact h.max i

/-- The bytes of an inode are those appended to it. -/
theorem contents_eq (h : Built total k txt blk img) {i o : Nat} (hi : 1 ≤ i) (hik : i < k) (ho : o < (txt i).length) :
    contents img.blocks (dinodeOf (superblock total) img.blocks i) o = (txt i).getD o 0 := by
  have hblk := div_lt_nblk ho
  have hmax := h.cnt_le i
  rw [← h.bytes i o ho]
  exact h.filling.rep.data i (o / BSIZE) (shape_slotOf.2 ⟨(h.usedIff i).2 ⟨hi, hik⟩, by omega, hblk⟩) _
    (Nat.mod_lt _ (by decide))

/-- The blocks in use are those of the slots: the inodes have as many slots as there are blocks taken. -/
theorem block_in_slot (h : Built total k txt blk img) {b : Nat} (hlo : nmeta total ≤ b) (hhi : b < img.freeblock) :
    ∃ i j, 1 ≤ i ∧ i < k ∧ j < SLOTS ∧ slotVal img.blocks (dinodeOf (superblock total) img.blocks i) j = b := by
  generalize hS : ((Finset.range NINODES).sigma fun i => Finset.range (blocksFor 0 (nblk (txt i).length))).map
    (Equiv.sigmaEquivProd Nat Nat).toEmbedding = S
  have htaken (x : Nat × Nat) (hx : x ∈ S) : Taken total (dinodeOf (superblock total) img.blocks) txt x := by
    rw [← hS, Finset.mem_map_equiv, Finset.mem_sigma] at hx
    have hj : x.2 < blocksFor 0 (nblk (txt x.1).length) := Finset.mem_range.1 hx.2
    have hiff : Taken total (dinodeOf (superblock total) img.blocks) txt (x.1, x.2) ↔ _ := shape_iff (h.cnt_le x.1)
    refine hiff.2 ⟨?_, hj⟩
    rw [h.usedIff]
    by_contra hnot
    have h0 : blocksFor 0 (nblk ([] : List UInt8).length) = 0 := by decide
    rw [h.none x.1 hnot, h0] at hj
    exact Nat.not_lt_zero _ hj
  have hgood (c : Nat) (hc : Fs.nmeta (superblock total) ≤ c ∧ c < mapSize (superblock total).size ∧
      marked (superblock total) img.blocks c = true) : c ∈ Finset.Ico (nmeta total) img.freeblock := by
    obtain ⟨hmeta, hlt, hmarked⟩ := hc
    rw [h.filling.bits c (div_lt_of_mapSize hlt), decide_eq_true_eq] at hmarked
    rw [nmeta_eq] at hmeta
    exact Finset.mem_Ico.2 ⟨hmeta, hmarked⟩
  have hcard : (Finset.Ico (nmeta total) img.freeblock).card ≤ S.card := by
    have hcount := h.count
    rw [← hS, Finset.card_map, Finset.card_sigma, Nat.card_Ico]
    simp only [Finset.card_range]
    unfold need at hcount
    omega
  obtain ⟨⟨i, j⟩, hx, hval⟩ := h.filling.rep.placed.onto htaken hgood hcard (Finset.mem_Ico.2 ⟨hlo, hhi⟩)
  obtain ⟨hused, hj, -⟩ := htaken _ hx
  obtain ⟨hi, hik⟩ := (h.usedIff i).1 hused
  exact ⟨i, j, hi, hik, hj, hval⟩

/-- The marked blocks are the metadata and the blocks in the inodes. -/
theorem marked_iff (h : Built total k txt blk img) {b : Nat} (hb : b / BPB < nbitmap total) :
    marked (superblock total) img.blocks b = true ↔ b < nmeta total ∨
      ∃ i j, 1 ≤ i ∧ i < k ∧ j < SLOTS ∧ slotVal img.blocks (dinodeOf (superblock total) img.blocks i) j = b := by
  have hge := nmeta_ge total
  have harea := h.filling.area
  rw [h.filling.bits b hb, decide_eq_true_eq]
  constructor
  · intro hlt
    by_cases hmeta : b < nmeta total
    · exact .inl hmeta
    · exact .inr (h.block_in_slot (by omega) hlt)
  · rintro (hmeta | ⟨i, j, hi, hik, hj, hval⟩)
    · omega
    · by_cases h0 : slotVal img.blocks (dinodeOf (superblock total) img.blocks i) j = 0
      · omega
      · have hw := (h.filling.rep.slot_ne_zero_iff ((h.usedIff i).2 ⟨hi, hik⟩) hj).1 h0
        obtain ⟨-, hsize, hmarked⟩ := h.filling.rep.placed.good _ hw
        simp only [hval] at hsize hmarked
        rw [h.filling.bits b hb, decide_eq_true_eq] at hmarked
        exact hmarked

end Built

/-! ## The image of `main` -/

/-- The bytes of an entry of the root directory. -/
def entryBytes (name : List UInt8) : List UInt8 := (List.range DIRENT).map (dotEntry name)

/-- What `main` puts into the image. -/
def rootOps : List Op :=
  [.ialloc T_DIR, .iappend ROOTINO (entryBytes [0x2e]), .iappend ROOTINO (entryBytes [0x2e, 0x2e])]

theorem getD_entryBytes (name : List UInt8) : (fun i => (entryBytes name).getD i 0) = dotEntry name := by
  funext i
  unfold entryBytes
  by_cases hi : i < DIRENT
  · rw [List.getD_eq_getElem _ _ (by simpa using hi), List.getElem_map, List.getElem_range]
  · rw [List.getD_eq_default _ _ (by simpa using hi)]
    unfold DIRENT at hi
    unfold dotEntry mkDirent put16
    rw [blit_out (by omega), if_neg]
    unfold DIRSIZ
    omega

theorem length_entryBytes (name : List UInt8) : (entryBytes name).length = DIRENT := by
  rw [entryBytes, List.length_map, List.length_range]

/-- The layout creates no inode. -/
theorem layout_freeinode {total : Nat} {a : Unit} {t : State} (h : (layout total).run boot = .ok (a, t)) :
    t.freeinode = 1 := by
  have hwp : (∀ a t, (layout total).run boot = .ok (a, t) → t.freeinode = 1) ∧
      ∀ e, (layout total).run boot = .error e → True := by
    refine (wp_iff (layout total)).1 ?_
    rw [layout, wp_ite]
    refine ⟨fun _ => trivial, fun _ => ?_⟩
    rw [wp_bind]
    refine wp_post (wp_zeros total _) fun _ s hs => ?_
    rw [hs]
    simp only [wp_bind, wp_modify]
    unfold wsect
    rw [wp_modify]
    refine wp_forN (fun _ (t : State) => t.freeinode = 1) (Eq.refl _) fun i t _ ht => ?_
    unfold ballocMark rsect wsect
    rw [wp_bind, wp_gets, wp_bind, wp_bind, wp_get]
    split
    · exact ht
    · trivial
  exact hwp.1 a t h

/-- `main` is such a sequence of calls. -/
theorem main_run_eq (total : Nat) :
    (main total).run boot = (do layout total; fill rootOps : Prog State Unit).run boot := by
  have hmain : main total = (do
      layout total
      let rootino ← Mkfs.ialloc T_DIR
      if rootino = ROOTINO then
        Mkfs.iappend rootino (mkDirent (UInt16.ofNat rootino) (nameBytes [0x2e])) DIRENT
        Mkfs.iappend rootino (mkDirent (UInt16.ofNat rootino) (nameBytes [0x2e, 0x2e])) DIRENT
      else
        .panic "assert") := by
    unfold main layout
    split
    · rfl
    · simp only [seq_assoc]
  rw [hmain, run_bind, run_bind]
  cases hrun : (layout total).run boot with
  | error e => rfl
  | ok r =>
      obtain ⟨a, s⟩ := r
      have hfree := layout_freeinode hrun
      have hfirst (k : Nat → Prog State Unit) : (gets State.freeinode >>= k).run s = (k ROOTINO).run s := by
        rw [run_bind]
        exact congrArg (fun i => (k i).run s) hfree
      unfold fill rootOps Op.run Mkfs.ialloc
      simp only [seq_assoc]
      rw [hfirst, hfirst]
      unfold fill fill fill Op.run
      have hlast (p : Prog State Unit) : (p >>= fun _ => pure ()) = p := seq_pure p
      simp only [getD_entryBytes, length_entryBytes, pure_seq, hlast, if_true]
      rfl

/-! ## What the kernel reads -/

/-- What reading an array of bytes returns and delivers. -/
def readOf (bytes : List UInt8) (off n : UInt32) : Int × List UInt8 :=
  if off.toNat > bytes.length ∨ 2 ^ 32 ≤ off.toNat + n.toNat then (0, [])
  else (((bytes.drop off.toNat).take n.toNat).length, (bytes.drop off.toNat).take n.toNat)

/-- The bytes from `off` on, of a file with these contents. -/
theorem bytesFrom_eq {D : Nat → Block} {din : Dinode} {bytes : List UInt8}
    (h : ∀ o < bytes.length, contents D din o = bytes.getD o 0) (off n : Nat) :
    bytesFrom D din off (min n (bytes.length - off)) = (bytes.drop off).take n := by
  unfold bytesFrom
  apply List.ext_getElem
  · rw [List.length_map, List.length_range, List.length_take, List.length_drop]
  · intro i hi hi'
    rw [List.length_map, List.length_range] at hi
    have ho : off + i < bytes.length := by omega
    rw [List.getElem_map, List.getElem_range, h _ ho, List.getElem_take, List.getElem_drop, List.getD_eq_getElem _ _ ho]

theorem readAt_eq {D : Nat → Block} {din : Dinode} {bytes : List UInt8} (hsize : din.size.toNat = bytes.length)
    (h : ∀ o < bytes.length, contents D din o = bytes.getD o 0) (off n : UInt32) :
    readAt D din off n = readOf bytes off n := by
  have hout : (off > din.size ∨ off + n < off) ↔ (off.toNat > bytes.length ∨ 2 ^ 32 ≤ off.toNat + n.toNat) := by
    rw [u32_add_lt_iff, gt_iff_lt, UInt32.lt_iff_toNat_lt, hsize]
  have hlen : readLen din off n = min n.toNat (bytes.length - off.toNat) := by
    unfold readLen
    rw [hsize]
  have htake : ((bytes.drop off.toNat).take n.toNat).length = min n.toNat (bytes.length - off.toNat) := by
    rw [List.length_take, List.length_drop]
  unfold readAt readOf
  simp only [hout]
  rw [hlen, bytesFrom_eq h, htake]

/-- `ilock` and `readi` of inode `inum`. -/
def readInode (inum : Nat) (off n : UInt32) : Prog Fs.State (UInt32 × (Int × List UInt8)) := do
  let ip ← iget ROOTDEV inum
  ilock ip
  let size ← gets fun s => (s.icache ip).din.size
  let r ← readi ip off n
  return (size, r)

section Read
variable {total k : Nat} {txt : Nat → List UInt8} {blk : Nat → Nat → Block} {img : State} {s s₀ : Fs.State}

theorem Built.wp_mount (h : Built total k txt blk img) (hs₀ : s₀.dev = Dev.boot img.blocks) :
    (do lift binit; fsinit ROOTDEV : Prog Fs.State Unit).wp (fun _ t => Idle t.dev [] ∧ t.dev.disk = img.blocks ∧
      t.sb = superblock total ∧ Refs t fun _ => 0) (fun _ => False) s₀ := by
  have hmagic : (sbAt (img.blocks 1)).magic = FSMAGIC := by
    rw [h.filling.rep.super]
    exact Eq.refl _
  have hmount := Fs.wp_mount hs₀ hmagic
  rwa [h.filling.rep.super] at hmount

theorem Built.wp_readInode (h : Built total k txt blk img) (hs : MountStart img s) {i : Nat} (hi : 1 ≤ i) (hik : i < k)
    (off n : UInt32) : (readInode i off n).wp (fun r _ => r.1.toNat = (txt i).length ∧ r.2 = readOf (txt i) off n)
      (fun _ => False) s := by
  obtain ⟨s₀, hs₀, hrun⟩ := hs
  obtain ⟨hidle, hdisk, hsb, hrefs⟩ := wp_ok (h.wp_mount hs₀) hrun
  have hused := (h.usedIff i).2 ⟨hi, hik⟩
  have hsize := h.size i hi hik
  have hmap := h.structural.mappedTo hused
  have hbytes (o : Nat) (ho : o < (txt i).length) := h.contents_eq hi hik ho
  rw [← hdisk, ← hsb] at hsize hmap hbytes
  unfold readInode
  rw [wp_bind]
  refine Fs.wp_iget hrefs (fun ip hip => absurd hip (Nat.lt_irrefl 0)) (fun _ ip _ => ?_)
    (.inr ⟨⟨0, by decide⟩, Eq.refl _⟩)
  rw [wp_bind]
  refine wp_ilock_read (s := s.setInode ip _) hidle ?_ ?_ ?_ (fun d hd hdisk' _ => ?_) fun h0 => ?_
  · rw [State.setInode_self]
  · rw [State.setInode_self]
    exact Int.one_pos
  · rw [State.setInode_self]
  · rw [State.setInode_self, State.setInode_dev, State.setInode_sb]
    rw [State.setInode_dev] at hdisk'
    rw [wp_bind, wp_gets, wp_bind, State.setInode_self]
    refine Fs.wp_readi ?_ ?_ ?_ fun t ht hdisk'' => ?_
    · exact hd
    · rw [State.setInode_self]
    · rw [State.setInode_self, State.setInode_dev, hdisk']
      exact hmap
    · rw [wp_pure, State.setInode_self, State.setInode_dev, hdisk']
      exact ⟨hsize, readAt_eq hsize hbytes off n⟩
  · rw [State.setInode_self, State.setInode_dev, State.setInode_sb, hsb, hdisk] at h0
    exact hused.2 h0

end Read

/-- What `ialloc` and `iappend` put into an image is what the kernel reads from it. -/
theorem fill_read (total : Nat) (ops : List Op) (hcount : total + BPB - 1 < 2 ^ 31) (hvalid : Valid 1 ops)
    (hmax : ∀ i, (contentsOf ops i).length ≤ MAXBYTES) (hroom : nmeta total + need (contentsOf ops) ≤ total) :
    ∃ img, (do layout total; fill ops : Prog State Unit).run boot = .ok ((), img) ∧
      (∃ s, MountStart img s) ∧
      (∀ s, MountStart img s → ∀ i, 1 ≤ i → i ≤ created ops → ∀ off n : UInt32,
        ∃ size r t, (readInode i off n).run s = .ok ((size, r), t) ∧ size.toNat = (contentsOf ops i).length ∧
          r = readOf (contentsOf ops i) off n) ∧
      (∀ i j i' j', 1 ≤ i → i ≤ created ops → j < SLOTS → 1 ≤ i' → i' ≤ created ops → j' < SLOTS →
        slotVal img.blocks (dinodeOf (superblock total) img.blocks i) j ≠ 0 →
        slotVal img.blocks (dinodeOf (superblock total) img.blocks i) j =
          slotVal img.blocks (dinodeOf (superblock total) img.blocks i') j' → i = i' ∧ j = j') ∧
      ∀ b, b / BPB < nbitmap total → (marked (superblock total) img.blocks b = true ↔ b < nmeta total ∨
        ∃ i j, 1 ≤ i ∧ i ≤ created ops ∧ j < SLOTS ∧
          slotVal img.blocks (dinodeOf (superblock total) img.blocks i) j = b) := by
  obtain ⟨_, s, hlayout, blk₀, hs⟩ := layout_run hcount (Nat.le_of_add_right_le hroom)
  have hfill := wp_fill (E := fun _ => False) ops hs (Nat.le_refl 1) hvalid
  simp only [List.nil_append] at hfill
  obtain ⟨_, img, hrun, blk, himg⟩ := wp_total (hfill hmax hroom)
  have hrun' : (do layout total; fill ops : Prog State Unit).run boot = .ok ((), img) := by
    rw [run_bind, hlayout]
    exact hrun
  refine ⟨img, hrun', ?_, fun s hs i hi hik off n => ?_, fun i j i' j' hi hik hj hi' hik' hj' h0 he => ?_,
    fun b hb => ?_⟩
  · obtain ⟨s₀, hs₀⟩ : ∃ s₀ : Fs.State, s₀.dev = Dev.boot img.blocks :=
      ⟨⟨Dev.boot img.blocks, superblock total, fun _ => ⟨0, 0, 0, false, Dinode.zero⟩⟩, Eq.refl _⟩
    obtain ⟨_, s, hs, -⟩ := wp_total (himg.wp_mount hs₀)
    exact ⟨s, s₀, hs₀, hs⟩
  · obtain ⟨⟨size, r⟩, t, hread, hsize, hr⟩ := wp_total (himg.wp_readInode hs hi (by omega) off n)
    exact ⟨size, r, t, hread, hsize, hr⟩
  · have hused := (himg.usedIff i).2 ⟨hi, by omega⟩
    have hused' := (himg.usedIff i').2 ⟨hi', by omega⟩
    exact himg.structural.once i j i' j' hused hj hused' hj' h0 he
  · rw [himg.marked_iff hb]
    simp only [Nat.lt_one_add_iff]

/-- Two files written in turns in the default image. -/
theorem fill_read_two : ∃ img, (do
    layout 1000
    fill [.ialloc T_FILE, .ialloc T_FILE, .iappend 1 [0x61], .iappend 2 [0x62], .iappend 1 [0x63]] :
      Prog State Unit).run boot = .ok ((), img) ∧
    ∀ s, MountStart img s → ∃ size t, (readInode 1 0 8).run s = .ok ((size, (2, [0x61, 0x63])), t) := by
  have hshort (i : Nat) : (contentsOf [.ialloc T_FILE, .ialloc T_FILE, .iappend 1 [0x61], .iappend 2 [0x62],
      .iappend 1 [0x63]] i).length ≤ MAXBYTES := by
    simp only [contentsOf_ialloc, contentsOf_iappend, List.length_append]
    have hnil : (contentsOf [] i).length = 0 := rfl
    have hmax : 3 ≤ MAXBYTES := by decide
    split <;> split <;> simp only [List.length_cons, List.length_nil, hnil] <;> omega
  obtain ⟨img, hrun, -, hread, -⟩ := fill_read 1000
    [.ialloc T_FILE, .ialloc T_FILE, .iappend 1 [0x61], .iappend 2 [0x62], .iappend 1 [0x63]] (by decide)
    ⟨by decide, by decide, by decide, by decide, by decide, by decide, by decide, by decide, by decide, by decide,
      trivial⟩
    hshort (by decide +kernel)
  refine ⟨img, hrun, fun s hs => ?_⟩
  obtain ⟨size, r, t, hr, -, rfl⟩ := hread s hs 1 (by decide) (by decide) 0 8
  exact ⟨size, t, hr⟩

end RiscvOsLab.Mkfs
