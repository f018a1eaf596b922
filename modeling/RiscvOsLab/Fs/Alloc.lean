import RiscvOsLab.Fs.Contents
import RiscvOsLab.Fs.Fs
import RiscvOsLab.Fs.Idle

/-!
# Allocation of blocks

`balloc` and the block numbers of an inode, over a coherent cache:

* `wp_balloc` : a clear bit of the map is found, if there is one, and its block taken;
* `wp_bmap_mapped` : a mapped block is looked up, and nothing changes;
* `Editing`, `wp_bmap` : while a file is written its first `n` blocks are mapped, and `bmap` may map one more.
-/

namespace RiscvOsLab.Fs

open Prog Bytes Function

/-! ## The scan of the bit map -/

section Scan
variable {data : Block} {b size : Nat}

theorem bitAt_of_full {c bi : Nat} (hc : c / 8 = bi) (hfull : (data bi).toNat = 255) : bitAt data c = true := by
  unfold bitAt
  rw [hc, hfull, show (255 : Nat) = 2 ^ 8 - 1 from rfl, Nat.testBit_two_pow_sub_one]
  exact decide_eq_true (Nat.mod_lt _ (by decide))

theorem scanMap_some {bi x y : Nat} (h : scanMap data b size bi = some (x, y)) :
    x < BSIZE ∧ b + x * 8 < size ∧ y < 8 ∧ bitAt data (x * 8 + y) = false := by
  fun_induction scanMap data b size bi with
  | case1 bi hin m hm bi2 hfind =>
      obtain ⟨rfl, rfl⟩ := Prod.mk.inj (Option.some.inj h)
      have hbit := (and_shift_eq_zero _ _).1 (by simpa using List.find?_some hfind)
      have hlt := List.mem_range.1 (List.mem_of_find?_eq_some hfind)
      refine ⟨hin.1, hin.2, hlt, ?_⟩
      unfold bitAt
      rw [show (bi * 8 + bi2) / 8 = bi by omega, show (bi * 8 + bi2) % 8 = bi2 by omega]
      exact hbit
  | case2 bi hin m hm hfind ih => exact ih h
  | case3 bi hin m hm ih => exact ih h
  | case4 bi hout => simp at h

/-- The bits before the one found are set. -/
theorem scanMap_least {bi x y : Nat} (h : scanMap data b size bi = some (x, y)) {c : Nat} (hlo : bi * 8 ≤ c)
    (hc : c < x * 8 + y) : bitAt data c = true := by
  fun_induction scanMap data b size bi with
  | case1 bi hin m hm bi2 hfind =>
      obtain ⟨rfl, rfl⟩ := Prod.mk.inj (Option.some.inj h)
      have hlt := List.mem_range.1 (List.mem_of_find?_eq_some hfind)
      have hbefore := (List.find?_range_eq_some.1 hfind).2.2 (c % 8) (by omega)
      have hset : ¬ m.testBit (c % 8) = false := fun hclear => by
        simp [(and_shift_eq_zero m (c % 8)).2 hclear] at hbefore
      unfold bitAt
      rw [show c / 8 = bi by omega]
      exact Bool.not_eq_false _ ▸ hset
  | case2 bi hin m hm hfind ih =>
      obtain ⟨i, hi, hbit⟩ := exists_clear_bit (data bi).toNat_lt hm
      have hnone := List.find?_eq_none.1 hfind i (List.mem_range.2 hi)
      exact absurd ((and_shift_eq_zero _ _).2 hbit) (by simpa using hnone)
  | case3 bi hin m hm ih =>
      by_cases hbyte : c / 8 = bi
      · exact bitAt_of_full hbyte (not_not.1 hm)
      · exact ih h (by omega)
  | case4 bi hout => simp at h

theorem scanMap_none {bi : Nat} (h : scanMap data b size bi = none) (c : Nat) (hlo : bi * 8 ≤ c) (hc : c < BPB)
    (hsize : b + c / 8 * 8 < size) : bitAt data c = true := by
  fun_induction scanMap data b size bi with
  | case1 bi hin m hm bi2 hfind => simp at h
  | case2 bi hin m hm hfind ih =>
      -- a byte other than 0xff has a clear bit
      obtain ⟨i, hi, hbit⟩ := exists_clear_bit (data bi).toNat_lt hm
      have hnone := List.find?_eq_none.1 hfind i (List.mem_range.2 hi)
      exact absurd ((and_shift_eq_zero _ _).2 hbit) (by simpa using hnone)
  | case3 bi hin m hm ih =>
      by_cases hbyte : c / 8 = bi
      · exact bitAt_of_full hbyte (not_not.1 hm)
      · exact ih h (by omega)
  | case4 bi hout =>
      unfold BPB at hc
      omega

end Scan

/-! ## `balloc` -/

section Balloc
variable {s : State} {held : List Hold} {E : Halt → Prop}

theorem wp_bzero {k : Nat} (h : Idle s.dev held) (hroom : held.length < NBUF) {Q : Unit → State → Prop}
    (hQ : ∀ t, Idle t held → t.disk = update s.dev.disk k (blit (s.dev.disk k) 0 (fun _ => 0) BSIZE) →
      Q () { s with dev := t }) : (bzero ROOTDEV k).wp Q E s := by
  unfold bzero
  simp only [wp_bind, wp_lift]
  refine h.wp_bread hroom fun b t ht hdisk => ?_
  refine ht.wp_storeWrite fun u hu hdisk' => ?_
  refine hu.wp_brelse fun v hv hdisk'' => hQ v hv ?_
  rw [hdisk'', hdisk', hdisk]

/-- `balloc` takes the first clear bit of the bytes it looks at. -/
theorem wp_ballocFrom {sb : Superblock} {Q : Nat → State → Prop}
    (hQ : ∀ b t, b < mapSize sb.size → marked sb s.dev.disk b = false → (∀ c < b, marked sb s.dev.disk c = true) →
      Idle t held → t.disk = allocated sb s.dev.disk b → Q b { s with dev := t })
    (hE : (∀ c < mapSize sb.size, marked sb s.dev.disk c = true) → E (.panic "balloc: out of blocks"))
    (hroom : held.length < NBUF) (b : Nat) (hb : BPB ∣ b)
    (hfull : ∀ c < b, c < mapSize sb.size → marked sb s.dev.disk c = true) (t₀ : Dev) (ht₀ : Idle t₀ held)
    (hdisk₀ : t₀.disk = s.dev.disk) : (ballocFrom ROOTDEV sb b).wp Q E { s with dev := t₀ } := by
  induction hk : sb.size - b using Nat.strong_induction_on generalizing b t₀ with
  | _ k ih =>
    unfold ballocFrom
    have hbytes : 8 ∣ b := Dvd.dvd.trans (by decide) hb
    by_cases hlt : b < sb.size
    · rw [if_pos hlt]
      simp only [wp_bind, wp_lift]
      refine ht₀.wp_bread hroom fun bp t ht hdisk => ?_
      refine ht.wp_load ?_
      rw [hdisk, hdisk₀]
      have hdiv (c : Nat) (hc : c < BPB) : mapBlock sb (b + c) = sb.bmapstart + b / BPB ∧ (b + c) % BPB = c := by
        unfold mapBlock BPB BSIZE at *
        omega
      cases hscan : scanMap (s.dev.disk (sb.bmapstart + b / BPB)) b sb.size 0 with
      | some found =>
          obtain ⟨bi, bi2⟩ := found
          obtain ⟨hbi, hin, hbi2, hclear⟩ := scanMap_some hscan
          obtain ⟨hmap, hmod⟩ := hdiv (bi * 8 + bi2) (by unfold BPB; omega)
          rw [← Nat.add_assoc] at hmap hmod
          have hsize : b + bi * 8 + bi2 < mapSize sb.size := by
            unfold mapSize
            omega
          simp only [wp_bind, wp_lift]
          refine ht.wp_storeWrite fun u hu hdisk' => ?_
          refine hu.wp_brelse fun v hv hdisk'' => ?_
          refine wp_bzero hv hroom fun w hw hdiskw => ?_
          refine hQ _ w hsize ?_ (fun c hc => ?_) hw ?_
          · unfold marked
            rw [hmap, hmod]
            exact hclear
          · by_cases hcb : c < b
            · exact hfull c hcb (by omega)
            · obtain ⟨hmapc, hmodc⟩ := hdiv (c - b) (by unfold BPB; omega)
              rw [show b + (c - b) = c by omega] at hmapc hmodc
              unfold marked
              rw [hmapc, hmodc]
              exact scanMap_least hscan (by omega) (by omega)
          · -- the two inner loops set the bit of the block
            simp only [hdiskw, hdisk'', hdisk', hdisk, hdisk₀]
            unfold allocated setBit
            rw [hmap, hmod, show (bi * 8 + bi2) / 8 = bi by omega, show (bi * 8 + bi2) % 8 = bi2 by omega]
      | none =>
          simp only [wp_bind, wp_lift]
          refine ht.wp_brelse fun u hu hdisk' => ?_
          refine ih (sb.size - (b + BPB)) (by unfold BPB BSIZE; omega) (b + BPB) (Nat.dvd_add hb (Nat.dvd_refl _)) ?_ u hu
            (by rw [hdisk', hdisk, hdisk₀]) rfl
          intro c hc hcsize
          by_cases hcb : c < b
          · exact hfull c hcb hcsize
          · obtain ⟨hmap, hmod⟩ := hdiv (c - b) (by omega)
            rw [show b + (c - b) = c by omega] at hmap hmod
            unfold marked
            rw [hmap, hmod]
            refine scanMap_none hscan (c - b) (by omega) (by omega) ?_
            unfold mapSize at hcsize
            omega
    · rw [if_neg hlt]
      refine hE fun c hc => hfull c ?_ hc
      unfold mapSize at hc
      omega

theorem wp_balloc_first (h : Idle s.dev held) (hroom : held.length < NBUF) {Q : Nat → State → Prop}
    (hQ : ∀ b t, b < mapSize s.sb.size → marked s.sb s.dev.disk b = false →
      (∀ c < b, marked s.sb s.dev.disk c = true) → Idle t held → t.disk = allocated s.sb s.dev.disk b →
      Q b { s with dev := t })
    (hE : (∀ c < mapSize s.sb.size, marked s.sb s.dev.disk c = true) → E (.panic "balloc: out of blocks")) :
    (balloc ROOTDEV).wp Q E s := by
  unfold balloc
  simp only [wp_bind, wp_gets]
  exact wp_ballocFrom hQ hE hroom 0 (dvd_zero _) (by omega) s.dev h rfl

/-- There is a clear bit, unless `balloc` may panic. -/
theorem wp_balloc (h : Idle s.dev held) (hroom : held.length < NBUF) {Q : Nat → State → Prop}
    (hQ : ∀ b t, b < mapSize s.sb.size → marked s.sb s.dev.disk b = false → Idle t held →
      t.disk = allocated s.sb s.dev.disk b → Q b { s with dev := t })
    (hE : E (.panic "balloc: out of blocks") ∨ ∃ b < mapSize s.sb.size, marked s.sb s.dev.disk b = false) :
    (balloc ROOTDEV).wp Q E s := by
  refine wp_balloc_first h hroom (fun b t hb hclear _ => hQ b t hb hclear) fun hfull => ?_
  rcases hE with hE | ⟨b, hb, hclear⟩
  · exact hE
  · rw [hfull b hb] at hclear
    exact Bool.noConfusion hclear

end Balloc

/-! ## The blocks of an inode -/

/-- The inodes, of which `ip` is the one in memory. -/
def tableOf (s : State) (ip : Fin NINODE) : Nat → Dinode :=
  update (dinodeOf s.sb s.dev.disk) (s.icache ip).inum (s.icache ip).din

/-- Blocks that are not marked. -/
def freeBlocks (s : State) : Nat := unmarked (marked s.sb s.dev.disk) (mapSize s.sb.size)

/-- What `ilock` establishes. -/
structure Locked (s : State) (ip : Fin NINODE) : Prop where
  dev : (s.icache ip).dev = ROOTDEV
  inum : (s.icache ip).inum < s.sb.ninodes
  type : (s.icache ip).din.type ≠ 0

/-- A mapped block is looked up. -/
theorem wp_bmap_mapped {s : State} {ip : Fin NINODE} {bn : Nat} {E : Halt → Prop} (h : Idle s.dev [])
    (hdev : (s.icache ip).dev = ROOTDEV) (hbn : bn < NDIRECT + NINDIRECT)
    (hmap : slotVal s.dev.disk (s.icache ip).din (slotOf bn) ≠ 0) {Q : Nat → State → Prop}
    (hQ : ∀ t, Idle t [] → t.disk = s.dev.disk →
      Q (slotVal s.dev.disk (s.icache ip).din (slotOf bn)) { s with dev := t }) : (bmap ip bn).wp Q E s := by
  unfold bmap addrOf
  unfold slotVal slotOf at *
  by_cases hd : bn < NDIRECT
  · rw [if_pos hd, if_pos (Nat.le_of_lt hd)] at hmap hQ
    rw [if_pos hd]
    simp only [wp_bind, wp_gets]
    rw [if_neg hmap]
    exact hQ s.dev h rfl
  · rw [if_neg hd, if_neg (by omega), show bn + 1 - (NDIRECT + 1) = bn - NDIRECT by omega] at hmap hQ
    have hind : (s.icache ip).din.addr NDIRECT ≠ 0 := fun h0 => hmap (if_pos h0)
    rw [if_neg hind] at hmap hQ
    rw [if_neg hd, if_pos (by omega)]
    simp only [wp_bind, wp_gets, hdev]
    rw [if_neg hind]
    simp only [wp_pure, wp_lift]
    refine h.wp_bread (by decide) fun b t ht hdisk => ?_
    refine ht.wp_load ?_
    rw [hdisk, if_neg hmap]
    simp only [wp_bind, wp_lift, wp_pure]
    refine ht.wp_brelse fun u hu hdisk' => ?_
    exact hQ u hu (hdisk'.trans hdisk)

/-- A state reached from `s₀` by writing the inode `ip`, in which the slots of `W` are mapped. -/
structure Editing (s₀ : State) (ip : Fin NINODE) (W : Nat × Nat → Prop) (blk : Nat → Nat → Block) (s : State) :
    Prop where
  sb : s.sb = s₀.sb
  others : ∀ jp, jp ≠ ip → s.icache jp = s₀.icache jp
  inode : ∃ addrs, s.icache ip = { s₀.icache ip with din := { (s₀.icache ip).din with addrs } }
  dinodes : ∀ k < s₀.sb.ninodes, dinodeOf s₀.sb s.dev.disk k = dinodeOf s₀.sb s₀.dev.disk k
  rep : Rep s₀.sb s.dev.disk (update (tableOf s₀ ip) (s₀.icache ip).inum (s.icache ip).din) W blk

namespace Editing

variable {s₀ s : State} {ip : Fin NINODE} {W : Nat × Nat → Prop} {blk : Nat → Nat → Block} {held : List Hold}
  {E : Halt → Prop}

theorem dev (h : Editing s₀ ip W blk s) : (s.icache ip).dev = (s₀.icache ip).dev := by
  obtain ⟨addrs, he⟩ := h.inode
  rw [he]

theorem inum (h : Editing s₀ ip W blk s) : (s.icache ip).inum = (s₀.icache ip).inum := by
  obtain ⟨addrs, he⟩ := h.inode
  rw [he]

theorem type (h : Editing s₀ ip W blk s) : (s.icache ip).din.type = (s₀.icache ip).din.type := by
  obtain ⟨addrs, he⟩ := h.inode
  rw [he]

theorem size (h : Editing s₀ ip W blk s) : (s.icache ip).din.size = (s₀.icache ip).din.size := by
  obtain ⟨addrs, he⟩ := h.inode
  rw [he]

theorem used (h : Editing s₀ ip W blk s) (hl : Locked s₀ ip) :
    Used s₀.sb (update (tableOf s₀ ip) (s₀.icache ip).inum (s.icache ip).din) (s₀.icache ip).inum := by
  refine ⟨hl.inum, ?_⟩
  rw [update_self, h.type]
  exact hl.type

/-- Only the disk counts, not the cache. -/
theorem same_disk (h : Editing s₀ ip W blk s) {d : Dev} (hd : d.disk = s.dev.disk) :
    Editing s₀ ip W blk { s with dev := d } where
  sb := h.sb
  others := h.others
  inode := h.inode
  dinodes := by
    rw [hd]
    exact h.dinodes
  rep := by
    rw [hd]
    exact h.rep

theorem of_iff {W' : Nat × Nat → Prop} (h : Editing s₀ ip W blk s) (hW : ∀ x, W' x ↔ W x) : Editing s₀ ip W' blk s :=
  ⟨h.sb, h.others, h.inode, h.dinodes, h.rep.of_iff hW⟩

/-- `balloc` while the inode is written. -/
theorem wp_balloc (h : Editing s₀ ip W blk s) (hidle : Idle s.dev held) (hroom : held.length < NBUF)
    {Q : Nat → State → Prop}
    (hQ : ∀ b t, Idle t held → Editing s₀ ip W blk { s with dev := t } →
      Fresh s₀.sb t.disk (update (tableOf s₀ ip) (s₀.icache ip).inum (s.icache ip).din) W b →
      (∀ c, nmeta s₀.sb ≤ c → marked s₀.sb s.dev.disk c = true → c < mapSize s₀.sb.size → t.disk c = s.dev.disk c) →
      freeBlocks { s with dev := t } + 1 = freeBlocks s → Q b { s with dev := t })
    (hE : E (.panic "balloc: out of blocks") ∨ 0 < freeBlocks s) : (balloc ROOTDEV).wp Q E s := by
  have hsb := h.sb
  refine Fs.wp_balloc hidle hroom (fun b t hb hclear ht hdisk => ?_) (hE.imp_right unmarked_pos)
  rw [hsb] at hb hclear hdisk
  obtain ⟨hrep, hfresh⟩ := h.rep.alloc hb hclear
  refine hQ b t ht ⟨hsb, h.others, h.inode, fun k hk => ?_, ?_⟩ ?_ (fun c hc hm hlt => ?_) ?_
  · rw [hdisk, h.rep.dinodeOf_allocated hb hclear hk, h.dinodes k hk]
  · rw [hdisk]
    exact hrep
  · rw [hdisk]
    exact hfresh
  · have hmap := mapBlock_lt hb
    rw [hdisk, allocated_of_ne (by rintro rfl; simp [hclear] at hm) (by omega)]
  · unfold freeBlocks
    rw [hsb, hdisk]
    exact h.rep.unmarked_allocated hb hclear

/-- `addrOf` where there is no block yet. -/
theorem wp_addrOf (h : Editing s₀ ip W blk s) (hl : Locked s₀ ip) (hidle : Idle s.dev []) {j : Nat}
    (hj : j ≤ NDIRECT) (hoff : ¬ W ((s₀.icache ip).inum, j)) {Q : Nat → State → Prop}
    (hQ : ∀ b t, Idle t.dev [] →
      Editing s₀ ip (fun x => W x ∨ x = ((s₀.icache ip).inum, j))
        (withBlock blk ((s₀.icache ip).inum, j) fun _ => 0) t →
      (t.icache ip).din.addr j = b → freeBlocks t + 1 = freeBlocks s → Q b t)
    (hE : E (.panic "balloc: out of blocks") ∨ 0 < freeBlocks s) : (addrOf ip j).wp Q E s := by
  have hslot : j < SLOTS := by
    unfold SLOTS
    omega
  have hoff' := h.rep.placed.off (_, j) ⟨h.used hl, hslot⟩ hoff
  simp only [update_self, slotVal_direct _ _ hj] at hoff'
  unfold addrOf
  simp only [wp_bind, wp_gets]
  rw [if_pos hoff', h.dev, hl.dev]
  simp only [wp_bind, wp_modify, wp_pure]
  refine h.wp_balloc hidle (by decide) (fun b t ht hedit hfresh _ hfree => ?_) hE
  have hlt : b < 2 ^ 32 := lt_of_mapSize hfresh.lt h.rep.geo.size
  have hused := hedit.used hl
  refine hQ b _ ht ⟨hedit.sb, fun jp hjp => ?_, ?_, hedit.dinodes, ?_⟩ ?_ hfree
  · rw [State.setDin, State.setInode_of_ne hjp]
    exact hedit.others jp hjp
  · obtain ⟨addrs, he⟩ := h.inode
    refine ⟨((s.icache ip).din.setAddr j b).addrs, ?_⟩
    rw [State.setDin, State.setInode_self]
    show { s.icache ip with din := (s.icache ip).din.setAddr j b } = _
    rw [he]
    rfl
  · have hrep := hedit.rep.linkAddr hfresh hused hj hoff
    rw [update_self, update_idem] at hrep
    rw [State.setDin, State.setInode_self]
    exact hrep
  · rw [State.setDin, State.setInode_self, Dinode.addr_setAddr (Nat.lt_succ_of_le hj) _ hlt, if_pos rfl]

/-- The part of `bmap` after the indirect block, where there is no block yet. -/
theorem wp_word (h : Editing s₀ ip W blk s) (hidle : Idle s.dev []) {e : Nat} (hw : W ((s₀.icache ip).inum, NDIRECT))
    (he : e < NINDIRECT) (hoff : ¬ W ((s₀.icache ip).inum, NDIRECT + 1 + e)) {Q : Nat → State → Prop}
    (hQ : ∀ b t, Idle t.dev [] →
      Editing s₀ ip (fun x => W x ∨ x = ((s₀.icache ip).inum, NDIRECT + 1 + e))
        (withBlock blk ((s₀.icache ip).inum, NDIRECT + 1 + e) fun _ => 0) t →
      slotVal t.dev.disk (t.icache ip).din (NDIRECT + 1 + e) = b → freeBlocks t + 1 = freeBlocks s → Q b t)
    (hE : E (.panic "balloc: out of blocks") ∨ 0 < freeBlocks s) :
    (do
      let bp ← lift (bread ROOTDEV ((s.icache ip).din.addr NDIRECT))
      let a ← lift (load bp)
      if (u32At a (4 * e)).toNat = 0 then
        let addr ← balloc ROOTDEV
        lift (store bp fun a => put32 a (4 * e) (UInt32.ofNat addr))
        lift (bwrite bp)
        lift (brelse bp)
        return addr
      else
        lift (brelse bp)
        return (u32At a (4 * e)).toNat : Prog State Nat).wp Q E s := by
  have hgood := (h.rep.placed.good _ hw).1
  have hind0 := h.rep.pos hw
  simp only [update_self, slotVal_direct _ _ (Nat.le_refl NDIRECT)] at hgood hind0
  have hslot : NDIRECT + 1 + e < SLOTS := by
    unfold SLOTS
    omega
  have hzero := h.rep.placed.off (_, NDIRECT + 1 + e) ⟨(h.rep.placed.sub _ hw).1, hslot⟩ hoff
  simp only [update_self] at hzero
  unfold slotVal at hzero
  rw [if_neg (by omega), if_neg hind0, Nat.add_sub_cancel_left] at hzero
  simp only [wp_bind, wp_lift]
  refine hidle.wp_bread (by decide) fun bp d hd hdisk₀ => ?_
  refine hd.wp_load ?_
  rw [hdisk₀, if_pos hzero]
  simp only [wp_bind, wp_lift, wp_pure]
  have hread : Editing s₀ ip W blk { s with dev := d } := h.same_disk hdisk₀
  have hfree₀ : freeBlocks { s with dev := d } = freeBlocks s := by
    unfold freeBlocks
    simp only [hdisk₀]
  refine hread.wp_balloc hd (show 1 < NBUF by decide) (fun b t ht hedit hfresh hkeep hfree => ?_) (hfree₀ ▸ hE)
  have hlt : b < 2 ^ 32 := lt_of_mapSize hfresh.lt h.rep.geo.size
  refine ht.wp_storeWrite fun u hu hdisk => ?_
  refine hu.wp_brelse fun v hv hdisk' => ?_
  have hrep := hedit.rep.linkWord hfresh hw he hoff
  simp only [update_self] at hrep
  have hD : v.disk = update t.disk ((s.icache ip).din.addr NDIRECT)
      (put32 (t.disk ((s.icache ip).din.addr NDIRECT)) (4 * e) (UInt32.ofNat b)) := hdisk'.trans hdisk
  have hone := h.rep.geo.one_lt
  have hle := bmapstart_le s₀.sb
  refine hQ b { s with dev := v } hv ⟨hedit.sb, hedit.others, hedit.inode, fun k hk => ?_, ?_⟩ ?_ ?_
  · have hblk := h.rep.geo.inodes k hk
    rw [← hedit.dinodes k hk]
    simp only [hD]
    unfold dinodeOf
    rw [update_of_ne (by omega)]
  · simp only [hD]
    exact hrep
  · simp only [hD]
    unfold slotVal
    rw [if_neg (by omega), if_neg hind0, update_self, Nat.add_sub_cancel_left, u32At_put32, UInt32.toNat_ofNat',
      Nat.mod_eq_of_lt hlt]
  · rw [← hfree₀, ← hfree]
    congr 1
    unfold freeBlocks
    simp only [hD, h.sb]
    refine unmarked_congr fun c hc => ?_
    have hmap := mapBlock_lt hc
    unfold marked
    rw [update_of_ne (by omega)]

end Editing

/-! ## `bmap` on a file without holes -/

/-- Blocks taken when a file grows from `m` to `n` logical blocks. -/
def blocksFor (m n : Nat) : Nat := n - m + if m ≤ NDIRECT ∧ NDIRECT < n then 1 else 0

theorem blocksFor_trans {l m n : Nat} (h₁ : l ≤ m) (h₂ : m ≤ n) :
    blocksFor l m + blocksFor m n = blocksFor l n := by
  unfold blocksFor
  split <;> split <;> split <;> omega

/-- The slots of a table in which `ip` has `n` blocks. -/
def Filled (s₀ : State) (ip : Fin NINODE) (n : Nat) : Nat × Nat → Prop :=
  Shape s₀.sb (tableOf s₀ ip) (update (sizeCnt (tableOf s₀ ip)) (s₀.icache ip).inum n)

/-- `bmap` up to the block number after the last one. -/
theorem Editing.wp_bmap_next {s₀ s : State} {ip : Fin NINODE} {n : Nat} {blk : Nat → Nat → Block} {E : Halt → Prop}
    (h : Editing s₀ ip (Filled s₀ ip n) blk s) (hl : Locked s₀ ip) (hidle : Idle s.dev [])
    (hn : n < NDIRECT + NINDIRECT) {Q : Nat → State → Prop}
    (hQ : ∀ t, Idle t.dev [] →
      Editing s₀ ip (Filled s₀ ip (n + 1)) (withBlock blk ((s₀.icache ip).inum, slotOf n) fun _ => 0) t →
      freeBlocks t + blocksFor n (n + 1) = freeBlocks s →
      Q (slotVal t.dev.disk (t.icache ip).din (slotOf n)) t)
    (hE : E (.panic "balloc: out of blocks") ∨ blocksFor n (n + 1) ≤ freeBlocks s) : (bmap ip n).wp Q E s := by
  have hused : Used s₀.sb (tableOf s₀ ip) (s₀.icache ip).inum := by
    refine ⟨hl.inum, ?_⟩
    unfold tableOf
    rw [update_self]
    exact hl.type
  have hfill (x : Nat × Nat) : Filled s₀ ip (n + 1) x ↔
      (Filled s₀ ip n x ∨ n = NDIRECT ∧ x = ((s₀.icache ip).inum, NDIRECT)) ∨ x = ((s₀.icache ip).inum, slotOf n) :=
    shape_succ hused hn x
  have hslot (j : Nat) : Filled s₀ ip n ((s₀.icache ip).inum, slotOf j) ↔ j < NDIRECT + NINDIRECT ∧ j < n := by
    unfold Filled
    rw [shape_slotOf, update_self, and_iff_right hused]
  have hindirect : Filled s₀ ip n ((s₀.icache ip).inum, NDIRECT) ↔ NDIRECT < n := by
    unfold Filled
    rw [shape_indirect, update_self, and_iff_right hused]
  have hoff : ¬ Filled s₀ ip n ((s₀.icache ip).inum, slotOf n) := fun hx => Nat.lt_irrefl n ((hslot n).1 hx).2
  unfold bmap
  by_cases hd : n < NDIRECT
  · have hslotOf : slotOf n = n := if_pos hd
    have hone : blocksFor n (n + 1) = 1 := by
      unfold blocksFor
      split <;> omega
    rw [hone] at hE hQ
    rw [hslotOf] at hoff hQ
    rw [if_pos hd]
    refine h.wp_addrOf hl hidle (Nat.le_of_lt hd) hoff (fun b t ht hedit hb hfree => ?_) hE
    rw [← hb, ← slotVal_direct t.dev.disk _ (Nat.le_of_lt hd)]
    refine hQ t ht (hedit.of_iff fun x => ?_) hfree
    rw [hfill, hslotOf]
    simp only [Nat.ne_of_lt hd, false_and, or_false]
  · have hslotOf : slotOf n = NDIRECT + 1 + (n - NDIRECT) := by
      unfold slotOf
      rw [if_neg hd]
      omega
    rw [hslotOf] at hoff hQ
    rw [if_neg hd, if_pos (by omega), wp_bind, wp_gets, wp_bind, h.dev, hl.dev]
    by_cases he : n = NDIRECT
    · -- the indirect block first, then its first word
      have htwo : blocksFor n (n + 1) = 2 := by
        unfold blocksFor
        rw [if_pos (by omega)]
        omega
      rw [htwo] at hE hQ
      have hind : ¬ Filled s₀ ip n ((s₀.icache ip).inum, NDIRECT) := fun hx => by
        have := hindirect.1 hx
        omega
      refine h.wp_addrOf hl hidle (Nat.le_refl _) hind (fun b t ht hedit hb hfree => ?_) (hE.imp_right (by omega))
      rw [withBlock_indirect] at hedit
      rw [← hb]
      refine hedit.wp_word ht (.inr rfl) (by omega) ?_ (fun c u hu hedit' hc hfree' => ?_) (hE.imp_right (by omega))
      · rintro (hx | hx)
        · exact hoff hx
        · have := (Prod.mk.inj hx).2
          omega
      · rw [← hc]
        refine hQ u hu (hedit'.of_iff fun x => ?_) (by omega)
        rw [hfill, hslotOf]
        simp only [he, true_and]
    · have hone : blocksFor n (n + 1) = 1 := by
        unfold blocksFor
        rw [if_neg (by omega)]
        omega
      rw [hone] at hE hQ
      have hind := hindirect.2 (by omega)
      have hpos := h.rep.pos hind
      simp only [update_self, slotVal_direct _ _ (Nat.le_refl NDIRECT)] at hpos
      unfold addrOf
      rw [wp_bind, wp_gets, if_neg hpos, wp_pure]
      refine h.wp_word hidle hind (by omega) hoff (fun c u hu hedit' hc hfree' => ?_) hE
      rw [← hc]
      refine hQ u hu (hedit'.of_iff fun x => ?_) hfree'
      rw [hfill, hslotOf]
      simp only [he, false_and, or_false]

/-- `bmap` for a write, which may take the next block. -/
theorem Editing.wp_bmap {s₀ s : State} {ip : Fin NINODE} {n bn : Nat} {blk : Nat → Nat → Block} {E : Halt → Prop}
    (h : Editing s₀ ip (Filled s₀ ip n) blk s) (hl : Locked s₀ ip) (hidle : Idle s.dev [])
    (hbn : bn ≤ n) (hmax : bn < NDIRECT + NINDIRECT) {Q : Nat → State → Prop}
    (hQ : ∀ t blk', Idle t.dev [] → Editing s₀ ip (Filled s₀ ip (max n (bn + 1))) blk' t →
      (∀ k m, k ≠ (s₀.icache ip).inum ∨ m < n → blk' k m = blk k m) → (bn < n → t.icache = s.icache) →
      freeBlocks t + blocksFor n (max n (bn + 1)) = freeBlocks s →
      Q (slotVal t.dev.disk (t.icache ip).din (slotOf bn)) t)
    (hE : E (.panic "balloc: out of blocks") ∨ blocksFor n (max n (bn + 1)) ≤ freeBlocks s) : (bmap ip bn).wp Q E s := by
  rcases Nat.lt_or_eq_of_le hbn with hlt | rfl
  · have hw : Filled s₀ ip n ((s₀.icache ip).inum, slotOf bn) := by
      unfold Filled
      rw [shape_slotOf, update_self]
      refine ⟨⟨hl.inum, ?_⟩, hmax, hlt⟩
      unfold tableOf
      rw [update_self]
      exact hl.type
    have hpos := h.rep.pos hw
    simp only [update_self] at hpos
    have hsame : max n (bn + 1) = n := by omega
    rw [hsame] at hQ
    refine wp_bmap_mapped hidle (h.dev.trans hl.dev) hmax hpos fun t ht hdisk => ?_
    have hq := hQ { s with dev := t } blk ht (h.same_disk hdisk) (fun _ _ _ => rfl) (fun _ => rfl) ?_
    · simp only [hdisk] at hq
      exact hq
    · unfold freeBlocks blocksFor
      simp only [hdisk]
      rw [if_neg (by omega)]
      omega
  · have hsame : max bn (bn + 1) = bn + 1 := by omega
    rw [hsame] at hQ hE
    refine h.wp_bmap_next hl hidle hmax (fun t ht hedit hfree => ?_) hE
    refine hQ t _ ht hedit (fun k m hkm => withBlock_of_ne blk ?_ _) (fun hlt => absurd hlt (Nat.lt_irrefl _)) hfree
    rintro ⟨rfl, rfl⟩
    rcases hkm with hk | hm
    · exact hk rfl
    · exact Nat.lt_irrefl _ hm

end RiscvOsLab.Fs
