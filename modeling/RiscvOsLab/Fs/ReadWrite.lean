import RiscvOsLab.Fs.Alloc

/-!
# `readi` and `writei`

The two loops cut a range of bytes at the borders of the blocks. `wp_readi` and `wp_writei` say what they do to a
file as an array of bytes:

* `wp_readi` : the bytes of the range, cut to the size of the file, and nothing changes;
* `wp_writei` : the bytes of the range are replaced, the file grows if need be, and the other files stay as they are.
-/

namespace RiscvOsLab.Fs

open Prog Bytes Function

/-! ## The arithmetic of the source -/

theorem u32_add_lt_iff {a b : UInt32} : a + b < a ↔ 2 ^ 32 ≤ a.toNat + b.toNat := by
  have ha := a.toNat_lt
  have hb := b.toNat_lt
  rw [UInt32.lt_iff_toNat_lt, UInt32.toNat_add]
  omega

theorem u32_toNat_add {a b : UInt32} (h : ¬ a + b < a) : (a + b).toNat = a.toNat + b.toNat := by
  rw [u32_add_lt_iff] at h
  rw [UInt32.toNat_add, Nat.mod_eq_of_lt (by omega)]

/-- `(int)n` of a small `uint`. -/
theorem toInt_of_lt {n : UInt32} (h : n.toNat < 2 ^ 31) : n.toInt32.toInt = n.toNat :=
  BitVec.toInt_eq_toNat_of_lt (by
    show 2 * n.toNat < 2 ^ 32
    omega)

/-- Byte `o` of inode `i` in terms of its blocks. -/
def fileByte (blk : Nat → Nat → Block) (i o : Nat) : UInt8 := blk i (o / BSIZE) (o % BSIZE)

/-! ## Reading -/

/-- The bytes from `off` on. -/
def bytesFrom (D : Nat → Block) (din : Dinode) (off n : Nat) : List UInt8 :=
  (List.range n).map fun i => contents D din (off + i)

theorem bytesFrom_add (D : Nat → Block) (din : Dinode) (off m n : Nat) :
    bytesFrom D din off m ++ bytesFrom D din (off + m) n = bytesFrom D din off (m + n) := by
  unfold bytesFrom
  rw [List.range_add, List.map_append, List.map_map]
  congr 1
  refine List.map_congr_left fun i _ => ?_
  rw [Function.comp_apply, Nat.add_assoc]

/-- All bytes below `n` are in mapped blocks. -/
def MappedTo (D : Nat → Block) (din : Dinode) (n : Nat) : Prop :=
  ∀ o < n, o / BSIZE < NDIRECT + NINDIRECT ∧ slotVal D din (slotOf (o / BSIZE)) ≠ 0

section Read
variable {s : State} {ip : Fin NINODE} {E : Halt → Prop}

theorem wp_readiLoop (hdev : (s.icache ip).dev = ROOTDEV) {Q : List UInt8 → State → Prop} (off left : Nat) (d : Dev)
    (hd : Idle d []) (hdisk : d.disk = s.dev.disk) (hmap : MappedTo s.dev.disk (s.icache ip).din (off + left))
    (hQ : ∀ t, Idle t [] → t.disk = s.dev.disk →
      Q (bytesFrom s.dev.disk (s.icache ip).din off left) { s with dev := t }) :
    (readiLoop ip off left).wp Q E { s with dev := d } := by
  induction hk : left using Nat.strong_induction_on generalizing off left d Q with
  | _ k ih =>
    subst hk
    unfold readiLoop
    by_cases hpos : 0 < left
    · rw [if_pos hpos]
      have hmod : off % BSIZE < BSIZE := Nat.mod_lt _ (by decide)
      have hm : min (BSIZE - off % BSIZE) left + (left - min (BSIZE - off % BSIZE) left) = left := by omega
      have hblock := hmap off (by omega)
      simp only [wp_bind, wp_gets, wp_lift, wp_pure]
      rw [← hdisk] at hblock
      refine wp_bmap_mapped (s := { s with dev := d }) hd hdev hblock.1 hblock.2 fun t ht hdisk' => ?_
      simp only [hdev]
      refine ht.wp_bread (by decide) fun b u hu hdisk'' => ?_
      refine hu.wp_load ?_
      refine hu.wp_brelse fun v hv hdisk₃ => ?_
      refine ih _ (by omega) _ _ v hv ?_ (fun o ho => hmap o (by omega)) (fun w hw hdiskw => ?_) rfl
      · rw [hdisk₃, hdisk'', hdisk', hdisk]
      · have hlist := bytesFrom_add s.dev.disk (s.icache ip).din off (min (BSIZE - off % BSIZE) left)
          (left - min (BSIZE - off % BSIZE) left)
        rw [hm] at hlist
        rw [← hlist] at hQ
        convert hQ w hw hdiskw using 2
        -- the bytes of the first block
        refine List.map_congr_left fun i hi => ?_
        have hlt := List.mem_range.1 hi
        have hdiv : (off + i) / BSIZE = off / BSIZE := by
          unfold BSIZE at *
          omega
        have hmod' : (off + i) % BSIZE = off % BSIZE + i := by
          unfold BSIZE at *
          omega
        unfold contents
        rw [hdisk'', hdisk', hdisk, hdiv, hmod']
    · have h0 : left = 0 := by omega
      subst h0
      exact hQ d hd hdisk

theorem MappedTo.le {D : Nat → Block} {din : Dinode} {n : Nat} (h : MappedTo D din n) : n ≤ MAXBYTES := by
  by_contra hlt
  have hlast := (h (n - 1) (by omega)).1
  unfold MAXBYTES at hlt
  rw [Nat.div_lt_iff_lt_mul (by decide)] at hlast
  omega

/-- How many bytes there are to read. -/
def readLen (din : Dinode) (off n : UInt32) : Nat := min n.toNat (din.size.toNat - off.toNat)

/-- What `readi` returns and delivers. -/
def readAt (D : Nat → Block) (din : Dinode) (off n : UInt32) : Int × List UInt8 :=
  if off > din.size ∨ off + n < off then (0, [])
  else (readLen din off n, bytesFrom D din off.toNat (readLen din off n))

theorem wp_readi (hidle : Idle s.dev []) (hdev : (s.icache ip).dev = ROOTDEV)
    (hmap : MappedTo s.dev.disk (s.icache ip).din (s.icache ip).din.size.toNat) {off n : UInt32}
    {Q : Int × List UInt8 → State → Prop}
    (hQ : ∀ t, Idle t [] → t.disk = s.dev.disk →
      Q (readAt s.dev.disk (s.icache ip).din off n) { s with dev := t }) : (readi ip off n).wp Q E s := by
  unfold readi
  simp only [wp_bind, wp_gets]
  unfold readAt at hQ
  by_cases hout : off > (s.icache ip).din.size ∨ off + n < off
  · rw [if_pos hout] at hQ ⊢
    exact hQ s.dev hidle rfl
  · rw [if_neg hout] at hQ ⊢
    rw [not_or] at hout
    obtain ⟨hoff, hwrap⟩ := hout
    have hsize := hmap.le
    have hle : off.toNat ≤ (s.icache ip).din.size.toNat := UInt32.le_iff_toNat_le.1 (UInt32.not_lt.1 hoff)
    have hmin : (if off + n > (s.icache ip).din.size then (s.icache ip).din.size - off else n).toNat =
        readLen (s.icache ip).din off n := by
      unfold readLen
      by_cases hcut : off + n > (s.icache ip).din.size
      · have hlt := UInt32.lt_iff_toNat_lt.1 hcut
        rw [u32_toNat_add hwrap] at hlt
        rw [if_pos hcut, UInt32.toNat_sub_of_le _ _ (UInt32.not_lt.1 hoff)]
        omega
      · have hlt := UInt32.le_iff_toNat_le.1 (UInt32.not_lt.1 hcut)
        rw [u32_toNat_add hwrap] at hlt
        rw [if_neg hcut]
        omega
    have hlen : readLen (s.icache ip).din off n ≤ (s.icache ip).din.size.toNat - off.toNat := Nat.min_le_right _ _
    have hsmall : (if off + n > (s.icache ip).din.size then (s.icache ip).din.size - off else n).toNat < 2 ^ 31 := by
      rw [hmin]
      unfold MAXBYTES NDIRECT NINDIRECT BSIZE at hsize
      omega
    simp only [wp_bind]
    refine wp_readiLoop hdev _ _ s.dev hidle rfl (fun o ho => hmap o (by omega)) fun t ht hdisk => ?_
    rw [wp_pure, toInt_of_lt hsmall, hmin]
    exact hQ t ht hdisk

end Read

/-! ## Writing -/

/-- The bytes of a file whose block of byte `off` has been written from there on. -/
theorem fileByte_blit (blk : Nat → Nat → Block) (i : Nat) {off m : Nat} (src : Bytes) {d : Block}
    (hm : m ≤ BSIZE - off % BSIZE) (hd : ∀ o < BSIZE, d o = blk i (off / BSIZE) o) (o : Nat) :
    fileByte (withBlock blk (i, slotOf (off / BSIZE)) (blit d (off % BSIZE) src m)) i o =
      if off ≤ o ∧ o < off + m then src (o - off) else fileByte blk i o := by
  have hmod : off % BSIZE < BSIZE := Nat.mod_lt _ (by decide)
  unfold fileByte
  by_cases hdiv : o / BSIZE = off / BSIZE
  · rw [hdiv, withBlock_self]
    by_cases hin : off ≤ o ∧ o < off + m
    · have homod : o % BSIZE = off % BSIZE + (o - off) := by
        unfold BSIZE at *
        omega
      rw [if_pos hin, homod, blit_in (by omega) (by omega), Nat.add_sub_cancel_left]
    · have homod : o % BSIZE < off % BSIZE ∨ off % BSIZE + m ≤ o % BSIZE := by
        unfold BSIZE at *
        omega
      rw [if_neg hin, blit_out homod, hd _ (Nat.mod_lt _ (by decide))]
  · have hout : ¬ (off ≤ o ∧ o < off + m) := by
      rintro ⟨hlo, hhi⟩
      apply hdiv
      unfold BSIZE at *
      omega
    rw [withBlock_of_ne _ (fun he => hdiv he.2), if_neg hout]

namespace Editing

variable {s₀ s : State} {ip : Fin NINODE} {W : Nat × Nat → Prop} {blk : Nat → Nat → Block} {n : Nat} {E : Halt → Prop}

/-- A mapped block is written. -/
theorem putData (h : Editing s₀ ip W blk s) {bn : Nat} (hw : W ((s₀.icache ip).inum, slotOf bn)) {d : Block} {t : Dev}
    (ht : t.disk = update s.dev.disk (slotVal s.dev.disk (s.icache ip).din (slotOf bn)) d) :
    Editing s₀ ip W (withBlock blk ((s₀.icache ip).inum, slotOf bn) d) { s with dev := t } := by
  have hgood := (h.rep.placed.good _ hw).1
  have hrep := h.rep.putData hw d
  simp only [update_self] at hgood hrep
  refine ⟨h.sb, h.others, h.inode, fun k hk => ?_, ?_⟩
  · have hblk := h.rep.geo.inodes k hk
    have hle := bmapstart_le s₀.sb
    rw [← h.dinodes k hk]
    simp only [ht]
    unfold dinodeOf
    rw [update_of_ne (by omega)]
  · rw [ht]
    exact hrep

/-- Writing a data block takes none. -/
theorem freeBlocks_put (h : Editing s₀ ip W blk s) {bn : Nat} (hw : W ((s₀.icache ip).inum, slotOf bn)) {d : Block}
    {t : Dev} (ht : t.disk = update s.dev.disk (slotVal s.dev.disk (s.icache ip).din (slotOf bn)) d) :
    freeBlocks { s with dev := t } = freeBlocks s := by
  have hgood := (h.rep.placed.good _ hw).1
  simp only [update_self] at hgood
  unfold freeBlocks
  simp only [ht, h.sb]
  refine unmarked_congr fun c hc => ?_
  have hmap := mapBlock_lt hc
  unfold marked
  rw [update_of_ne (by omega)]

theorem wp_writeiLoop (hl : Locked s₀ ip) (src : Bytes) (pos off left n : Nat) (blk : Nat → Nat → Block) (s : State)
    (h : Editing s₀ ip (Filled s₀ ip n) blk s) (hidle : Idle s.dev []) (hoff : nblk off ≤ n)
    (hmax : off + left ≤ MAXBYTES) {Q : Unit → State → Prop}
    (hQ : ∀ t blk', Idle t.dev [] → Editing s₀ ip (Filled s₀ ip (max n (nblk (off + left)))) blk' t →
      (∀ k bn, k ≠ (s₀.icache ip).inum → blk' k bn = blk k bn) →
      (∀ o, off ≤ o → o < off + left → fileByte blk' (s₀.icache ip).inum o = src (pos + (o - off))) →
      (∀ o, o / BSIZE < n → o < off ∨ off + left ≤ o →
        fileByte blk' (s₀.icache ip).inum o = fileByte blk (s₀.icache ip).inum o) →
      (nblk (off + left) ≤ n → t.icache = s.icache) → Q () t)
    (hE : E (.panic "balloc: out of blocks") ∨ blocksFor n (max n (nblk (off + left))) ≤ freeBlocks s) :
    (writeiLoop ip src pos off left).wp Q E s := by
  induction hk : left using Nat.strong_induction_on generalizing pos off left n blk s Q with
  | _ k ih =>
    subst hk
    unfold writeiLoop
    by_cases hpos : 0 < left
    · rw [if_pos hpos]
      generalize hm : min (BSIZE - off % BSIZE) left = m
      have hmod : off % BSIZE < BSIZE := Nat.mod_lt _ (by decide)
      have hsum : off + m + (left - m) = off + left := by omega
      have hdiv := Nat.div_add_mod off BSIZE
      have hlt : off / BSIZE < nblk (off + left) := div_lt_nblk (by omega)
      have hle : off / BSIZE ≤ n := by
        unfold nblk BSIZE at hoff
        unfold BSIZE
        omega
      have hblk : off / BSIZE < NDIRECT + NINDIRECT := by
        have := nblk_le_max hmax
        omega
      have htrans := blocksFor_trans (l := n) (m := max n (off / BSIZE + 1)) (n := max n (nblk (off + left)))
        (by omega) (by omega)
      simp only [wp_bind, wp_gets, wp_lift]
      refine h.wp_bmap hl hidle hle hblk (fun t blk' ht hedit hkeep hsame hfree => ?_) (hE.imp_right (by omega))
      rw [hedit.dev, hl.dev]
      refine ht.wp_bread (by decide) fun bp u hu hdisk => ?_
      refine hu.wp_storeWrite fun v hv hdisk' => ?_
      refine hv.wp_brelse fun w hw hdisk'' => ?_
      rw [hdisk] at hdisk'
      have hin : Filled s₀ ip (max n (off / BSIZE + 1)) ((s₀.icache ip).inum, slotOf (off / BSIZE)) := by
        unfold Filled
        rw [shape_slotOf, update_self]
        refine ⟨⟨hl.inum, ?_⟩, hblk, by omega⟩
        unfold tableOf
        rw [update_self]
        exact hl.type
      have hput := hedit.putData hin (hdisk''.trans hdisk')
      have hfree' := hedit.freeBlocks_put hin (hdisk''.trans hdisk')
      have hold (o : Nat) (ho : o < BSIZE) : t.dev.disk (slotVal t.dev.disk (t.icache ip).din (slotOf (off / BSIZE))) o =
          blk' (s₀.icache ip).inum (off / BSIZE) o := by
        have hdata := hedit.rep.data _ _ hin o ho
        simpa only [update_self] using hdata
      -- the bytes of the first block
      have hfirst := fileByte_blit blk' (s₀.icache ip).inum (fun i => src (pos + i)) (m := m) (by omega) hold
      have htop : max (max n (off / BSIZE + 1)) (nblk (off + m + (left - m))) = max n (nblk (off + left)) := by
        rw [hsum]
        omega
      have hnext : nblk (off + m) ≤ max n (off / BSIZE + 1) := by
        rw [nblk_le_iff]
        have hmul : (off / BSIZE + 1) * BSIZE ≤ max n (off / BSIZE + 1) * BSIZE := Nat.mul_le_mul_right _ (by omega)
        have hring : (off / BSIZE + 1) * BSIZE = BSIZE * (off / BSIZE) + BSIZE := by ring
        omega
      refine ih (left - m) (by omega) (pos + m) (off + m) (left - m) _ _ { t with dev := w } hput hw hnext (by omega)
        (fun x blk'' hx hedit' hothers hbytes hframe hicache => ?_) ?_ rfl
      · rw [htop] at hedit'
        rw [hsum] at hbytes hframe hicache
        refine hQ x blk'' hx hedit' (fun k bn hk => ?_) (fun o ho ho' => ?_) (fun o ho hout => ?_) fun hn => ?_
        · rw [hothers k bn hk, withBlock_of_ne _ (fun he => hk he.1), hkeep k bn (.inl hk)]
        · by_cases hom : off + m ≤ o
          · rw [hbytes o hom ho']
            congr 1
            omega
          · have hodiv : o / BSIZE = off / BSIZE := by
              unfold BSIZE at *
              omega
            rw [hframe o (by omega) (.inl (by omega)), hfirst, if_pos ⟨ho, by omega⟩]
        · rw [hframe o (by omega) (by omega), hfirst, if_neg (by omega)]
          unfold fileByte
          rw [hkeep _ _ (.inr ho)]
        · rw [hicache (by omega), hsame (by omega)]
      · rw [htop, hfree']
        exact hE.imp_right (by omega)
    · have h0 : left = 0 := by omega
      subst h0
      have hn : max n (nblk (off + 0)) = n := by
        rw [Nat.add_zero]
        omega
      rw [hn] at hQ
      refine hQ s blk hidle h (fun _ _ _ => rfl) (fun o ho ho' => ?_) (fun _ _ _ => rfl) (fun _ => rfl)
      omega

end Editing

theorem wp_iupdate {s : State} {ip : Fin NINODE} {E : Halt → Prop} (hidle : Idle s.dev [])
    (hdev : (s.icache ip).dev = ROOTDEV) {Q : Unit → State → Prop}
    (hQ : ∀ t, Idle t [] →
      t.disk = update s.dev.disk (inodeBlock s.sb (s.icache ip).inum)
        (putDinode (s.dev.disk (inodeBlock s.sb (s.icache ip).inum)) ((s.icache ip).inum % IPB) (s.icache ip).din) →
      Q () { s with dev := t }) : (iupdate ip).wp Q E s := by
  unfold iupdate
  simp only [wp_bind, wp_get, wp_lift, hdev]
  refine hidle.wp_bread (by decide) fun b t ht hdisk => ?_
  refine ht.wp_storeWrite fun u hu hdisk' => ?_
  refine hu.wp_brelse fun v hv hdisk'' => hQ v hv ?_
  rw [hdisk'', hdisk', hdisk]
  rfl

/-- The dinodes after one was written. -/
theorem dinodeOf_put {sb : Superblock} {D : Nat → Block} (i k : Nat) (din : Dinode) :
    dinodeOf sb (update D (inodeBlock sb i) (putDinode (D (inodeBlock sb i)) (i % IPB) din)) k =
      if k = i then din else dinodeOf sb D k := by
  unfold dinodeOf
  by_cases hblk : inodeBlock sb k = inodeBlock sb i
  · rw [hblk, update_self]
    by_cases hk : k = i
    · rw [if_pos hk, hk, dinodeAt_putDinode_self]
    · have hmod : k % IPB ≠ i % IPB := fun hmod => hk (by
        unfold inodeBlock at hblk
        rw [← Nat.div_add_mod k IPB, ← Nat.div_add_mod i IPB, hmod, Nat.add_left_cancel hblk])
      rw [if_neg hk, dinodeAt_putDinode_of_ne hmod]
  · rw [update_of_ne hblk, if_neg fun hk => hblk (by rw [hk])]

/-- Why a write is refused: it starts beyond the end, its end wraps, or the file would be too large. -/
def Refused (din : Dinode) (off n : UInt32) : Prop :=
  din.size.toNat < off.toNat ∨ 2 ^ 32 ≤ off.toNat + n.toNat ∨ MAXBYTES < off.toNat + n.toNat

/-- What a write does: the bytes from `off` on are those of `src`, the inode has grown to the end of the write, and
every other file is as it was. -/
structure Written (s : State) (ip : Fin NINODE) (src : Bytes) (off n : Nat) (t : State) : Prop where
  idle : Idle t.dev []
  sb : t.sb = s.sb
  others : ∀ jp, jp ≠ ip → t.icache jp = s.icache jp
  inode : ∃ addrs, t.icache ip = { s.icache ip with din := { (s.icache ip).din with
    addrs, size := UInt32.ofNat (max (s.icache ip).din.size.toNat (off + n)) } }
  size : (t.icache ip).din.size.toNat = max (s.icache ip).din.size.toNat (off + n)
  dinodes : ∀ k < s.sb.ninodes, k ≠ (s.icache ip).inum → dinodeOf s.sb t.dev.disk k = dinodeOf s.sb s.dev.disk k
  stored : dinodeOf s.sb t.dev.disk (s.icache ip).inum = (t.icache ip).din ∨
    t.icache = s.icache ∧ dinodeOf s.sb t.dev.disk (s.icache ip).inum = dinodeOf s.sb s.dev.disk (s.icache ip).inum
  structural : Structural t.sb t.dev.disk (tableOf t ip)
  bytes : ∀ o < max (s.icache ip).din.size.toNat (off + n), contents t.dev.disk (t.icache ip).din o =
    if off ≤ o ∧ o < off + n then src (o - off) else contents s.dev.disk (s.icache ip).din o
  frame : ∀ k, Used s.sb (dinodeOf s.sb s.dev.disk) k → k ≠ (s.icache ip).inum →
    ∀ o < (dinodeOf s.sb s.dev.disk k).size.toNat,
      contents t.dev.disk (dinodeOf s.sb s.dev.disk k) o = contents s.dev.disk (dinodeOf s.sb s.dev.disk k) o

section Write
variable {s : State} {ip : Fin NINODE} {src : Bytes} {off n : UInt32} {E : Halt → Prop}

/-- At the start of a write the blocks are those of the sizes. -/
theorem Structural.editing (h : Structural s.sb s.dev.disk (tableOf s ip)) :
    Editing s ip (Filled s ip (nblk (s.icache ip).din.size.toNat))
      (fun i bn => s.dev.disk (slotVal s.dev.disk (tableOf s ip i) (slotOf bn))) s := by
  have htable : update (tableOf s ip) (s.icache ip).inum (s.icache ip).din = tableOf s ip := update_idem _ _ _
  have hcnt : update (sizeCnt (tableOf s ip)) (s.icache ip).inum (nblk (s.icache ip).din.size.toNat) =
      sizeCnt (tableOf s ip) := by
    conv_rhs => rw [← update_eq_self (s.icache ip).inum (sizeCnt (tableOf s ip))]
    unfold sizeCnt tableOf
    rw [update_self]
  refine ⟨rfl, fun _ _ => rfl, ⟨(s.icache ip).din.addrs, rfl⟩, fun _ _ => rfl, ?_⟩
  unfold Filled
  rw [htable, hcnt]
  exact h.rep

theorem tableOf_self (t : State) : tableOf t ip (t.icache ip).inum = (t.icache ip).din := update_self _ _ _

theorem tableOf_of_ne {t : State} {k : Nat} (hk : k ≠ (t.icache ip).inum) : tableOf t ip k = dinodeOf t.sb t.dev.disk k :=
  update_of_ne hk _ _

/-- The end of a write: `t` is the state after the loop, `u` has the new size in memory and maybe on the disk. -/
theorem Editing.written {t u : State} {blk : Nat → Nat → Block} {off n : Nat} (hl : Locked s ip)
    (hs : Structural s.sb s.dev.disk (tableOf s ip)) (hoff : off ≤ (s.icache ip).din.size.toNat)
    (hend : off + n ≤ MAXBYTES)
    (h : Editing s ip (Filled s ip (nblk (max (s.icache ip).din.size.toNat (off + n)))) blk t)
    (hothers : ∀ k bn, k ≠ (s.icache ip).inum → blk k bn = s.dev.disk (slotVal s.dev.disk (tableOf s ip k) (slotOf bn)))
    (hbytes : ∀ o, off ≤ o → o < off + n → fileByte blk (s.icache ip).inum o = src (o - off))
    (hframe : ∀ o, o < (s.icache ip).din.size.toNat → o < off ∨ off + n ≤ o →
      fileByte blk (s.icache ip).inum o = contents s.dev.disk (s.icache ip).din o)
    (hidle : Idle u.dev []) (hsb : u.sb = s.sb) (hcache : ∀ jp, jp ≠ ip → u.icache jp = t.icache jp)
    (hinode : u.icache ip = { t.icache ip with din := { (t.icache ip).din with
      size := UInt32.ofNat (max (s.icache ip).din.size.toNat (off + n)) } })
    (hdisk : Rep s.sb u.dev.disk (update (tableOf s ip) (s.icache ip).inum (t.icache ip).din)
      (Filled s ip (nblk (max (s.icache ip).din.size.toNat (off + n)))) blk)
    (hdinodes : ∀ k < s.sb.ninodes, k ≠ (s.icache ip).inum → dinodeOf s.sb u.dev.disk k = dinodeOf s.sb t.dev.disk k)
    (hstored : dinodeOf s.sb u.dev.disk (s.icache ip).inum = (u.icache ip).din ∨
      u.icache = s.icache ∧ dinodeOf s.sb u.dev.disk (s.icache ip).inum = dinodeOf s.sb s.dev.disk (s.icache ip).inum) :
    Written s ip src off n u := by
  obtain ⟨addrs, ht⟩ := h.inode
  have hsize₀ : (s.icache ip).din.size.toNat ≤ MAXBYTES := by
    have hle := hs.sizes (s.icache ip).inum ⟨hl.inum, by rw [tableOf_self]; exact hl.type⟩
    rwa [tableOf_self] at hle
  have hsize : (u.icache ip).din.size.toNat = max (s.icache ip).din.size.toNat (off + n) := by
    rw [hinode]
    show (UInt32.ofNat _).toNat = _
    rw [UInt32.toNat_ofNat', Nat.mod_eq_of_lt]
    unfold MAXBYTES NDIRECT NINDIRECT BSIZE at *
    omega
  have hinum : (u.icache ip).inum = (s.icache ip).inum := by
    rw [hinode]
    exact h.inum
  have htype : (u.icache ip).din.type = (s.icache ip).din.type := by
    rw [hinode]
    exact h.type
  -- the table in the new state
  have hself : tableOf u ip (s.icache ip).inum = (u.icache ip).din := by
    rw [← hinum]
    exact tableOf_self u
  have hne (k : Nat) (hlt : k < s.sb.ninodes) (hk : k ≠ (s.icache ip).inum) : tableOf u ip k = tableOf s ip k := by
    rw [tableOf_of_ne (by rwa [hinum]), tableOf_of_ne hk, hsb, hdinodes k hlt hk, h.dinodes k hlt]
  have hused (k : Nat) : Used s.sb (tableOf u ip) k ↔ Used s.sb (tableOf s ip) k := by
    refine and_congr_right fun hlt => ?_
    by_cases hk : k = (s.icache ip).inum
    · rw [hk, hself, htype, tableOf_self]
    · rw [hne k hlt hk]
  have hrep : Rep s.sb u.dev.disk (tableOf u ip) (Shape s.sb (tableOf u ip) (sizeCnt (tableOf u ip))) blk := by
    have hsized : Rep s.sb u.dev.disk (update (tableOf s ip) (s.icache ip).inum (u.icache ip).din)
        (Filled s ip (nblk (max (s.icache ip).din.size.toNat (off + n)))) blk := by
      refine hdisk.retype fun k => ?_
      by_cases hk : k = (s.icache ip).inum
      · rw [hk, update_self, update_self, hinode]
        exact ⟨rfl, Iff.rfl⟩
      · rw [update_of_ne hk, update_of_ne hk]
        exact ⟨rfl, Iff.rfl⟩
    refine (hsized.table_congr fun k hlt => ?_).of_iff fun x => ?_
    · by_cases hk : k = (s.icache ip).inum
      · rw [hk, hself, update_self]
      · rw [hne k hlt hk, update_of_ne hk]
    · unfold Filled Shape
      rw [hused]
      refine and_congr_right fun hx => ?_
      have hcnt : sizeCnt (tableOf u ip) x.1 = update (sizeCnt (tableOf s ip)) (s.icache ip).inum
          (nblk (max (s.icache ip).din.size.toNat (off + n))) x.1 := by
        by_cases hk : x.1 = (s.icache ip).inum
        · rw [hk, update_self]
          unfold sizeCnt
          rw [hself, hsize]
        · rw [update_of_ne hk]
          unfold sizeCnt
          rw [hne x.1 hx.1 hk]
      rw [hcnt]
  have hsizes (k : Nat) (hk : Used s.sb (tableOf u ip) k) : (tableOf u ip k).size.toNat ≤ MAXBYTES := by
    by_cases hki : k = (s.icache ip).inum
    · rw [hki, hself, hsize]
      omega
    · rw [hne k hk.1 hki]
      exact hs.sizes k ((hused k).1 hk)
  refine ⟨hidle, hsb, fun jp hjp => (hcache jp hjp).trans (h.others jp hjp), ⟨addrs, ?_⟩, hsize, fun k hlt hk => ?_, hstored,
    hsb ▸ hrep.structural hsizes, fun o ho => ?_, fun k hk hki o ho => ?_⟩
  · rw [hinode, ht]
  · rw [hdinodes k hlt hk, h.dinodes k hlt]
  · have hin : Used s.sb (tableOf u ip) (s.icache ip).inum :=
      (hused _).2 ⟨hl.inum, by rw [tableOf_self]; exact hl.type⟩
    have hc := hrep.contents_eq hsizes hin (o := o) (by rw [hself, hsize]; exact ho)
    rw [hself] at hc
    rw [hc]
    by_cases hrange : off ≤ o ∧ o < off + n
    · rw [if_pos hrange]
      exact hbytes o hrange.1 hrange.2
    · rw [if_neg hrange]
      exact hframe o (by omega) (by omega)
  · have hT : tableOf s ip k = dinodeOf s.sb s.dev.disk k := tableOf_of_ne hki
    have hc := hrep.contents_eq hsizes (i := k) (o := o) ((hused k).2 ⟨hk.1, by rw [hT]; exact hk.2⟩)
      (by rw [hne k hk.1 hki, hT]; exact ho)
    rw [hne k hk.1 hki, hT] at hc
    rw [hc, hothers k _ hki, hT]
    rfl

theorem wp_writei (hidle : Idle s.dev []) (hl : Locked s ip) (h : Structural s.sb s.dev.disk (tableOf s ip))
    {Q : Int → State → Prop}
    (hE : ¬ Refused (s.icache ip).din off n → E (.panic "balloc: out of blocks") ∨
      blocksFor (nblk (s.icache ip).din.size.toNat)
        (max (nblk (s.icache ip).din.size.toNat) (nblk (off.toNat + n.toNat))) ≤ freeBlocks s)
    (hrefused : Refused (s.icache ip).din off n → Q (-1) s)
    (hQ : ¬ Refused (s.icache ip).din off n → ∀ t, Written s ip src off.toNat n.toNat t → Q n.toNat t) :
    (writei ip src off n).wp Q E s := by
  unfold writei
  simp only [wp_bind, wp_gets]
  unfold Refused at hE hrefused hQ
  by_cases hout : off > (s.icache ip).din.size ∨ off + n < off
  · rw [if_pos hout]
    refine hrefused (hout.elim (fun ho => .inl (UInt32.lt_iff_toNat_lt.1 ho)) fun hw => .inr (.inl ?_))
    exact u32_add_lt_iff.1 hw
  · rw [if_neg hout]
    rw [not_or] at hout
    obtain ⟨hoff, hwrap⟩ := hout
    have hsum := u32_toNat_add hwrap
    rw [u32_add_lt_iff] at hwrap
    have hmaxv : (UInt32.ofNat ((NDIRECT + NINDIRECT) * BSIZE)).toNat = MAXBYTES := by decide
    by_cases hmax : off + n > UInt32.ofNat ((NDIRECT + NINDIRECT) * BSIZE)
    · rw [if_pos hmax]
      refine hrefused (.inr (.inr ?_))
      rw [← hsum, ← hmaxv]
      exact UInt32.lt_iff_toNat_lt.1 hmax
    · rw [if_neg hmax]
      have hle : off.toNat ≤ (s.icache ip).din.size.toNat := UInt32.le_iff_toNat_le.1 (UInt32.not_lt.1 hoff)
      have hend : off.toNat + n.toNat ≤ MAXBYTES := by
        rw [← hsum, ← hmaxv]
        exact UInt32.le_iff_toNat_le.1 (UInt32.not_lt.1 hmax)
      have hQ := hQ (by omega)
      simp only [wp_bind, wp_gets]
      refine h.editing.wp_writeiLoop hl _ _ _ _ _ _ _ hidle (nblk_mono hle) hend
        (fun t blk ht hedit hothers hbytes hframe hicache => ?_) (hE (by omega))
      have hgrow : max (nblk (s.icache ip).din.size.toNat) (nblk (off.toNat + n.toNat)) =
          nblk (max (s.icache ip).din.size.toNat (off.toNat + n.toNat)) := by
        unfold nblk BSIZE
        omega
      rw [hgrow] at hedit
      have hframe' (o : Nat) (ho : o < (s.icache ip).din.size.toNat) (hout : o < off.toNat ∨ off.toNat + n.toNat ≤ o) :
          fileByte blk (s.icache ip).inum o = contents s.dev.disk (s.icache ip).din o := by
        rw [hframe o (div_lt_nblk ho) hout]
        show s.dev.disk (slotVal s.dev.disk (tableOf s ip (s.icache ip).inum) _) _ = _
        rw [tableOf_self]
        rfl
      have hbytes' (o : Nat) (ho : off.toNat ≤ o) (ho' : o < off.toNat + n.toNat) :
          fileByte blk (s.icache ip).inum o = src (o - off.toNat) := by
        rw [hbytes o ho ho', Nat.zero_add]
      have hsmall : n.toNat < 2 ^ 31 := by
        unfold MAXBYTES NDIRECT NINDIRECT BSIZE at hend
        omega
      rw [hedit.size, toInt_of_lt hsmall]
      by_cases hnew : n > 0 ∧ off + n > (s.icache ip).din.size
      · -- the size grows, and the inode is written
        rw [if_pos hnew]
        have hlt : (s.icache ip).din.size.toNat < off.toNat + n.toNat := by
          rw [← hsum]
          exact UInt32.lt_iff_toNat_lt.1 hnew.2
        have hmax' : max (s.icache ip).din.size.toNat (off.toNat + n.toNat) = (off + n).toNat := by
          rw [hsum]
          omega
        have hinum : (t.icache ip).inum = (s.icache ip).inum := hedit.inum
        rw [wp_bind, wp_modify, wp_bind]
        have hself : (t.setDin ip { (t.icache ip).din with size := off + n }).icache ip =
            { t.icache ip with din := { (t.icache ip).din with size := off + n } } := State.setInode_self _ _ _
        refine wp_iupdate (s := t.setDin ip { (t.icache ip).din with size := off + n }) ht
          (by rw [hself]; exact hedit.dev.trans hl.dev) fun u hu hdisk => ?_
        rw [hself] at hdisk
        simp only [State.setDin, State.setInode_dev, State.setInode_sb, hinum, hedit.sb] at hdisk
        refine hQ _ (hedit.written hl h hle hend hothers hbytes' hframe' hu hedit.sb (fun jp hjp => ?_) ?_ ?_
          (fun k hk hki => ?_) (.inl ?_))
        · exact State.setInode_of_ne hjp _ _
        · rw [hmax', UInt32.ofNat_toNat]
          exact State.setInode_self _ _ _
        · simp only [hdisk]
          exact hedit.rep.putInode hl.inum _
        · simp only [hdisk]
          rw [dinodeOf_put, if_neg hki]
        · simp only [hdisk]
          rw [dinodeOf_put, if_pos rfl]
          simp only [State.setDin, State.setInode_self]
      · rw [if_neg hnew]
        have hno : off.toNat + n.toNat ≤ (s.icache ip).din.size.toNat := by
          by_contra hlt
          refine hnew ⟨?_, UInt32.lt_iff_toNat_lt.2 (by rw [hsum]; omega)⟩
          exact UInt32.lt_iff_toNat_lt.2 (show 0 < n.toNat by omega)
        have hmax' : max (s.icache ip).din.size.toNat (off.toNat + n.toNat) = (s.icache ip).din.size.toNat := by omega
        have hsame := hicache (nblk_mono hno)
        refine hQ _ (hedit.written hl h hle hend hothers hbytes' hframe' ht hedit.sb (fun _ _ => rfl) ?_ hedit.rep
          (fun _ _ _ => rfl) (.inr ⟨hsame, hedit.dinodes _ hl.inum⟩))
        rw [hmax', UInt32.ofNat_toNat, ← hedit.size]

/-- All of a file is mapped. -/
theorem Structural.mappedTo {sb : Superblock} {D : Nat → Block} {T : Nat → Dinode} (h : Structural sb D T) {i : Nat}
    (hi : Used sb T i) : MappedTo D (T i) (T i).size.toNat := by
  intro o ho
  have hblk := div_lt_nblk ho
  have hmax := nblk_le_max (h.sizes i hi)
  exact ⟨by omega, (h.mapped i _ hi (by omega)).2 hblk⟩

end Write

end RiscvOsLab.Fs
