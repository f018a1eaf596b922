import RiscvOsLab.Fs.Recoverable
import RiscvOsLab.Lib.Crash

/-!
# The disk while code runs

What the operations of the buffer cache and the allocator of blocks leave on the disk at every point, as rules of `wpc`
with a crash condition on the disk. The disk is changed by `bwrite` alone; all other code of `bio.c` is `Steady`.

* `wpc_bread`, `wpc_storeWrite`, `wpc_brelse` : the operations on a block;
* `wpc_balloc` : first the bit of the map, then the zeros in the block;
* `wpc_bmap_mapped`, `wpc_readi`, `wpc_dirlookup` : reading a file that is mapped as far as its size.
-/

namespace RiscvOsLab.Fs

open Prog Bytes Function

/-! ## The buffer cache -/

/-- The disk under the cache. -/
def Dev.platter (s : Dev) : Nat → Block := s.disk

/-- The disk under the file system. -/
def State.platter (s : State) : Nat → Block := s.dev.disk

@[simp] theorem State.platter_mk (d : Dev) (sb : Superblock) (c : Fin NINODE → Inode) :
    (State.mk d sb c).platter = d.disk := rfl

@[simp] theorem State.platter_setInode (s : State) (ip : Fin NINODE) (v : Inode) :
    (s.setInode ip v).platter = s.platter := rfl

@[simp] theorem State.platter_setDin (s : State) (ip : Fin NINODE) (v : Dinode) : (s.setDin ip v).platter = s.platter := rfl

@[simp] theorem wpc_lift {α : Type} {Q : α → State → Prop} {I : State → Prop} {s : State} (p : Prog Dev α) :
    (lift p).wpc Q I s ↔ p.wpc (fun a d => Q a { s with dev := d }) (fun d => I { s with dev := d }) s.dev :=
  wpc_zoom State.dev (fun d s => { s with dev := d }) (fun _ _ => rfl) (fun _ _ _ => rfl) (fun _ => rfl) p

theorem steady_lift {α : Type} {p : Prog Dev α} (h : p.Steady Dev.platter) : (lift p).Steady State.platter :=
  steady_zoom State.dev (fun d s => { s with dev := d }) (fun _ _ => rfl) (fun _ _ _ => rfl) (fun _ => rfl) h

theorem steady_bget (dev k : Nat) : (bget dev k).Steady Dev.platter := by
  unfold bget
  refine steady_bind steady_get fun s => ?_
  split
  · exact steady_spin
  · exact steady_bind (steady_modify fun _ => rfl) fun _ => steady_pure _
  · split
    · exact steady_spin
    · exact steady_bind (steady_modify fun _ => rfl) fun _ => steady_pure _
    · exact steady_panic _

theorem steady_bread (dev k : Nat) : (bread dev k).Steady Dev.platter := by
  unfold bread virtioDiskRw
  refine steady_bind (steady_bget dev k) fun b => steady_bind (steady_gets _) fun v => steady_ite _ (steady_pure _) ?_
  refine steady_bind (steady_bind steady_pause fun _ => steady_modify fun _ => rfl) fun _ => ?_
  exact steady_bind (steady_modify fun _ => rfl) fun _ => steady_pure _

theorem steady_load (b : Fin NBUF) : (load b).Steady Dev.platter := steady_gets _

theorem steady_store (b : Fin NBUF) (f : Block → Block) : (store b f).Steady Dev.platter := steady_modify fun _ => rfl

theorem steady_brelse (b : Fin NBUF) : (brelse b).Steady Dev.platter := by
  unfold brelse
  refine steady_bind (steady_modify fun _ => rfl) fun _ => steady_bind (steady_gets _) fun r => ?_
  exact steady_ite _ (steady_modify fun _ => rfl) (steady_pure _)

section Blocks
variable {s : State} {held : List Hold} {b : Fin NBUF} {k : Nat} {C : (Nat → Block) → Prop}

theorem wpc_bread (h : Idle s.dev held) (hroom : held.length < NBUF) {Q : Fin NBUF → State → Prop} (hC : C s.dev.disk)
    (hQ : ∀ b t, Idle t (⟨b, k, false⟩ :: held) → t.disk = s.dev.disk → Q b { s with dev := t }) :
    (lift (bread ROOTDEV k)).wpc Q (fun t => C t.platter) s := by
  refine (steady_lift (steady_bread _ _)).wpc ?_ hC
  rw [wp_lift]
  exact h.wp_bread hroom hQ

theorem wpc_load (h : Idle s.dev (⟨b, k, false⟩ :: held)) {Q : Block → State → Prop} (hC : C s.dev.disk)
    (hQ : Q (s.dev.disk k) s) : (lift (load b)).wpc Q (fun t => C t.platter) s := by
  refine (steady_lift (steady_load _)).wpc ?_ hC
  rw [wp_lift]
  exact h.wp_load hQ

theorem wpc_brelse (h : Idle s.dev (⟨b, k, false⟩ :: held)) {Q : Unit → State → Prop} (hC : C s.dev.disk)
    (hQ : ∀ t, Idle t held → t.disk = s.dev.disk → Q () { s with dev := t }) :
    (lift (brelse b)).wpc Q (fun t => C t.platter) s := by
  refine (steady_lift (steady_brelse _)).wpc ?_ hC
  rw [wp_lift]
  exact h.wp_brelse hQ

/-- The one way the disk changes. -/
theorem wpc_storeWrite (h : Idle s.dev (⟨b, k, false⟩ :: held)) {f : Block → Block} {Q : Unit → State → Prop}
    (hC : C s.dev.disk) (hC' : C (update s.dev.disk k (f (s.dev.disk k))))
    (hQ : ∀ t, Idle t (⟨b, k, false⟩ :: held) → t.disk = update s.dev.disk k (f (s.dev.disk k)) →
      Q () { s with dev := t }) :
    (lift (store b f)).wpc (fun _ t => (lift (bwrite b)).wpc Q (fun t => C t.platter) t) (fun t => C t.platter) s := by
  have hrun := h.wp_storeWrite (f := f) (E := fun _ => True)
    (Q := fun _ t => t.disk = update s.dev.disk k (f (s.dev.disk k)) ∧ Q () { s with dev := t })
    fun t ht hdisk => ⟨hdisk, hQ t ht hdisk⟩
  obtain ⟨hdisk, hlast⟩ : Dev.disk _ = _ ∧ Q () _ := hrun
  simp only [bwrite, virtioDiskRw, wpc_lift, wpc_bind, wpc_pause, wpc_modify, store]
  rw [← hdisk] at hC'
  exact ⟨⟨⟨hlast, hC, hC'⟩, hC⟩, hC, hC⟩

theorem wpc_bzero (h : Idle s.dev held) (hroom : held.length < NBUF) {Q : Unit → State → Prop} (hC : C s.dev.disk)
    (hC' : C (update s.dev.disk k (blit (s.dev.disk k) 0 (fun _ => 0) BSIZE)))
    (hQ : ∀ t, Idle t held → t.disk = update s.dev.disk k (blit (s.dev.disk k) 0 (fun _ => 0) BSIZE) →
      Q () { s with dev := t }) : (bzero ROOTDEV k).wpc Q (fun t => C t.platter) s := by
  unfold bzero
  simp only [wpc_bind]
  refine wpc_bread h hroom hC fun b t ht hdisk => ?_
  rw [← hdisk] at hC hC'
  refine wpc_storeWrite (s := { s with dev := t }) ht hC hC' fun u hu hdisk' => ?_
  rw [← hdisk'] at hC'
  refine wpc_brelse (s := { s with dev := u }) hu hC' fun v hv hdisk'' => hQ v hv ?_
  rw [hdisk'', hdisk', hdisk]

end Blocks

/-! ## `balloc` -/

/-- The disk when the bit of block `b` is set and the block is not zeroed yet. -/
def bitSet (sb : Superblock) (D : Nat → Block) (b : Nat) : Nat → Block :=
  update D (mapBlock sb b) (setBit (D (mapBlock sb b)) (b % BPB))

namespace Rep

variable {sb : Superblock} {D : Nat → Block} {T : Nat → Dinode} {W : Nat × Nat → Prop} {blk : Nat → Nat → Block}

/-- A bit of the map is set, which no slot looks at. -/
theorem bitSet (h : Rep sb D T W blk) {b : Nat} (hb : b < mapSize sb.size) (hclear : marked sb D b = false) :
    Rep sb (bitSet sb D b) T W blk := by
  obtain ⟨hnmeta, -⟩ := h.fresh hb hclear
  have hone := h.geo.one_lt
  have hmap : sb.bmapstart ≤ mapBlock sb b := Nat.le_add_right _ _
  have hmap' := mapBlock_lt hb
  unfold Fs.bitSet
  refine h.frame ?_ (fun c hc hm => ?_) fun x hx o _ => ?_
  · rw [update_of_ne (by omega)]
  · -- the block itself has no part in the map
    have hafter := marked_allocated (D := D) hnmeta hc
    have hlt := mapBlock_lt hc
    rw [hm, Bool.or_true] at hafter
    unfold marked allocated at hafter
    rwa [update_of_ne (by omega)] at hafter
  · have hgood := (h.placed.good x hx).1
    rw [update_of_ne (by omega)]

theorem dinodeOf_bitSet (h : Rep sb D T W blk) {b k : Nat} (hk : k < sb.ninodes) :
    dinodeOf sb (Fs.bitSet sb D b) k = dinodeOf sb D k := by
  have hblk := h.geo.inodes k hk
  have hmap : sb.bmapstart ≤ mapBlock sb b := Nat.le_add_right _ _
  unfold dinodeOf Fs.bitSet
  rw [update_of_ne (by omega)]

end Rep

section Balloc
variable {s : State} {held : List Hold} {C : (Nat → Block) → Prop}

theorem wpc_ballocFrom {sb : Superblock} {Q : Nat → State → Prop} (hC : C s.dev.disk)
    (hbit : ∀ b < mapSize sb.size, marked sb s.dev.disk b = false →
      C (bitSet sb s.dev.disk b) ∧ C (allocated sb s.dev.disk b))
    (hQ : ∀ b t, b < mapSize sb.size → marked sb s.dev.disk b = false → Idle t held →
      t.disk = allocated sb s.dev.disk b → Q b { s with dev := t })
    (hroom : held.length < NBUF) (b : Nat) (hb : BPB ∣ b) (t₀ : Dev) (ht₀ : Idle t₀ held)
    (hdisk₀ : t₀.disk = s.dev.disk) :
    (ballocFrom ROOTDEV sb b).wpc Q (fun t => C t.platter) { s with dev := t₀ } := by
  induction hk : sb.size - b using Nat.strong_induction_on generalizing b t₀ with
  | _ k ih =>
    unfold ballocFrom
    have hbytes : 8 ∣ b := Dvd.dvd.trans (by decide) hb
    rw [← hdisk₀] at hC
    by_cases hlt : b < sb.size
    · rw [if_pos hlt]
      simp only [wpc_bind]
      refine wpc_bread (s := { s with dev := t₀ }) ht₀ hroom hC fun bp t ht hdisk => ?_
      simp only at hdisk
      rw [← hdisk] at hC
      refine wpc_load (s := { s with dev := t }) ht hC ?_
      simp only [hdisk, hdisk₀]
      cases hscan : scanMap (s.dev.disk (sb.bmapstart + b / BPB)) b sb.size 0 with
      | some found =>
          obtain ⟨bi, bi2⟩ := found
          obtain ⟨hbi, hin, hbi2, hclear⟩ := scanMap_some hscan
          have hmap : mapBlock sb (b + bi * 8 + bi2) = sb.bmapstart + b / BPB := by
            unfold mapBlock BPB BSIZE at *
            omega
          have hmod : (b + bi * 8 + bi2) % BPB = bi * 8 + bi2 := by
            unfold BPB BSIZE at *
            omega
          have hsize : b + bi * 8 + bi2 < mapSize sb.size := by
            unfold mapSize
            omega
          have hfree : marked sb s.dev.disk (b + bi * 8 + bi2) = false := by
            unfold marked
            rw [hmap, hmod]
            exact hclear
          obtain ⟨hset, hall⟩ := hbit _ hsize hfree
          -- the two inner loops set the bit of the block
          have hstored : update t.disk (sb.bmapstart + b / BPB) (update (t.disk (sb.bmapstart + b / BPB)) bi
              (UInt8.ofNat ((t.disk (sb.bmapstart + b / BPB) bi).toNat ||| 1 <<< bi2))) =
              bitSet sb s.dev.disk (b + bi * 8 + bi2) := by
            unfold bitSet setBit
            rw [hmap, hmod, show (bi * 8 + bi2) / 8 = bi by omega, show (bi * 8 + bi2) % 8 = bi2 by omega, hdisk, hdisk₀]
          simp only [wpc_bind]
          refine wpc_storeWrite (s := { s with dev := t }) ht hC (hstored ▸ hset) fun u hu hdisk' => ?_
          simp only [hstored] at hdisk'
          rw [← hdisk'] at hset
          refine wpc_brelse (s := { s with dev := u }) hu hset fun v hv hdisk'' => ?_
          rw [← hdisk''] at hset
          have hzero : update v.disk (b + bi * 8 + bi2) (blit (v.disk (b + bi * 8 + bi2)) 0 (fun _ => 0) BSIZE) =
              allocated sb s.dev.disk (b + bi * 8 + bi2) := by
            rw [hdisk'', hdisk']
            rfl
          refine wpc_bzero (s := { s with dev := v }) hv hroom hset (hzero ▸ hall) fun w hw hdiskw => ?_
          simp only [hzero] at hdiskw
          rw [wpc_pure]
          refine ⟨hQ _ w hsize hfree hw hdiskw, ?_⟩
          show C w.disk
          rwa [hdiskw]
      | none =>
          simp only [wpc_bind]
          refine wpc_brelse (s := { s with dev := t }) ht hC fun u hu hdisk' => ?_
          simp only at hdisk'
          refine ih (sb.size - (b + BPB)) (by unfold BPB BSIZE; omega) (b + BPB) (Nat.dvd_add hb (Nat.dvd_refl _)) u hu
            (by rw [hdisk', hdisk, hdisk₀]) rfl
    · rw [if_neg hlt, wpc_panic]
      exact hC

/-- Only the disks with the bit set, and then the block zeroed, are seen on the way. -/
theorem wpc_balloc (h : Idle s.dev held) (hroom : held.length < NBUF) {Q : Nat → State → Prop} (hC : C s.dev.disk)
    (hbit : ∀ b < mapSize s.sb.size, marked s.sb s.dev.disk b = false →
      C (bitSet s.sb s.dev.disk b) ∧ C (allocated s.sb s.dev.disk b))
    (hQ : ∀ b t, b < mapSize s.sb.size → marked s.sb s.dev.disk b = false → Idle t held →
      t.disk = allocated s.sb s.dev.disk b → Q b { s with dev := t }) :
    (balloc ROOTDEV).wpc Q (fun t => C t.platter) s := by
  unfold balloc
  rw [wpc_bind, wpc_gets]
  exact ⟨wpc_ballocFrom hC hbit hQ hroom 0 (dvd_zero _) s.dev h rfl, hC⟩

end Balloc

/-! ## Reading -/

section Read
variable {s : State} {ip : Fin NINODE} {C : (Nat → Block) → Prop}

theorem wpc_bmap_mapped {bn : Nat} (h : Idle s.dev []) (hdev : (s.icache ip).dev = ROOTDEV)
    (hbn : bn < NDIRECT + NINDIRECT) (hmap : slotVal s.dev.disk (s.icache ip).din (slotOf bn) ≠ 0)
    {Q : Nat → State → Prop} (hC : C s.dev.disk)
    (hQ : ∀ t, Idle t [] → t.disk = s.dev.disk →
      Q (slotVal s.dev.disk (s.icache ip).din (slotOf bn)) { s with dev := t }) :
    (bmap ip bn).wpc Q (fun t => C t.platter) s := by
  refine wpc_of_wp (wp_bmap_mapped h hdev hbn hmap hQ) ?_
  unfold bmap addrOf
  unfold slotVal slotOf at hmap
  by_cases hd : bn < NDIRECT
  · rw [if_pos hd, if_pos (Nat.le_of_lt hd)] at hmap
    simp only [if_pos hd, wpc_bind, wpc_gets, if_neg hmap, wpc_pure]
    exact ⟨⟨trivial, hC⟩, hC⟩
  · rw [if_neg hd, if_neg (by omega), show bn + 1 - (NDIRECT + 1) = bn - NDIRECT by omega] at hmap
    have hind : (s.icache ip).din.addr NDIRECT ≠ 0 := fun h0 => hmap (if_pos h0)
    rw [if_neg hind] at hmap
    rw [if_neg hd, if_pos (by omega)]
    simp only [wpc_bind, wpc_gets, hdev, if_neg hind, wpc_pure]
    refine ⟨⟨⟨?_, hC⟩, hC⟩, hC⟩
    refine wpc_bread h (by decide) hC fun b t ht hdisk => ?_
    rw [← hdisk] at hC
    refine wpc_load (s := { s with dev := t }) ht hC ?_
    simp only [hdisk, if_neg hmap, wpc_bind, wpc_pure]
    refine wpc_brelse (s := { s with dev := t }) ht hC fun u hu hdisk' => ?_
    rw [← show u.disk = t.disk from hdisk'] at hC
    exact ⟨trivial, hC⟩

theorem wpc_readiLoop (hdev : (s.icache ip).dev = ROOTDEV) (hC : C s.dev.disk) (off left : Nat) (d : Dev)
    (hd : Idle d []) (hdisk : d.disk = s.dev.disk) (hmap : MappedTo s.dev.disk (s.icache ip).din (off + left)) :
    (readiLoop ip off left).wpc (fun _ _ => True) (fun t => C t.platter) { s with dev := d } := by
  induction hk : left using Nat.strong_induction_on generalizing off left d with
  | _ k ih =>
    subst hk
    unfold readiLoop
    have hCd : C d.disk := by rwa [hdisk]
    by_cases hpos : 0 < left
    · rw [if_pos hpos]
      have hmod : off % BSIZE < BSIZE := Nat.mod_lt _ (by decide)
      have hblock := hmap off (by omega)
      rw [← hdisk] at hblock
      simp only [wpc_bind, wpc_gets, wpc_pure]
      refine wpc_bmap_mapped (s := { s with dev := d }) hd hdev hblock.1 hblock.2 hCd fun t ht hdisk' => ⟨?_, ?_⟩
      all_goals simp only at hdisk'
      all_goals rw [← hdisk'] at hCd
      · simp only [hdev]
        refine wpc_bread (s := { s with dev := t }) ht (by decide) hCd fun b u hu hdisk'' => ?_
        simp only at hdisk''
        rw [← hdisk''] at hCd
        refine wpc_load (s := { s with dev := u }) hu hCd ?_
        refine wpc_brelse (s := { s with dev := u }) hu hCd fun v hv hdisk₃ => ?_
        have hsame : v.disk = s.dev.disk := by rw [show v.disk = u.disk from hdisk₃, hdisk'', hdisk', hdisk]
        exact wpc_last (ih _ (by omega) _ _ v hv hsame (fun o ho => hmap o (by omega)) rfl)
      · exact hCd
    · rw [if_neg hpos, wpc_pure]
      exact ⟨trivial, hCd⟩

theorem wpc_readi (hidle : Idle s.dev []) (hdev : (s.icache ip).dev = ROOTDEV)
    (hmap : MappedTo s.dev.disk (s.icache ip).din (s.icache ip).din.size.toNat) {off n : UInt32} (hC : C s.dev.disk)
    {Q : Int × List UInt8 → State → Prop}
    (hQ : ∀ t, Idle t [] → t.disk = s.dev.disk → Q (readAt s.dev.disk (s.icache ip).din off n) { s with dev := t }) :
    (readi ip off n).wpc Q (fun t => C t.platter) s := by
  refine wpc_of_wp (wp_readi hidle hdev hmap hQ) ?_
  unfold readi
  simp only [wpc_bind, wpc_gets]
  refine ⟨?_, hC⟩
  by_cases hout : off > (s.icache ip).din.size ∨ off + n < off
  · rw [if_pos hout, wpc_pure]
    exact ⟨trivial, hC⟩
  · rw [if_neg hout]
    rw [not_or] at hout
    obtain ⟨hoff, hwrap⟩ := hout
    simp only [wpc_bind, wpc_pure]
    refine wpc_last (wpc_readiLoop hdev hC _ _ s.dev hidle rfl fun o ho => hmap o ?_)
    have hle := UInt32.le_iff_toNat_le.1 (UInt32.not_lt.1 hoff)
    split at ho
    · rw [UInt32.toNat_sub_of_le _ _ (UInt32.not_lt.1 hoff)] at ho
      omega
    · rename_i hcut
      have hlt := UInt32.le_iff_toNat_le.1 (UInt32.not_lt.1 hcut)
      rw [u32_toNat_add hwrap] at hlt
      omega

theorem steady_iget (dev inum : Nat) : (iget dev inum).Steady State.platter := by
  unfold iget
  refine steady_bind steady_get fun s => ?_
  split
  · exact steady_bind (steady_modify fun _ => rfl) fun _ => steady_pure _
  · split
    · exact steady_panic _
    · exact steady_bind (steady_modify fun _ => rfl) fun _ => steady_pure _

theorem wpc_dirlookupFrom (hdev : (s.icache ip).dev = ROOTDEV)
    (hmap : MappedTo s.dev.disk (s.icache ip).din (s.icache ip).din.size.toNat) (hC : C s.dev.disk) (name : Bytes)
    (off : Nat) (d : Dev) (hd : Idle d []) (hdisk : d.disk = s.dev.disk) :
    (dirlookupFrom ip name (s.icache ip).din.size.toNat off).wpc (fun _ _ => True) (fun t => C t.platter)
      { s with dev := d } := by
  induction hk : (s.icache ip).din.size.toNat - off using Nat.strong_induction_on generalizing off d with
  | _ k ih =>
    unfold dirlookupFrom
    rw [← hdisk] at hC
    by_cases hlt : off < (s.icache ip).din.size.toNat
    · rw [if_pos hlt, wpc_bind]
      refine wpc_readi (s := { s with dev := d }) hd hdev (by rw [hdisk]; exact hmap) hC fun t ht hdisk' => ?_
      simp only at hdisk'
      have hnext := ih ((s.icache ip).din.size.toNat - (off + DIRENT)) (by unfold DIRENT; omega) (off + DIRENT) t ht
        (hdisk'.trans hdisk) rfl
      rw [← hdisk'] at hC
      simp only [wpc_ite, wpc_panic, wpc_bind, wpc_gets, wpc_pure]
      refine ⟨fun _ => hC, fun _ => ⟨fun _ => hnext, fun _ => ⟨fun _ => ⟨?_, hC⟩, fun _ => hnext⟩⟩⟩
      refine wpc_last ((steady_iget _ _).wpc ?_ hC)
      exact wp_any _ fun _ _ => trivial
    · rw [if_neg hlt, wpc_pure]
      exact ⟨trivial, hC⟩

theorem wpc_dirlookup (hidle : Idle s.dev []) (hdev : (s.icache ip).dev = ROOTDEV)
    (hsize : DIRENT ∣ (s.icache ip).din.size.toNat)
    (hmap : MappedTo s.dev.disk (s.icache ip).din (s.icache ip).din.size.toNat) (name : Bytes) (hC : C s.dev.disk)
    {Q : Option (Fin NINODE) → State → Prop}
    (hnone : lookup s.dev.disk (s.icache ip).din name = none →
      ∀ d, Idle d [] → d.disk = s.dev.disk → Q none { s with dev := d })
    (hsome : ∀ inum, lookup s.dev.disk (s.icache ip).din name = some inum →
      ∀ d, Idle d [] → d.disk = s.dev.disk →
        (iget ROOTDEV inum).wp (fun jp t => Q (some jp) t) (fun _ => True) { s with dev := d }) :
    (dirlookup ip name).wpc Q (fun t => C t.platter) s := by
  refine wpc_of_wp (wp_dirlookup hidle hdev hsize hmap name hnone hsome) ?_
  unfold dirlookup
  rw [wpc_bind, wpc_gets]
  exact ⟨wpc_dirlookupFrom hdev hmap hC name 0 s.dev hidle rfl, hC⟩

theorem wpc_freeEntryFrom (hdev : (s.icache ip).dev = ROOTDEV)
    (hmap : MappedTo s.dev.disk (s.icache ip).din (s.icache ip).din.size.toNat) (hC : C s.dev.disk) (off : Nat)
    (d : Dev) (hd : Idle d []) (hdisk : d.disk = s.dev.disk) :
    (freeEntryFrom ip (s.icache ip).din.size.toNat off).wpc (fun _ _ => True) (fun t => C t.platter)
      { s with dev := d } := by
  induction hk : (s.icache ip).din.size.toNat - off using Nat.strong_induction_on generalizing off d with
  | _ k ih =>
    unfold freeEntryFrom
    rw [← hdisk] at hC
    by_cases hlt : off < (s.icache ip).din.size.toNat
    · rw [if_pos hlt, wpc_bind]
      refine wpc_readi (s := { s with dev := d }) hd hdev (by rw [hdisk]; exact hmap) hC fun t ht hdisk' => ?_
      simp only at hdisk'
      have hnext := ih ((s.icache ip).din.size.toNat - (off + DIRENT)) (by unfold DIRENT; omega) (off + DIRENT) t ht
        (hdisk'.trans hdisk) rfl
      rw [← hdisk'] at hC
      simp only [wpc_ite, wpc_panic, wpc_pure]
      exact ⟨fun _ => hC, fun _ => ⟨fun _ => ⟨trivial, hC⟩, fun _ => hnext⟩⟩
    · rw [if_neg hlt, wpc_pure]
      exact ⟨trivial, hC⟩

end Read

end RiscvOsLab.Fs
