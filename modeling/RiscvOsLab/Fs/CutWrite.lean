import RiscvOsLab.Fs.Cut

/-!
# Writes that are cut off

`bmap`, the loop of `writei` and `writei` over a disk that is `Anchored` only, with every disk they leave on the way.

* `Partway` : from one state of a write to a later one, `m` bytes further on. Blocks are added, none is lost, and the
  bytes of the blocks that were there are those written and the old ones. The blocks are those of the inode in memory;
* `Editing.wpc_bmap`, `Editing.wpc_writeiLoop` : the disk is always that of some stage;
* `Partway.torn` : what the inodes on the disk see of a stage;
* `wpc_writei` : the disk is always what `WriteCut` says, and after the call what `Spliced` says.
-/

namespace RiscvOsLab.Fs

open Prog Bytes Function

theorem fileByte_withBlock_of_ne (blk : Nat → Nat → Block) {x : Nat × Nat} {k o : Nat}
    (h : (k, slotOf (o / BSIZE)) ≠ x) (d : Block) : fileByte (withBlock blk x d) k o = fileByte blk k o := by
  unfold fileByte withBlock
  rw [if_neg h]

/-- `m` bytes of `src` from position `pos` on have been written to offset `off` of the inode. -/
structure Partway (s₀ : State) (ip : Fin NINODE) (src : Bytes) (pos off m : Nat) (W : Nat × Nat → Prop)
    (blk : Nat → Nat → Block) (s : State) (W' : Nat × Nat → Prop) (blk' : Nat → Nat → Block) (t : State) : Prop where
  editing : Editing s₀ ip W' blk' t
  sub : ∀ x, W x → W' x
  addrs : ∀ j, (s.icache ip).din.addr j ≠ 0 → (t.icache ip).din.addr j = (s.icache ip).din.addr j
  old : ∀ k o, W (k, slotOf (o / BSIZE)) → (k = (s₀.icache ip).inum → o < off ∨ off + m ≤ o) →
    fileByte blk' k o = fileByte blk k o
  new : ∀ o, off ≤ o → o < off + m → W' ((s₀.icache ip).inum, slotOf (o / BSIZE)) ∧
    fileByte blk' (s₀.icache ip).inum o = src (pos + (o - off))

section Partway
variable {s₀ s t u : State} {ip : Fin NINODE} {src : Bytes} {pos off m n : Nat} {W W' W'' : Nat × Nat → Prop}
  {blk blk' blk'' : Nat → Nat → Block}

theorem Partway.refl (h : Editing s₀ ip W blk s) : Partway s₀ ip src pos off 0 W blk s W blk s where
  editing := h
  sub _ hx := hx
  addrs _ _ := rfl
  old _ _ _ _ := rfl
  new o ho ho' := by omega

theorem Partway.trans (h : Partway s₀ ip src pos off m W blk s W' blk' t)
    (h' : Partway s₀ ip src (pos + m) (off + m) n W' blk' t W'' blk'' u) :
    Partway s₀ ip src pos off (m + n) W blk s W'' blk'' u where
  editing := h'.editing
  sub x hx := h'.sub x (h.sub x hx)
  addrs j hj := by
    have he := h.addrs j hj
    rw [h'.addrs j (by rwa [he]), he]
  old k o hw hout := by
    rw [h'.old k o (h.sub _ hw) fun hk => ?_, h.old k o hw fun hk => ?_]
    · have := hout hk
      omega
    · have := hout hk
      omega
  new o ho ho' := by
    by_cases hlt : o < off + m
    · obtain ⟨hw, hb⟩ := h.new o ho hlt
      refine ⟨h'.sub _ hw, ?_⟩
      rw [h'.old _ o hw fun _ => .inl hlt, hb]
    · obtain ⟨hw, hb⟩ := h'.new o (by omega) (by omega)
      refine ⟨hw, ?_⟩
      rw [hb]
      congr 1
      omega

/-- Only the disk counts, not the cache. -/
theorem Partway.same_disk (h : Partway s₀ ip src pos off m W blk s W' blk' t) {d : Dev} (hd : d.disk = t.dev.disk) :
    Partway s₀ ip src pos off m W blk s W' blk' { t with dev := d } :=
  ⟨h.editing.same_disk hd, h.sub, h.addrs, h.old, h.new⟩

/-- The disk has changed, but not under the files. -/
theorem Partway.of_dev {d : Dev} (h : Editing s₀ ip W blk { s with dev := d }) :
    Partway s₀ ip src pos off 0 W blk s W blk { s with dev := d } where
  editing := h
  sub _ hx := hx
  addrs _ _ := rfl
  old _ _ _ _ := rfl
  new o ho ho' := by omega

/-- A block is added to the inode. -/
theorem Partway.linked {x : Nat × Nat} {d : Block} (h : Editing s₀ ip (fun y => W y ∨ y = x) (withBlock blk x d) t)
    (hx : ¬ W x) (haddrs : ∀ j, (s.icache ip).din.addr j ≠ 0 → (t.icache ip).din.addr j = (s.icache ip).din.addr j) :
    Partway s₀ ip src pos off 0 W blk s (fun y => W y ∨ y = x) (withBlock blk x d) t where
  editing := h
  sub _ hy := .inl hy
  addrs := haddrs
  old k o hw _ := fileByte_withBlock_of_ne blk (fun he => hx (by rwa [← he])) d
  new o ho ho' := by omega

end Partway

/-! ## The blocks of an inode -/

namespace Editing

variable {s₀ s : State} {ip : Fin NINODE} {W : Nat × Nat → Prop} {blk : Nat → Nat → Block} {held : List Hold}
  (src : Bytes) (pos off : Nat) {C : (Nat → Block) → Prop}

/-- The disk changes outside the blocks of the files. -/
theorem of_rep (h : Editing s₀ ip W blk s) {d : Dev}
    (hrep : Rep s₀.sb d.disk (update (tableOf s₀ ip) (s₀.icache ip).inum (s.icache ip).din) W blk)
    (hdin : ∀ k < s₀.sb.ninodes, dinodeOf s₀.sb d.disk k = dinodeOf s₀.sb s.dev.disk k) :
    Editing s₀ ip W blk { s with dev := d } :=
  ⟨h.sb, h.others, h.inode, fun k hk => (hdin k hk).trans (h.dinodes k hk), hrep⟩

theorem wpc_balloc (h : Editing s₀ ip W blk s) (hidle : Idle s.dev held) (hroom : held.length < NBUF)
    (hC : ∀ d : Dev, Editing s₀ ip W blk { s with dev := d } → C d.disk) {Q : Nat → State → Prop}
    (hQ : ∀ b t, Idle t held → Editing s₀ ip W blk { s with dev := t } →
      Fresh s₀.sb t.disk (update (tableOf s₀ ip) (s₀.icache ip).inum (s.icache ip).din) W b → Q b { s with dev := t }) :
    (balloc ROOTDEV).wpc Q (fun t => C t.platter) s := by
  have hsb := h.sb
  have hnew {b : Nat} (hb : b < mapSize s₀.sb.size) (hclear : marked s₀.sb s.dev.disk b = false) {d : Dev}
      (hd : d.disk = allocated s₀.sb s.dev.disk b) : Editing s₀ ip W blk { s with dev := d } := by
    refine h.of_rep ?_ fun k hk => ?_
    · rw [hd]
      exact (h.rep.alloc hb hclear).1
    · rw [hd]
      exact h.rep.dinodeOf_allocated hb hclear hk
  refine Fs.wpc_balloc hidle hroom (hC s.dev h) (fun b hb hclear => ?_) fun b t hb hclear ht hdisk => ?_
  · rw [hsb] at hb hclear ⊢
    refine ⟨hC { s.dev with disk := bitSet s₀.sb s.dev.disk b } (h.of_rep ?_ fun k hk => ?_),
      hC { s.dev with disk := allocated s₀.sb s.dev.disk b } (hnew hb hclear rfl)⟩
    · exact h.rep.bitSet hb hclear
    · exact h.rep.dinodeOf_bitSet hk
  · rw [hsb] at hb hclear hdisk
    refine hQ b t ht (hnew hb hclear hdisk) ?_
    rw [hdisk]
    exact (h.rep.alloc hb hclear).2

/-- The slot of the inode holds a block, or is 0. -/
theorem addr_ne_zero_iff (h : Editing s₀ ip W blk s) (hl : Locked s₀ ip) {j : Nat} (hj : j ≤ NDIRECT) :
    (s.icache ip).din.addr j ≠ 0 ↔ W ((s₀.icache ip).inum, j) := by
  have hslot : j < SLOTS := by
    unfold SLOTS
    omega
  have hiff := h.rep.slot_ne_zero_iff (h.used hl) hslot
  rwa [update_self, slotVal_direct _ _ hj] at hiff

/-- `addrOf` finds a block or takes one. -/
theorem wpc_addrOf (h : Editing s₀ ip W blk s) (hl : Locked s₀ ip) (hidle : Idle s.dev []) {j : Nat} (hj : j ≤ NDIRECT)
    (hC : ∀ d : Dev, Editing s₀ ip W blk { s with dev := d } → C d.disk) {Q : Nat → State → Prop}
    (hQ : ∀ W' blk' t, Idle t.dev [] → Partway s₀ ip src pos off 0 W blk s W' blk' t → W' ((s₀.icache ip).inum, j) →
      (W ((s₀.icache ip).inum, j) → t.icache = s.icache) → C t.dev.disk → Q ((t.icache ip).din.addr j) t) :
    (addrOf ip j).wpc Q (fun t => C t.platter) s := by
  have hiff := h.addr_ne_zero_iff hl hj
  unfold addrOf
  rw [wpc_bind, wpc_gets]
  refine ⟨?_, hC s.dev h⟩
  by_cases h0 : (s.icache ip).din.addr j = 0
  · have hoff : ¬ W ((s₀.icache ip).inum, j) := fun hw => hiff.2 hw h0
    rw [if_pos h0, h.dev, hl.dev]
    simp only [wpc_bind, wpc_modify, wpc_pure]
    refine h.wpc_balloc hidle (by decide) hC fun b t ht hedit hfresh => ?_
    have hlt : b < 2 ^ 32 := lt_of_mapSize hfresh.lt h.rep.geo.size
    have haddr (k : Nat) : ((s.icache ip).din.setAddr j b).addr k = if k = j then b else (s.icache ip).din.addr k :=
      Dinode.addr_setAddr (Nat.lt_succ_of_le hj) _ hlt k
    have hCt := hC t hedit
    have hlinked : Editing s₀ ip (fun x => W x ∨ x = ((s₀.icache ip).inum, j))
        (withBlock blk ((s₀.icache ip).inum, j) fun _ => 0)
        (State.setDin { s with dev := t } ip ((s.icache ip).din.setAddr j b)) := by
      refine ⟨hedit.sb, fun jp hjp => ?_, ?_, hedit.dinodes, ?_⟩
      · rw [State.setDin, State.setInode_of_ne hjp]
        exact hedit.others jp hjp
      · obtain ⟨addrs, he⟩ := h.inode
        refine ⟨((s.icache ip).din.setAddr j b).addrs, ?_⟩
        rw [State.setDin, State.setInode_self]
        show { s.icache ip with din := (s.icache ip).din.setAddr j b } = _
        rw [he]
        rfl
      · have hrep := hedit.rep.linkAddr hfresh (hedit.used hl) hj hoff
        rw [update_self, update_idem] at hrep
        rw [State.setDin, State.setInode_self]
        exact hrep
    have hself : ((State.setDin { s with dev := t } ip ((s.icache ip).din.setAddr j b)).icache ip).din.addr j = b := by
      rw [State.setDin, State.setInode_self, haddr, if_pos rfl]
    have hpart : Partway s₀ ip src pos off 0 W blk s _ _ _ := Partway.linked hlinked hoff fun k hk => by
      rw [State.setDin, State.setInode_self, haddr, if_neg]
      rintro rfl
      exact hk h0
    have hend := hQ _ _ _ ht hpart (.inr rfl) (fun hw => absurd hw hoff) hCt
    rw [hself] at hend
    exact ⟨⟨hend, hCt⟩, hCt, hCt⟩
  · rw [if_neg h0, wpc_pure]
    exact ⟨hQ W blk s hidle (Partway.refl h) (hiff.1 h0) (fun _ => rfl) (hC s.dev h), hC s.dev h⟩

/-- The part of `bmap` after the indirect block. -/
theorem wpc_word (h : Editing s₀ ip W blk s) (hl : Locked s₀ ip) (hidle : Idle s.dev []) {e : Nat}
    (hw : W ((s₀.icache ip).inum, NDIRECT)) (he : e < NINDIRECT)
    (hC : ∀ W' blk' t, Partway s₀ ip src pos off 0 W blk s W' blk' t → C t.dev.disk) {Q : Nat → State → Prop}
    (hQ : ∀ W' blk' t, Idle t.dev [] → Partway s₀ ip src pos off 0 W blk s W' blk' t →
      W' ((s₀.icache ip).inum, NDIRECT + 1 + e) → t.icache = s.icache →
      Q (slotVal t.dev.disk (t.icache ip).din (NDIRECT + 1 + e)) t) :
    (do
      let bp ← lift (bread ROOTDEV ((s.icache ip).din.addr NDIRECT))
      let a ← lift (load bp)
      if (u32At a (4 * e)).toNat = 0 then
        let addr ← balloc ROOTDEV
        lift (store bp fun a => put32 a (4 * e) (UInt32.ofNat addr))
        lift (bwrite bp)
        lift (brelse bp)
        return addr
      else
        lift (brelse bp)
        return (u32At a (4 * e)).toNat : Prog State Nat).wpc Q (fun t => C t.platter) s := by
  have hind0 := h.rep.pos hw
  simp only [update_self, slotVal_direct _ _ (Nat.le_refl NDIRECT)] at hind0
  have hslot : NDIRECT + 1 + e < SLOTS := by
    unfold SLOTS
    omega
  have hiff := h.rep.slot_ne_zero_iff (h.used hl) hslot
  have hword (D : Nat → Block) : slotVal D (s.icache ip).din (NDIRECT + 1 + e) =
      (u32At (D ((s.icache ip).din.addr NDIRECT)) (4 * e)).toNat := by
    unfold slotVal
    rw [if_neg (by omega), if_neg hind0, Nat.add_sub_cancel_left]
  rw [update_self, hword] at hiff
  have hCs : C s.dev.disk := hC _ _ s (Partway.refl h)
  simp only [wpc_bind]
  refine wpc_bread hidle (by decide) hCs fun bp d hd hdisk => ?_
  have hCd := hCs
  rw [← hdisk] at hCd
  refine wpc_load (s := { s with dev := d }) hd hCd ?_
  simp only [hdisk]
  by_cases h0 : (u32At (s.dev.disk ((s.icache ip).din.addr NDIRECT)) (4 * e)).toNat = 0
  · have hoff : ¬ W ((s₀.icache ip).inum, NDIRECT + 1 + e) := fun hx => hiff.2 hx h0
    rw [if_pos h0]
    simp only [wpc_bind, wpc_pure]
    have hread : Editing s₀ ip W blk { s with dev := d } := h.same_disk hdisk
    refine hread.wpc_balloc hd (show 1 < NBUF by decide) (fun d' hd' => hC _ _ _ (Partway.of_dev hd'))
      fun b t ht hedit hfresh => ?_
    have hlt : b < 2 ^ 32 := lt_of_mapSize hfresh.lt h.rep.geo.size
    have hCt : C t.disk := hC _ _ _ (Partway.of_dev (s := s) hedit)
    have hrep := hedit.rep.linkWord hfresh hw he hoff
    simp only [update_self] at hrep
    have hlinked {v : Dev} (hv : v.disk = update t.disk ((s.icache ip).din.addr NDIRECT)
        (put32 (t.disk ((s.icache ip).din.addr NDIRECT)) (4 * e) (UInt32.ofNat b))) :
        Partway s₀ ip src pos off 0 W blk s (fun x => W x ∨ x = ((s₀.icache ip).inum, NDIRECT + 1 + e))
          (withBlock blk ((s₀.icache ip).inum, NDIRECT + 1 + e) fun _ => 0) { s with dev := v } := by
      refine Partway.linked ⟨hedit.sb, hedit.others, hedit.inode, fun k hk => ?_, ?_⟩ hoff fun _ _ => rfl
      · have hgood := (h.rep.placed.good _ hw).1
        have hblk := h.rep.geo.inodes k hk
        have hle := bmapstart_le s₀.sb
        simp only [update_self, slotVal_direct _ _ (Nat.le_refl NDIRECT)] at hgood
        rw [← hedit.dinodes k hk]
        simp only [hv]
        unfold dinodeOf
        rw [update_of_ne (by omega)]
      · simp only [hv]
        exact hrep
    refine wpc_storeWrite (s := { s with dev := t }) ht hCt ?_ fun u hu hdisk' => ?_
    · exact hC _ _ _ (hlinked (v := { t with disk := _ }) rfl)
    · simp only at hdisk'
      refine wpc_brelse (s := { s with dev := u }) hu (hC _ _ _ (hlinked hdisk')) fun v hv hdisk'' => ?_
      have hpart := hlinked (Eq.trans hdisk'' hdisk')
      have hend := hQ _ _ _ hv hpart (.inr rfl) rfl
      have hself : slotVal v.disk (s.icache ip).din (NDIRECT + 1 + e) = b := by
        rw [hword, hdisk'', hdisk', update_self, u32At_put32, UInt32.toNat_ofNat', Nat.mod_eq_of_lt hlt]
      rw [← hself]
      exact ⟨hend, hC _ _ _ hpart⟩
  · rw [if_neg h0]
    simp only [wpc_bind, wpc_pure]
    refine wpc_brelse (s := { s with dev := d }) hd hCd fun t ht hdisk' => ?_
    have hsame : t.disk = s.dev.disk := Eq.trans hdisk' hdisk
    have hpart : Partway s₀ ip src pos off 0 W blk s W blk { s with dev := t } := (Partway.refl h).same_disk hsame
    have hend := hQ W blk _ ht hpart (hiff.1 h0) rfl
    simp only [hword, hsame] at hend
    exact ⟨hend, hC _ _ _ hpart⟩

theorem wpc_bmap (h : Editing s₀ ip W blk s) (hl : Locked s₀ ip) (hidle : Idle s.dev []) {bn : Nat}
    (hbn : bn < NDIRECT + NINDIRECT)
    (hC : ∀ W' blk' t, Partway s₀ ip src pos off 0 W blk s W' blk' t → C t.dev.disk) {Q : Nat → State → Prop}
    (hQ : ∀ W' blk' t, Idle t.dev [] → Partway s₀ ip src pos off 0 W blk s W' blk' t →
      W' ((s₀.icache ip).inum, slotOf bn) → (W ((s₀.icache ip).inum, slotOf bn) → t.icache = s.icache) →
      Q (slotVal t.dev.disk (t.icache ip).din (slotOf bn)) t) : (bmap ip bn).wpc Q (fun t => C t.platter) s := by
  have hC₀ (d : Dev) (hd : Editing s₀ ip W blk { s with dev := d }) : C d.disk := hC _ _ _ (Partway.of_dev hd)
  unfold bmap
  by_cases hd : bn < NDIRECT
  · have hslot : slotOf bn = bn := if_pos hd
    rw [hslot] at hQ
    rw [if_pos hd]
    refine h.wpc_addrOf src pos off hl hidle (Nat.le_of_lt hd) hC₀
      fun W' blk' t ht hpart hw hsame _ => ?_
    rw [← slotVal_direct t.dev.disk _ (Nat.le_of_lt hd)]
    exact hQ W' blk' t ht hpart hw hsame
  · have hslot : slotOf bn = NDIRECT + 1 + (bn - NDIRECT) := by
      unfold slotOf
      rw [if_neg hd]
      omega
    rw [hslot] at hQ
    rw [if_neg hd, if_pos (by omega), wpc_bind, wpc_gets, wpc_bind, h.dev, hl.dev]
    refine ⟨?_, hC₀ s.dev h⟩
    refine h.wpc_addrOf src pos off hl hidle (Nat.le_refl _) hC₀
      fun W' blk' t ht hpart hw hsame _ => ?_
    refine hpart.editing.wpc_word src pos off hl ht hw (by omega)
      (fun W'' blk'' u hu => hC _ _ _ (hpart.trans hu)) fun W'' blk'' u hu hpart' hw' hsame' => ?_
    refine hQ W'' blk'' u hu (hpart.trans hpart') hw' fun hin => ?_
    rw [hsame', hsame (h.rep.ind _ _ hin (by omega))]

end Editing

/-! ## The loop of `writei` -/

/-- The block of byte `off` is written from there on. -/
theorem Partway.put {s₀ s : State} {ip : Fin NINODE} {src : Bytes} {pos off m : Nat} {W : Nat × Nat → Prop}
    {blk : Nat → Nat → Block} (h : Editing s₀ ip W blk s) (hw : W ((s₀.icache ip).inum, slotOf (off / BSIZE)))
    (hm : m ≤ BSIZE - off % BSIZE) {d : Dev}
    (hd : d.disk = update s.dev.disk (slotVal s.dev.disk (s.icache ip).din (slotOf (off / BSIZE)))
      (blit (s.dev.disk (slotVal s.dev.disk (s.icache ip).din (slotOf (off / BSIZE)))) (off % BSIZE)
        (fun i => src (pos + i)) m)) : ∃ blk', Partway s₀ ip src pos off m W blk s W blk' { s with dev := d } := by
  have hold (o : Nat) (ho : o < BSIZE) : s.dev.disk (slotVal s.dev.disk (s.icache ip).din (slotOf (off / BSIZE))) o =
      blk (s₀.icache ip).inum (off / BSIZE) o := by
    have hdata := h.rep.data _ _ hw o ho
    simpa only [update_self] using hdata
  have hbytes := fileByte_blit blk (s₀.icache ip).inum (fun i => src (pos + i)) hm hold
  refine ⟨_, h.putData hw hd, fun _ hx => hx, fun _ _ => rfl, fun k o _ hout => ?_, fun o ho ho' => ⟨?_, ?_⟩⟩
  · by_cases hk : k = (s₀.icache ip).inum
    · have hrange := hout hk
      rw [hk, hbytes, if_neg (by omega)]
    · exact fileByte_withBlock_of_ne blk (fun he => hk (Prod.mk.inj he).1) _
  · have hdiv : o / BSIZE = off / BSIZE := by
      unfold BSIZE at *
      omega
    rw [hdiv]
    exact hw
  · rw [hbytes, if_pos ⟨ho, ho'⟩]

theorem Editing.wpc_writeiLoop {s₀ : State} {ip : Fin NINODE} (hl : Locked s₀ ip) (src : Bytes) (pos off left : Nat)
    (W : Nat × Nat → Prop) (blk : Nat → Nat → Block) (s : State) (h : Editing s₀ ip W blk s) (hidle : Idle s.dev [])
    (hmax : off + left ≤ MAXBYTES) {C : (Nat → Block) → Prop}
    (hC : ∀ m W' blk' t, m ≤ left → (m = 0 ∨ m = left ∨ BSIZE ∣ off + m) →
      Partway s₀ ip src pos off m W blk s W' blk' t → C t.dev.disk) {Q : Unit → State → Prop}
    (hQ : ∀ W' blk' t, Idle t.dev [] → Partway s₀ ip src pos off left W blk s W' blk' t →
      ((∀ o, off ≤ o → o < off + left → W ((s₀.icache ip).inum, slotOf (o / BSIZE))) → t.icache = s.icache) → Q () t) :
    (writeiLoop ip src pos off left).wpc Q (fun t => C t.platter) s := by
  induction hk : left using Nat.strong_induction_on generalizing pos off left W blk s Q with
  | _ k ih =>
    subst hk
    unfold writeiLoop
    by_cases hpos : 0 < left
    · rw [if_pos hpos]
      generalize hm : min (BSIZE - off % BSIZE) left = m
      have hmod : off % BSIZE < BSIZE := Nat.mod_lt _ (by decide)
      have hsum : m + (left - m) = left := by omega
      have hblk : off / BSIZE < NDIRECT + NINDIRECT := by
        have hlt : off / BSIZE < nblk (off + left) := div_lt_nblk (by omega)
        have hle := nblk_le_max hmax
        omega
      simp only [wpc_bind, wpc_gets]
      refine h.wpc_bmap src pos off hl hidle hblk
        (fun W' blk' t ht => hC 0 W' blk' t (Nat.zero_le _) (.inl rfl) ht) fun W' blk' t ht hpart hw hsame => ?_
      have hCt : C t.dev.disk := hC 0 W' blk' t (Nat.zero_le _) (.inl rfl) hpart
      refine ⟨?_, hCt⟩
      rw [hpart.editing.dev, hl.dev]
      refine wpc_bread ht (by decide) hCt fun bp u hu hdisk => ?_
      -- the disk with the first block
      generalize hnew : update t.dev.disk (slotVal t.dev.disk (t.icache ip).din (slotOf (off / BSIZE)))
        (blit (t.dev.disk (slotVal t.dev.disk (t.icache ip).din (slotOf (off / BSIZE)))) (off % BSIZE)
          (fun i => src (pos + i)) m) = D₁
      have hput {d : Dev} (hd : d.disk = D₁) :
          ∃ blk'', Partway s₀ ip src pos off m W blk s W' blk'' { t with dev := d } := by
        obtain ⟨blk'', hp⟩ := Partway.put hpart.editing hw (show m ≤ BSIZE - off % BSIZE by omega) (hd.trans hnew.symm)
        have hall := hpart.trans hp
        rw [Nat.zero_add] at hall
        exact ⟨blk'', hall⟩
      have hat : m = 0 ∨ m = left ∨ BSIZE ∣ off + m := by
        by_cases hml : m = left
        · exact .inr (.inl hml)
        · refine .inr (.inr ⟨off / BSIZE + 1, ?_⟩)
          have hdiv := Nat.div_add_mod off BSIZE
          rw [Nat.mul_succ]
          omega
      have hCput {d : Dev} (hd : d.disk = D₁) : C d.disk := by
        obtain ⟨blk'', hp⟩ := hput hd
        exact hC m W' blk'' _ (by omega) hat hp
      have hCu := hCt
      rw [← hdisk] at hCu
      refine wpc_storeWrite (s := { t with dev := u }) hu hCu ?_ fun v hv hdisk' => ?_
      · simp only [hdisk, hnew]
        exact hCput (d := { u with disk := D₁ }) rfl
      · simp only [hdisk, hnew] at hdisk'
        refine wpc_brelse (s := { t with dev := v }) hv (hCput hdisk') fun w hw' hdisk'' => ?_
        obtain ⟨blk'', hp⟩ := hput (Eq.trans hdisk'' hdisk')
        refine ih (left - m) (by omega) (pos + m) (off + m) (left - m) W' blk'' _ hp.editing hw' (by omega)
          (fun m' W₃ blk₃ x hm' hat' hx => ?_) (fun W₃ blk₃ x hx hpart' hstill => ?_) rfl
        · refine hC (m + m') W₃ blk₃ x (by omega) ?_ (hp.trans hx)
          rw [← Nat.add_assoc]
          rcases hat' with rfl | rfl | hdvd
          · rcases hat with h0 | hml | hdvd
            · exact .inl (by omega)
            · exact .inr (.inl (by omega))
            · exact .inr (.inr hdvd)
          · exact .inr (.inl hsum)
          · exact .inr (.inr hdvd)
        · have hall := hp.trans hpart'
          rw [hsum] at hall
          refine hQ W₃ blk₃ x hx hall fun hin => ?_
          rw [hstill fun o ho ho' => hpart.sub _ (hin o (by omega) (by omega))]
          exact hsame (hin off (Nat.le_refl _) (by omega))
    · have h0 : left = 0 := by omega
      subst h0
      exact ⟨hQ W blk s hidle (Partway.refl h) fun _ => rfl, fun t ht => by
        rw [List.mem_singleton.1 ht]
        exact hC 0 W blk s (Nat.le_refl _) (.inl rfl) (Partway.refl h)⟩

/-! ## What the inodes on the disk see -/

/-- The blocks of the files as they are stored. -/
def stored (D : Nat → Block) (T : Nat → Dinode) (i bn : Nat) : Block := D (slotVal D (T i) (slotOf bn))

section Seen
variable {s t : State} {ip : Fin NINODE} {src : Bytes} {off m : Nat} {W' : Nat × Nat → Prop} {blk' : Nat → Nat → Block}

/-- The inode in memory is the one on the disk. -/
theorem tableOf_clean (hclean : (s.icache ip).din = dinodeOf s.sb s.dev.disk (s.icache ip).inum) :
    tableOf s ip = dinodeOf s.sb s.dev.disk := by
  unfold tableOf
  rw [hclean]
  exact update_eq_self _ _

/-- At the start of a write. -/
theorem Anchored.editing (h : Anchored s.sb s.dev.disk (dinodeOf s.sb s.dev.disk))
    (hclean : (s.icache ip).din = dinodeOf s.sb s.dev.disk (s.icache ip).inum) :
    Editing s ip (InUse s.sb s.dev.disk (dinodeOf s.sb s.dev.disk))
      (stored s.dev.disk (dinodeOf s.sb s.dev.disk)) s := by
  refine ⟨rfl, fun _ _ => rfl, ⟨(s.icache ip).din.addrs, rfl⟩, fun _ _ => rfl, ?_⟩
  rw [tableOf_clean hclean, hclean, update_eq_self]
  exact h.rep

/-- The bytes of a file that was there, at a stage of the write. -/
theorem Partway.fileByte_eq
    (h : Partway s ip src 0 off m (InUse s.sb s.dev.disk (dinodeOf s.sb s.dev.disk))
      (stored s.dev.disk (dinodeOf s.sb s.dev.disk)) s W' blk' t)
    (ha : Anchored s.sb s.dev.disk (dinodeOf s.sb s.dev.disk)) {k o : Nat} (hk : Used s.sb (dinodeOf s.sb s.dev.disk) k)
    (ho : o < (dinodeOf s.sb s.dev.disk k).size.toNat) : W' (k, slotOf (o / BSIZE)) ∧ fileByte blk' k o =
      if k = (s.icache ip).inum ∧ off ≤ o ∧ o < off + m then src (o - off)
      else contents s.dev.disk (dinodeOf s.sb s.dev.disk k) o := by
  have hin := ha.inUse hk ho
  refine ⟨h.sub _ hin, ?_⟩
  by_cases hnew : k = (s.icache ip).inum ∧ off ≤ o ∧ o < off + m
  · rw [if_pos hnew, hnew.1, (h.new o hnew.2.1 hnew.2.2).2, Nat.zero_add]
  · rw [if_neg hnew, h.old k o hin fun hki => by
      by_contra hin
      exact hnew ⟨hki, by omega, by omega⟩]
    rfl

/-- Until the inode is written the blocks that are added are not seen. -/
theorem Partway.torn (h : Partway s ip src 0 off m (InUse s.sb s.dev.disk (dinodeOf s.sb s.dev.disk))
      (stored s.dev.disk (dinodeOf s.sb s.dev.disk)) s W' blk' t)
    (ha : Anchored s.sb s.dev.disk (dinodeOf s.sb s.dev.disk))
    (hclean : (s.icache ip).din = dinodeOf s.sb s.dev.disk (s.icache ip).inum) :
    Torn s.sb s.dev.disk t.dev.disk (s.icache ip).inum src off m ∧
      Anchored s.sb t.dev.disk (dinodeOf s.sb t.dev.disk) := by
  have hrep := h.editing.rep
  have htype := h.editing.type
  rw [tableOf_clean hclean] at hrep
  generalize hT : update (dinodeOf s.sb s.dev.disk) (s.icache ip).inum (t.icache ip).din = T at hrep
  -- the inode on the disk holds some of the blocks of the one in memory
  have haddrs (k j : Nat) (_ : j ≤ NDIRECT) (h0 : (dinodeOf s.sb s.dev.disk k).addr j ≠ 0) :
      (T k).addr j = (dinodeOf s.sb s.dev.disk k).addr j := by
    rw [← hT]
    by_cases hk : k = (s.icache ip).inum
    · rw [hk] at h0 ⊢
      rw [update_self, ← hclean]
      rw [← hclean] at h0
      exact h.addrs j h0
    · rw [update_of_ne hk]
  have hused (k : Nat) (hk : Used s.sb (dinodeOf s.sb s.dev.disk) k) : Used s.sb T k := by
    refine ⟨hk.1, ?_⟩
    rw [← hT]
    by_cases hki : k = (s.icache ip).inum
    · rw [hki, update_self, htype, hclean, ← hki]
      exact hk.2
    · rw [update_of_ne hki]
      exact hk.2
  have hseen := hrep.restrict hused haddrs
  have hmap {k bn : Nat} (hk : Used s.sb (dinodeOf s.sb s.dev.disk) k)
      (hbn : bn < nblk (dinodeOf s.sb s.dev.disk k).size.toNat) :
      InUse s.sb t.dev.disk (dinodeOf s.sb s.dev.disk) (k, slotOf bn) := by
    have h0 := ha.mapped k bn hk hbn
    have hslot := slotOf_lt (ha.bn_lt hk hbn)
    have hpos := hrep.pos (h.sub (k, slotOf bn) ⟨hk, hslot, h0⟩)
    refine ⟨hk, hslot, ?_⟩
    rwa [slotVal_of_addrs (haddrs k) h0] at hpos
  refine ⟨⟨h.editing.dinodes, fun k hk o ho => ?_⟩, ?_⟩
  · rw [← (h.fileByte_eq ha hk ho).2]
    exact hseen.data k (o / BSIZE) (hmap hk (div_lt_nblk ho)) _ (Nat.mod_lt _ (by decide))
  · refine (hseen.anchored ha.sizes fun k bn hk hbn => hmap hk hbn).table_congr h.editing.dinodes

/-- The inode is written, with the size the file has grown to. -/
theorem Partway.grown {n : Nat}
    (h : Partway s ip src 0 off n (InUse s.sb s.dev.disk (dinodeOf s.sb s.dev.disk))
      (stored s.dev.disk (dinodeOf s.sb s.dev.disk)) s W' blk' t)
    (ha : Anchored s.sb s.dev.disk (dinodeOf s.sb s.dev.disk)) (hl : Locked s ip)
    (hclean : (s.icache ip).din = dinodeOf s.sb s.dev.disk (s.icache ip).inum)
    (hoff : off ≤ (s.icache ip).din.size.toNat) (hlt : (s.icache ip).din.size.toNat < off + n)
    (hend : off + n ≤ MAXBYTES) {D' : Nat → Block}
    (hD : D' = update t.dev.disk (inodeBlock s.sb (s.icache ip).inum)
      (putDinode (t.dev.disk (inodeBlock s.sb (s.icache ip).inum)) ((s.icache ip).inum % IPB)
        { (t.icache ip).din with size := UInt32.ofNat (off + n) })) :
    Spliced s.sb s.dev.disk D' (s.icache ip).inum src off n ∧ Anchored s.sb D' (dinodeOf s.sb D') := by
  have hused : Used s.sb (dinodeOf s.sb s.dev.disk) (s.icache ip).inum := by
    refine ⟨hl.inum, ?_⟩
    rw [← hclean]
    exact hl.type
  obtain ⟨addrs, hin⟩ := h.editing.inode
  have hdin : (t.icache ip).din = { (s.icache ip).din with addrs } := by rw [hin]
  -- the inodes on the disk
  have hself : dinodeOf s.sb D' (s.icache ip).inum = { (t.icache ip).din with size := UInt32.ofNat (off + n) } := by
    rw [hD, dinodeOf_put, if_pos rfl]
  have hother (k : Nat) (hk : k < s.sb.ninodes) (hki : k ≠ (s.icache ip).inum) :
      dinodeOf s.sb D' k = dinodeOf s.sb s.dev.disk k := by
    rw [hD, dinodeOf_put, if_neg hki, h.editing.dinodes k hk]
  have hsize : (dinodeOf s.sb D' (s.icache ip).inum).size.toNat = off + n := by
    rw [hself]
    show (UInt32.ofNat (off + n)).toNat = off + n
    rw [UInt32.toNat_ofNat', Nat.mod_eq_of_lt]
    unfold MAXBYTES NDIRECT NINDIRECT BSIZE at hend
    omega
  have hmax : max (dinodeOf s.sb s.dev.disk (s.icache ip).inum).size.toNat (off + n) = off + n := by
    rw [← hclean]
    omega
  have hkept (k : Nat) : Used s.sb (dinodeOf s.sb D') k ↔ Used s.sb (dinodeOf s.sb s.dev.disk) k := by
    refine and_congr_right fun hk => ?_
    by_cases hki : k = (s.icache ip).inum
    · rw [hki, hself, hdin, ← hclean]
    · rw [hother k hk hki]
  -- the blocks are those of the inode in memory
  have hrep : Rep s.sb D' (dinodeOf s.sb D') W' blk' := by
    have hput := h.editing.rep.putInode hl.inum { (t.icache ip).din with size := UInt32.ofNat (off + n) }
    rw [← hD, tableOf_clean hclean] at hput
    have hsized : Rep s.sb D' (update (dinodeOf s.sb s.dev.disk) (s.icache ip).inum
        { (t.icache ip).din with size := UInt32.ofNat (off + n) }) W' blk' := by
      refine hput.retype fun k => ?_
      by_cases hki : k = (s.icache ip).inum
      · rw [hki, update_self, update_self]
        exact ⟨rfl, Iff.rfl⟩
      · rw [update_of_ne hki, update_of_ne hki]
        exact ⟨rfl, Iff.rfl⟩
    refine hsized.table_congr fun k hk => ?_
    by_cases hki : k = (s.icache ip).inum
    · rw [hki, hself, update_self]
    · rw [hother k hk hki, update_of_ne hki]
  have hcover {o : Nat} (ho : o < off + n) : W' ((s.icache ip).inum, slotOf (o / BSIZE)) := by
    by_cases hold : o < (s.icache ip).din.size.toNat
    · exact (h.fileByte_eq ha hused (by rwa [← hclean])).1
    · exact (h.new o (by omega) ho).1
  have hbyte {k o : Nat} (hw : W' (k, slotOf (o / BSIZE))) : contents D' (dinodeOf s.sb D' k) o = fileByte blk' k o :=
    hrep.data k _ hw _ (Nat.mod_lt _ (by decide))
  refine ⟨⟨hother, ⟨addrs, ?_⟩, by rw [hsize, hmax], fun o ho => ?_, fun k hk hki o ho => ?_⟩,
    hrep.anchored (fun k hk => ?_) fun k bn hk hbn => ?_⟩
  · rw [hself, hdin, hmax, ← hclean]
  · rw [hmax] at ho
    rw [hbyte (hcover ho)]
    by_cases hrange : off ≤ o ∧ o < off + n
    · rw [if_pos hrange, (h.new o hrange.1 hrange.2).2, Nat.zero_add]
    · rw [if_neg hrange]
      have hin := (h.fileByte_eq ha hused (o := o) (by rw [← hclean]; omega)).2
      rw [hin, if_neg fun hx => hrange hx.2]
  · obtain ⟨hw, hb⟩ := h.fileByte_eq ha hk ho
    rw [if_neg fun hx => hki hx.1] at hb
    rw [← hb, ← hbyte hw, hother k hk.1 hki]
  · by_cases hki : k = (s.icache ip).inum
    · rw [hki, hsize]
      exact hend
    · rw [hother k hk.1 hki]
      exact ha.sizes k ((hkept k).1 hk)
  · by_cases hki : k = (s.icache ip).inum
    · rw [hki] at hbn ⊢
      rw [hsize] at hbn
      have hblock : bn * BSIZE < off + n := by
        unfold nblk at hbn
        unfold BSIZE at *
        omega
      have hdiv : bn * BSIZE / BSIZE = bn := Nat.mul_div_cancel _ (by decide)
      have hw := hcover hblock
      rwa [hdiv] at hw
    · rw [hother k hk.1 hki] at hbn
      have hk' := (hkept k).1 hk
      exact h.sub _ ⟨hk', slotOf_lt (ha.bn_lt hk' hbn), ha.mapped k bn hk' hbn⟩

end Seen

/-! ## `writei` -/

/-- A write is done, and the inode in memory is the one on the disk. -/
structure Saved (s : State) (ip : Fin NINODE) (src : Bytes) (off n : Nat) (t : State) : Prop where
  idle : Idle t.dev []
  sb : t.sb = s.sb
  others : ∀ jp, jp ≠ ip → t.icache jp = s.icache jp
  inode : t.icache ip = { s.icache ip with din := dinodeOf s.sb t.dev.disk (s.icache ip).inum }
  spliced : Spliced s.sb s.dev.disk t.dev.disk (s.icache ip).inum src off n
  anchored : Anchored s.sb t.dev.disk (dinodeOf s.sb t.dev.disk)

section Write
variable {s : State} {ip : Fin NINODE} {C : (Nat → Block) → Prop}

theorem wpc_iupdate (hidle : Idle s.dev []) (hdev : (s.icache ip).dev = ROOTDEV) (hC : C s.dev.disk)
    (hC' : C (update s.dev.disk (inodeBlock s.sb (s.icache ip).inum)
      (putDinode (s.dev.disk (inodeBlock s.sb (s.icache ip).inum)) ((s.icache ip).inum % IPB) (s.icache ip).din)))
    {Q : Unit → State → Prop}
    (hQ : ∀ t, Idle t [] → t.disk = update s.dev.disk (inodeBlock s.sb (s.icache ip).inum)
        (putDinode (s.dev.disk (inodeBlock s.sb (s.icache ip).inum)) ((s.icache ip).inum % IPB) (s.icache ip).din) →
      Q () { s with dev := t }) : (iupdate ip).wpc Q (fun t => C t.platter) s := by
  refine wpc_of_wp (wp_iupdate hidle hdev hQ) ?_
  unfold iupdate
  simp only [wpc_bind, wpc_get, hdev]
  refine ⟨?_, hC⟩
  refine wpc_bread hidle (by decide) hC fun b t ht hdisk => ?_
  rw [← hdisk] at hC hC'
  refine wpc_storeWrite (s := { s with dev := t }) ht hC hC' fun u hu hdisk' => ?_
  rw [show inodeBlock s.sb (s.icache ip).inum = s.sb.inodestart + (s.icache ip).inum / IPB from rfl] at hC'
  rw [← show u.disk = _ from hdisk'] at hC'
  refine wpc_brelse (s := { s with dev := u }) hu hC' fun v hv hdisk'' => trivial

theorem wpc_writei {src : Bytes} {off n : UInt32} (hidle : Idle s.dev []) (hl : Locked s ip)
    (ha : Anchored s.sb s.dev.disk (dinodeOf s.sb s.dev.disk))
    (hclean : (s.icache ip).din = dinodeOf s.sb s.dev.disk (s.icache ip).inum) (hC : C s.dev.disk)
    (hcut : ¬ Refused (s.icache ip).din off n → ∀ D',
      WriteCut s.sb s.dev.disk D' (s.icache ip).inum src off.toNat n.toNat → Anchored s.sb D' (dinodeOf s.sb D') → C D')
    {Q : Int → State → Prop} (hrefused : Refused (s.icache ip).din off n → Q (-1) s)
    (hQ : ¬ Refused (s.icache ip).din off n → ∀ t, Saved s ip src off.toNat n.toNat t → Q n.toNat t) :
    (writei ip src off n).wpc Q (fun t => C t.platter) s := by
  unfold writei
  rw [wpc_bind, wpc_gets]
  refine ⟨?_, hC⟩
  unfold Refused at hcut hrefused hQ
  by_cases hout : off > (s.icache ip).din.size ∨ off + n < off
  · rw [if_pos hout, wpc_pure]
    refine ⟨hrefused (hout.elim (fun ho => .inl (UInt32.lt_iff_toNat_lt.1 ho)) fun hw => .inr (.inl ?_)), hC⟩
    exact u32_add_lt_iff.1 hw
  · rw [if_neg hout]
    rw [not_or] at hout
    obtain ⟨hoff, hwrap⟩ := hout
    have hsum := u32_toNat_add hwrap
    rw [u32_add_lt_iff] at hwrap
    have hmaxv : (UInt32.ofNat ((NDIRECT + NINDIRECT) * BSIZE)).toNat = MAXBYTES := by decide
    by_cases hmax : off + n > UInt32.ofNat ((NDIRECT + NINDIRECT) * BSIZE)
    · rw [if_pos hmax, wpc_pure]
      refine ⟨hrefused (.inr (.inr ?_)), hC⟩
      rw [← hsum, ← hmaxv]
      exact UInt32.lt_iff_toNat_lt.1 hmax
    · rw [if_neg hmax]
      have hle : off.toNat ≤ (s.icache ip).din.size.toNat := UInt32.le_iff_toNat_le.1 (UInt32.not_lt.1 hoff)
      have hend : off.toNat + n.toNat ≤ MAXBYTES := by
        rw [← hsum, ← hmaxv]
        exact UInt32.le_iff_toNat_le.1 (UInt32.not_lt.1 hmax)
      have hcut := hcut (by omega)
      have hQ := hQ (by omega)
      have hsmall : n.toNat < 2 ^ 31 := by
        unfold MAXBYTES NDIRECT NINDIRECT BSIZE at hend
        omega
      rw [wpc_bind]
      refine (ha.editing hclean).wpc_writeiLoop hl src 0 off.toNat n.toNat _ _ s hidle hend
        (fun m W' blk' t hm hat hpart => ?_) fun W' blk' t ht hpart hstill => ?_
      · obtain ⟨htorn, hanch⟩ := hpart.torn ha hclean
        exact hcut _ (.torn m hm hat htorn) hanch
      · obtain ⟨htorn, hanch⟩ := hpart.torn ha hclean
        have hCt : C t.dev.disk := hcut _ (.torn _ (Nat.le_refl _) (.inr (.inl rfl)) htorn) hanch
        rw [wpc_bind, wpc_gets, hpart.editing.size, toInt_of_lt hsmall]
        refine ⟨?_, hCt⟩
        by_cases hnew : n > 0 ∧ off + n > (s.icache ip).din.size
        · -- the size grows, and the inode is written
          rw [if_pos hnew]
          have hlt : (s.icache ip).din.size.toNat < off.toNat + n.toNat := by
            rw [← hsum]
            exact UInt32.lt_iff_toNat_lt.1 hnew.2
          have hsize : UInt32.ofNat (off.toNat + n.toNat) = off + n := by rw [← hsum, UInt32.ofNat_toNat]
          have hself : (t.setDin ip { (t.icache ip).din with size := off + n }).icache ip =
              { t.icache ip with din := { (t.icache ip).din with size := off + n } } := State.setInode_self _ _ _
          generalize hD : update t.dev.disk (inodeBlock s.sb (s.icache ip).inum)
            (putDinode (t.dev.disk (inodeBlock s.sb (s.icache ip).inum)) ((s.icache ip).inum % IPB)
              { (t.icache ip).din with size := off + n }) = D₁
          obtain ⟨hsplice, hanch'⟩ := hpart.grown ha hl hclean hle hlt hend (hD.symm.trans (by rw [hsize]))
          have hCD : C D₁ := hcut D₁ (.whole hsplice) hanch'
          simp only [wpc_bind, wpc_modify, wpc_pure]
          refine ⟨?_, hCt, hCt⟩
          refine wpc_iupdate (s := t.setDin ip { (t.icache ip).din with size := off + n }) ht
            (by rw [hself]; exact hpart.editing.dev.trans hl.dev) hCt ?_ fun u hu hdisk => ?_
          · rw [hself]
            simp only [State.setDin, State.setInode_dev, State.setInode_sb, hpart.editing.inum, hpart.editing.sb, hD]
            exact hCD
          · rw [hself] at hdisk
            simp only [State.setDin, State.setInode_dev, State.setInode_sb, hpart.editing.inum, hpart.editing.sb, hD]
              at hdisk
            subst hdisk
            refine ⟨hQ _ ⟨hu, hpart.editing.sb, fun jp hjp => ?_, ?_, hsplice, hanch'⟩, hCD⟩
            · exact (State.setInode_of_ne hjp _ _).trans (hpart.editing.others jp hjp)
            · have hdin : dinodeOf s.sb u.disk (s.icache ip).inum = { (t.icache ip).din with size := off + n } := by
                rw [← hD, dinodeOf_put, if_pos rfl]
              obtain ⟨addrs, hin⟩ := hpart.editing.inode
              show (State.setInode t ip _).icache ip = _
              rw [State.setInode_self]
              show _ = { s.icache ip with din := dinodeOf s.sb u.disk (s.icache ip).inum }
              rw [hdin, hin]
        · rw [if_neg hnew, wpc_pure]
          have hno : off.toNat + n.toNat ≤ (s.icache ip).din.size.toNat := by
            by_contra hlt
            refine hnew ⟨?_, UInt32.lt_iff_toNat_lt.2 (by rw [hsum]; omega)⟩
            exact UInt32.lt_iff_toNat_lt.2 (show 0 < n.toNat by omega)
          have hused : Used s.sb (dinodeOf s.sb s.dev.disk) (s.icache ip).inum := by
            refine ⟨hl.inum, ?_⟩
            rw [← hclean]
            exact hl.type
          have hsame : t.icache = s.icache :=
            hstill fun o _ ho => ha.inUse hused (by rw [← hclean]; omega)
          have hdin := htorn.dinodes _ hl.inum
          refine ⟨hQ t ⟨ht, hpart.editing.sb, fun jp _ => by rw [hsame], ?_, ?_, hanch⟩, hCt⟩
          · rw [hsame, hdin, ← hclean]
          · exact htorn.spliced hused (by rw [← hclean]; exact hno)

end Write

end RiscvOsLab.Fs
