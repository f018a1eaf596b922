import RiscvOsLab.Fs.CutWrite
import RiscvOsLab.Fs.File

/-!
# Calls that are cut off

`Safe s refs` is `FsInv s refs` over a disk that is `Recoverable` only, as after a power cut.

* `Safe.wpc_iget`, `wpc_ilock`, `wpc_iput`, `wpc_dirlookup`, `wpc_namex` : none of them writes; each keeps `Safe` and
  finds what `lookup` and `walk` say;
* `Safe.wpc_writei`, `wpc_ialloc`, `wpc_dirlink` : each keeps `Safe`, and the disk is recoverable at every write.
-/

namespace RiscvOsLab.Fs

open Prog Bytes Function

/-! ## Code that does not write -/

theorem steady_ilock (ip : Fin NINODE) : (ilock ip).Steady State.platter := by
  unfold ilock
  refine steady_bind steady_get fun s => steady_ite _ (steady_panic _) (steady_ite _ (steady_pure _) ?_)
  refine steady_bind (steady_lift (steady_bread _ _)) fun _ => steady_bind (steady_lift (steady_load _)) fun _ => ?_
  refine steady_bind (steady_modify fun _ => rfl) fun _ => steady_bind (steady_lift (steady_brelse _)) fun _ => ?_
  refine steady_bind (steady_modify fun _ => rfl) fun _ => steady_bind (steady_gets _) fun _ => ?_
  exact steady_ite _ (steady_panic _) (steady_pure _)

theorem steady_iput (ip : Fin NINODE) : (iput ip).Steady State.platter := steady_modify fun _ => rfl

theorem steady_iunlock (ip : Fin NINODE) : (iunlock ip).Steady State.platter :=
  steady_bind (steady_gets _) fun _ => steady_ite _ (steady_panic _) (steady_pure _)

/-! ## What a recoverable disk names -/

namespace Recoverable

variable {sb : Superblock} {D : Nat → Block}

/-- What a directory names is in use. -/
theorem used_of_lookup (h : Recoverable sb D) {dir i : Nat} (hu : Used sb (dinodeOf sb D) dir)
    (ht : (dinodeOf sb D dir).type = T_DIR) {name : Bytes} (hl : lookup D (dinodeOf sb D dir) name = some i) :
    Used sb (dinodeOf sb D) i := by
  have hdir := h.dirs dir hu ht
  have hfrom (off : Nat) (hoff : DIRENT ∣ off) (hl : lookupFrom D (dinodeOf sb D dir) name off = some i) :
      Used sb (dinodeOf sb D) i := by
    induction hk : (dinodeOf sb D dir).size.toNat - off using Nat.strong_induction_on generalizing off with
    | _ k ih =>
      rw [lookupFrom] at hl
      split at hl
      · rename_i hlt
        have hless : (dinodeOf sb D dir).size.toNat - (off + DIRENT) < k := by
          unfold DIRENT at *
          omega
        have hnext := ih _ hless (off + DIRENT) (Nat.dvd_add hoff (Nat.dvd_refl _))
        split at hl
        · exact hnext hl rfl
        · rename_i hne
          split at hl
          · rw [← Option.some.inj hl]
            exact hdir.entries off hoff hlt hne
          · exact hnext hl rfl
      · exact absurd hl (by simp)
  exact hfrom 0 (Nat.dvd_zero _) hl

end Recoverable

/-! ## The invariant -/

structure Safe (s : State) (refs : Fin NINODE → Nat) : Prop where
  idle : Idle s.dev []
  counts : Refs s refs
  disk : Recoverable s.sb s.dev.disk
  live : ∀ ip, 0 < refs ip → (s.icache ip).dev = ROOTDEV ∧ Used s.sb (dinodeOf s.sb s.dev.disk) (s.icache ip).inum
  clean : ∀ ip, (s.icache ip).valid = true → (s.icache ip).din = dinodeOf s.sb s.dev.disk (s.icache ip).inum

theorem FsInv.safe {s : State} {refs : Fin NINODE → Nat} (h : FsInv s refs) : Safe s refs :=
  ⟨h.idle, h.counts, h.disk.recoverable, h.live, h.clean⟩

/-- One slot is changed. -/
theorem still_setInode {s : State} {refs : Fin NINODE → Nat} {ip : Fin NINODE} {v : Inode}
    (hv : 0 < refs ip → v.inum = (s.icache ip).inum ∧ ((s.icache ip).valid = true → v.valid = true)) :
    Still refs s (s.setInode ip v) := by
  refine ⟨rfl, rfl, fun jp hjp => ?_, fun jp hjp hvalid => ?_⟩
  · by_cases he : jp = ip
    · rw [he, State.setInode_self]
      exact (hv (he ▸ hjp)).1
    · rw [State.setInode_of_ne he]
  · by_cases he : jp = ip
    · rw [he] at hjp hvalid ⊢
      rw [State.setInode_self]
      exact (hv hjp).2 hvalid
    · rwa [State.setInode_of_ne he]

/-- A live slot is filled from the disk. -/
theorem Refs.filled {s : State} {refs : Fin NINODE → Nat} {ip : Fin NINODE} (h : Refs s refs) (hip : refs ip ≠ 0)
    (din : Dinode) : Refs (s.setInode ip { s.icache ip with valid := true, din }) refs := by
  have hvalid := (h.same (sameSlots_setDin s ip din)).validated hip
  unfold State.setDin at hvalid
  rw [State.setInode_self] at hvalid
  unfold State.setInode at hvalid ⊢
  rwa [update_idem] at hvalid

namespace Safe

variable {s t : State} {refs : Fin NINODE → Nat} {ip : Fin NINODE} {C : (Nat → Block) → Prop}

/-- The slots and the disk are the same. -/
theorem of_dev (h : Safe s refs) {d : Dev} (hd : Idle d []) (hdisk : d.disk = s.dev.disk) :
    Safe { s with dev := d } refs := by
  refine ⟨hd, h.counts.same fun _ => ⟨rfl, rfl, rfl, rfl⟩, ?_, fun jp hjp => ?_, fun jp hjp => ?_⟩ <;> simp only [hdisk]
  · exact h.disk
  · exact h.live jp hjp
  · exact h.clean jp hjp

theorem pos_of_valid (h : Safe s refs) (hv : (s.icache ip).valid = true) : 0 < refs ip := by
  by_contra h0
  have hfree := h.counts.free ip (by omega)
  rw [hv] at hfree
  exact Bool.noConfusion hfree

theorem setInode (h : Safe s refs) {v : Inode} {refs' : Fin NINODE → Nat} (hcounts : Refs (s.setInode ip v) refs')
    (hrefs : ∀ jp, jp ≠ ip → 0 < refs' jp → 0 < refs jp)
    (hlive : 0 < refs' ip → v.dev = ROOTDEV ∧ Used s.sb (dinodeOf s.sb s.dev.disk) v.inum)
    (hclean : v.valid = true → v.din = dinodeOf s.sb s.dev.disk v.inum) : Safe (s.setInode ip v) refs' := by
  refine ⟨h.idle, hcounts, h.disk, fun jp hjp => ?_, fun jp hvalid => ?_⟩
  · by_cases he : jp = ip
    · rw [he] at hjp ⊢
      rw [State.setInode_self]
      exact hlive hjp
    · rw [State.setInode_of_ne he]
      exact h.live jp (hrefs jp he hjp)
  · by_cases he : jp = ip
    · rw [he] at hvalid ⊢
      rw [State.setInode_self] at hvalid ⊢
      exact hclean hvalid
    · rw [State.setInode_of_ne he] at hvalid ⊢
      exact h.clean jp hvalid

theorem hold_of_ne {jp : Fin NINODE} (hne : jp ≠ ip) : hold refs ip jp = refs jp := update_of_ne hne _ _

theorem wpc_iget (h : Safe s refs) {inum : Nat} (hused : Used s.sb (dinodeOf s.sb s.dev.disk) inum) (hC : C s.dev.disk)
    {Q : Fin NINODE → State → Prop}
    (hQ : ∀ ip t, Safe t (hold refs ip) → Still refs s t → (t.icache ip).inum = inum → Q ip t) :
    (iget ROOTDEV inum).wpc Q (fun t => C t.platter) s := by
  refine (steady_iget _ _).wpc ?_ hC
  refine Fs.wp_iget h.counts (fun ip hip hdev hinum => ?_) (fun hmiss ip hip => ?_) (.inl trivial)
  · refine hQ ip _ (h.setInode (h.counts.found hip) (fun jp he hjp => by rwa [hold_of_ne he] at hjp)
      (fun _ => h.live ip hip) fun hv => h.clean ip hv) (still_setInode fun _ => ⟨rfl, id⟩) ?_
    rw [State.setInode_self]
    exact hinum
  · refine hQ ip _ (h.setInode (h.counts.taken hip hmiss) (fun jp he hjp => by rwa [hold_of_ne he] at hjp)
      (fun _ => ⟨rfl, hused⟩) fun hv => Bool.noConfusion hv) (still_setInode fun hpos => by omega) ?_
    rw [State.setInode_self]

theorem wpc_ilock (h : Safe s refs) (hip : 0 < refs ip) (hC : C s.dev.disk) {Q : Unit → State → Prop}
    (hQ : ∀ t, Safe t refs → Still refs s t → (t.icache ip).valid = true → Q () t) :
    (ilock ip).wpc Q (fun t => C t.platter) s := by
  refine (steady_ilock ip).wpc ?_ hC
  obtain ⟨hdev, hused⟩ := h.live ip hip
  have href : 0 < (s.icache ip).ref := by
    rw [h.counts.ref ip]
    exact Int.natCast_pos.2 hip
  by_cases hv : (s.icache ip).valid = true
  · unfold ilock
    simp only [wp_bind, wp_get]
    rw [if_neg (by omega), if_pos hv]
    exact hQ s h (Still.refl s) hv
  · refine wp_ilock_read h.idle hdev href (Bool.not_eq_true _ ▸ hv) (fun d hd hdisk _ => ?_) fun _ => trivial
    have hd' := h.of_dev hd hdisk
    refine hQ _ (hd'.setInode (hd'.counts.filled hip.ne' _) (fun _ _ hjp => hjp) (fun _ => hd'.live ip hip) fun _ => ?_)
      ((FsInv.still_of_dev hdisk).trans (still_setInode fun _ => ⟨rfl, fun _ => rfl⟩)) ?_
    · simp only [hdisk]
    · rw [State.setInode_self]

theorem wpc_iput (h : Safe s (hold refs ip)) (hC : C s.dev.disk) {Q : Unit → State → Prop}
    (hQ : ∀ t, Safe t refs → Still refs s t → Q () t) : (iput ip).wpc Q (fun t => C t.platter) s := by
  refine (steady_iput ip).wpc ?_ hC
  refine hQ (iputState s ip) (h.setInode h.counts.put (fun jp _ hjp => hjp.trans_le (le_hold refs ip jp))
    (fun _ => h.live ip (hold_pos refs ip)) fun hv => ?_) (still_setInode fun hpos => ⟨rfl, fun hv => ?_⟩)
  · simp only at hv
    split at hv
    · exact Bool.noConfusion hv
    · split at hv
      · exact Bool.noConfusion hv
      · exact h.clean ip hv
  · -- another reference is left, so the slot is not released
    have href : (s.icache ip).ref = refs ip + 1 := by
      rw [h.counts.ref ip]
      unfold hold
      rw [update_self, Nat.cast_succ]
    simp only
    rw [if_neg (by omega), if_neg (by omega)]
    exact hv

theorem wpc_iunlock (h : Safe s refs) (hip : 0 < refs ip) (hC : C s.dev.disk) {Q : Unit → State → Prop} (hQ : Q () s) :
    (iunlock ip).wpc Q (fun t => C t.platter) s := by
  have href : ¬ (s.icache ip).ref < 1 := by
    rw [h.counts.ref ip]
    omega
  unfold iunlock
  rw [wpc_bind, wpc_gets, if_neg href, wpc_pure]
  exact ⟨⟨hQ, hC⟩, hC⟩

theorem wp_iput (h : Safe s (hold refs ip)) {Q : Unit → State → Prop}
    (hQ : ∀ t, Safe t refs → Still refs s t → Q () t) : (iput ip).wp Q (fun _ => True) s :=
  (h.wpc_iput (C := fun _ => True) trivial hQ).1

theorem wp_iunlock (h : Safe s refs) (hip : 0 < refs ip) {Q : Unit → State → Prop} (hQ : Q () s) :
    (iunlock ip).wp Q (fun _ => True) s := (h.wpc_iunlock (C := fun _ => True) hip trivial hQ).1

/-- A cached inode is mapped as far as its size. -/
theorem mappedTo (h : Safe s refs) (hv : (s.icache ip).valid = true) :
    MappedTo s.dev.disk (s.icache ip).din (s.icache ip).din.size.toNat := by
  rw [h.clean ip hv]
  exact h.disk.anchored.mappedTo (h.live ip (h.pos_of_valid hv)).2

theorem wpc_readi (h : Safe s refs) (hv : (s.icache ip).valid = true) {off n : UInt32} (hC : C s.dev.disk)
    {Q : Int × List UInt8 → State → Prop}
    (hQ : ∀ t, Safe t refs → Still refs s t →
      Q (readAt s.dev.disk (dinodeOf s.sb s.dev.disk (s.icache ip).inum) off n) t) :
    (readi ip off n).wpc Q (fun t => C t.platter) s := by
  refine Fs.wpc_readi h.idle (h.live ip (h.pos_of_valid hv)).1 (h.mappedTo hv) hC fun t ht hdisk => ?_
  rw [h.clean ip hv]
  exact hQ _ (h.of_dev ht hdisk) (FsInv.still_of_dev hdisk)

/-- The directory of a cached inode. -/
theorem dirOk (h : Safe s refs) (hv : (s.icache ip).valid = true) (ht : (s.icache ip).din.type = T_DIR) :
    DirOk s.sb s.dev.disk (s.icache ip).inum := by
  rw [h.clean ip hv] at ht
  exact h.disk.dirs _ (h.live ip (h.pos_of_valid hv)).2 ht

theorem wpc_dirlookup (name : Bytes) (h : Safe s refs) (hv : (s.icache ip).valid = true)
    (ht : (s.icache ip).din.type = T_DIR) (hC : C s.dev.disk) {Q : Option (Fin NINODE) → State → Prop}
    (hnone : lookup s.dev.disk (dinodeOf s.sb s.dev.disk (s.icache ip).inum) name = none →
      ∀ t, Safe t refs → Still refs s t → Q none t)
    (hsome : ∀ inum, lookup s.dev.disk (dinodeOf s.sb s.dev.disk (s.icache ip).inum) name = some inum →
      ∀ jp t, Safe t (hold refs jp) → Still refs s t → (t.icache jp).inum = inum → Q (some jp) t) :
    (dirlookup ip name).wpc Q (fun t => C t.platter) s := by
  obtain ⟨hdev, hused⟩ := h.live ip (h.pos_of_valid hv)
  have hclean := h.clean ip hv
  rw [← hclean] at hnone hsome
  refine Fs.wpc_dirlookup h.idle hdev ?_ (h.mappedTo hv) name hC (fun hl d hd hdisk => ?_) fun inum hl d hd hdisk => ?_
  · rw [hclean]
    exact (h.dirOk hv ht).size
  · exact hnone hl _ (h.of_dev hd hdisk) (FsInv.still_of_dev hdisk)
  · have hnamed : Used s.sb (dinodeOf s.sb s.dev.disk) inum := by
      rw [hclean] at hl ht
      exact h.disk.used_of_lookup hused ht hl
    refine ((h.of_dev hd hdisk).wpc_iget (C := fun _ => True) (by rw [hdisk]; exact hnamed) trivial
      fun jp t ht' hst hi => ?_).1
    exact hsome inum hl jp t ht' ((FsInv.still_of_dev hdisk).trans hst) hi

theorem wpc_namexFrom (parent : Bool) (base : Fin NINODE → Nat) (path : List UInt8) (ip : Fin NINODE) (name : Bytes)
    (s : State) (h : Safe s (hold base ip)) (hC : C s.dev.disk) {Q : Option (Fin NINODE) × Bytes → State → Prop}
    (hnone : ∀ name', walkFrom s.sb s.dev.disk parent (s.icache ip).inum path name = (none, name') →
      ∀ t, Safe t base → Still base s t → Q (none, name') t)
    (hsome : ∀ inum name', walkFrom s.sb s.dev.disk parent (s.icache ip).inum path name = (some inum, name') →
      ∀ jp t, Safe t (hold base jp) → Still base s t → (t.icache jp).inum = inum → Q (some jp, name') t) :
    (namexFrom parent ip path name).wpc Q (fun t => C t.platter) s := by
  induction hk : path.length using Nat.strong_induction_on generalizing path ip name s with
  | _ k ih =>
    unfold namexFrom
    split
    · rename_i path' name' hskip
      rw [walkFrom_cons hskip] at hnone hsome
      rw [wpc_bind]
      refine h.wpc_ilock (hold_pos base ip) hC fun t ht hst hv => ?_
      have hinum := hst.inum ip (hold_pos base ip)
      have hdin : (t.icache ip).din = dinodeOf s.sb s.dev.disk (s.icache ip).inum := by
        rw [ht.clean ip hv, hst.sb, hst.disk, hinum]
      have hCt : C t.dev.disk := by rwa [hst.disk]
      rw [wpc_bind, wpc_gets, hdin]
      refine ⟨?_, hCt⟩
      by_cases htype : (dinodeOf s.sb s.dev.disk (s.icache ip).inum).type ≠ T_DIR
      · rw [if_pos htype] at hnone ⊢
        simp only [wpc_bind, wpc_pure]
        refine ht.wpc_iunlock (hold_pos base ip) hCt (wpc_last (ht.wpc_iput hCt fun u hu hsu => ?_))
        exact hnone _ rfl u hu (hst.of_hold.trans hsu)
      · rw [if_neg htype] at hnone hsome ⊢
        by_cases hlast : parent = true ∧ path' = []
        · rw [if_pos hlast] at hsome ⊢
          simp only [wpc_bind, wpc_pure]
          exact ht.wpc_iunlock (hold_pos base ip) hCt ⟨hsome _ _ rfl ip t ht hst.of_hold hinum, hCt⟩
        · rw [if_neg hlast] at hnone hsome ⊢
          rw [wpc_bind]
          have hdir : (t.icache ip).din.type = T_DIR := by
            rw [hdin]
            exact not_not.1 htype
          refine ht.wpc_dirlookup name' hv hdir hCt (fun hl u hu hsu => ?_) fun inum hl jp u hu hsu hj => ?_ <;>
            rw [hst.sb, hst.disk, hinum] at hl <;> rw [hl] at hnone hsome <;> rw [← hsu.disk] at hCt
          · simp only [wpc_bind, wpc_pure]
            refine hu.wpc_iunlock (hold_pos base ip) hCt (wpc_last (hu.wpc_iput hCt fun v hv' hsv => ?_))
            exact hnone _ rfl v hv' ((hst.of_hold.trans hsu.of_hold).trans hsv)
          · simp only [wpc_bind]
            refine hu.wpc_iunlock ((hold_pos base ip).trans_le (le_hold _ _ _)) hCt ?_
            rw [hold_comm] at hu
            refine hu.wpc_iput hCt fun v hv' hsv => ?_
            have hall : Still base s v := (hst.of_hold.trans hsu.of_hold).trans hsv.of_hold
            have hjv : (v.icache jp).inum = inum := (hsv.inum jp (hold_pos base jp)).trans hj
            refine ih _ ?_ path' jp name' v hv' (by rwa [hsv.disk]) (fun n hw w hw' hsw => ?_)
              (fun m n hw lp w hw' hsw hl' => ?_) rfl
            · rw [← hk]
              exact skipelem_length hskip
            · rw [hall.sb, hall.disk, hjv] at hw
              exact hnone n hw w hw' (hall.trans hsw)
            · rw [hall.sb, hall.disk, hjv] at hw
              exact hsome m n hw lp w hw' (hall.trans hsw) hl'
    · rename_i hskip
      rw [walkFrom_nil hskip] at hnone hsome
      by_cases hparent : parent = true
      · rw [if_pos hparent] at hnone ⊢
        simp only [wpc_bind, wpc_pure]
        exact wpc_last (h.wpc_iput hC fun t ht hst => hnone _ rfl t ht hst)
      · rw [if_neg hparent] at hsome ⊢
        rw [wpc_pure]
        exact ⟨hsome _ _ rfl ip s h (Still.refl s) rfl, hC⟩

theorem wpc_namex (h : Safe s refs) (parent : Bool) (path : List UInt8) (name : Bytes) (hC : C s.dev.disk)
    {Q : Option (Fin NINODE) × Bytes → State → Prop}
    (hnone : ∀ name', walk s.sb s.dev.disk parent path name = (none, name') →
      ∀ t, Safe t refs → Still refs s t → Q (none, name') t)
    (hsome : ∀ inum name', walk s.sb s.dev.disk parent path name = (some inum, name') →
      ∀ jp t, Safe t (hold refs jp) → Still refs s t → (t.icache jp).inum = inum → Q (some jp, name') t) :
    (namex path parent name).wpc Q (fun t => C t.platter) s := by
  unfold namex
  rw [wpc_bind]
  refine h.wpc_iget h.disk.root hC fun ip t ht hst hinum => ?_
  have hwalk : walkFrom t.sb t.dev.disk parent (t.icache ip).inum path name = walk s.sb s.dev.disk parent path name := by
    rw [hst.sb, hst.disk, hinum]
    rfl
  refine ht.wpc_namexFrom parent refs path ip name t (by rwa [hst.disk]) (fun n hw u hu hsu => ?_)
    fun m n hw jp u hu hsu hj => ?_
  · exact hnone n (hwalk ▸ hw) u hu (hst.trans hsu)
  · exact hsome m n (hwalk ▸ hw) jp u hu (hst.trans hsu) hj

/-! ## Writing -/

theorem locked (h : Safe s refs) (hv : (s.icache ip).valid = true) : Locked s ip := by
  obtain ⟨hdev, hused⟩ := h.live ip (h.pos_of_valid hv)
  refine ⟨hdev, hused.1, ?_⟩
  rw [h.clean ip hv]
  exact hused.2

theorem wpc_writei (h : Safe s refs) (hv : (s.icache ip).valid = true) {src : Bytes} {off n : UInt32}
    (hdir : (s.icache ip).din.type = T_DIR → ∀ D',
      WriteCut s.sb s.dev.disk D' (s.icache ip).inum src off.toNat n.toNat → DirOk s.sb D' (s.icache ip).inum)
    (hC : C s.dev.disk)
    (hcut : ¬ Refused (dinodeOf s.sb s.dev.disk (s.icache ip).inum) off n → ∀ D',
      WriteCut s.sb s.dev.disk D' (s.icache ip).inum src off.toNat n.toNat → Recoverable s.sb D' → C D')
    {Q : Int → State → Prop}
    (hrefused : Refused (dinodeOf s.sb s.dev.disk (s.icache ip).inum) off n → Q (-1) s)
    (hQ : ¬ Refused (dinodeOf s.sb s.dev.disk (s.icache ip).inum) off n → ∀ t, Safe t refs → Slots refs s t →
      Spliced s.sb s.dev.disk t.dev.disk (s.icache ip).inum src off.toNat n.toNat → Q n.toNat t) :
    (writei ip src off n).wpc Q (fun t => C t.platter) s := by
  have hclean := h.clean ip hv
  have hpos := h.pos_of_valid hv
  rw [← hclean] at hcut hrefused hQ
  have hrec {D' : Nat → Block} (hw : WriteCut s.sb s.dev.disk D' (s.icache ip).inum src off.toNat n.toNat)
      (ha : Anchored s.sb D' (dinodeOf s.sb D')) : Recoverable s.sb D' :=
    hw.recoverable h.disk ha fun ht => hdir (by rw [hclean]; exact ht) D' hw
  refine Fs.wpc_writei h.idle (h.locked hv) h.disk.anchored hclean hC
    (fun hr D' hw ha => hcut hr D' hw (hrec hw ha)) hrefused fun hr t ht => ?_
  have hsb := ht.sb
  have hslots : SameSlots s t := by
    intro jp
    by_cases hjp : jp = ip
    · rw [hjp, ht.inode]
      exact ⟨rfl, rfl, rfl, rfl⟩
    · rw [ht.others jp hjp]
      exact ⟨rfl, rfl, rfl, rfl⟩
  refine hQ hr t ⟨ht.idle, h.counts.same hslots, ?_, fun jp hjp => ?_, fun jp hjv => ?_⟩ (hslots.slots hsb) ht.spliced
  · rw [hsb]
    exact hrec (.whole ht.spliced) ht.anchored
  · obtain ⟨hdev, hused⟩ := h.live jp hjp
    rw [(hslots jp).1, (hslots jp).2.1, hsb]
    exact ⟨hdev, (ht.spliced.used _).2 hused⟩
  · rw [hsb]
    by_cases hjp : jp = ip
    · rw [hjp, ht.inode]
    · -- another slot is another inode
      rw [(hslots jp).2.2.2] at hjv
      have hpos' := h.pos_of_valid hjv
      have hne : (s.icache jp).inum ≠ (s.icache ip).inum := fun he =>
        hjp (h.counts.uniq jp ip hpos' hpos ((h.live jp hpos').1.trans (h.live ip hpos).1.symm) he)
      rw [ht.others jp hjp, h.clean jp hjv, ht.spliced.others _ (h.live jp hpos').2.1 hne]

/-- The disk has one inode more. -/
theorem allotted (h : Safe s refs) {i : Nat} {type : UInt16} (ht : type ≠ 0) {d : Dev} (hd : Idle d [])
    (hok : Recoverable s.sb d.disk) (ha : Allotted s.sb s.dev.disk d.disk i type) : Safe { s with dev := d } refs := by
  refine ⟨hd, h.counts.same fun _ => ⟨rfl, rfl, rfl, rfl⟩, hok, fun jp hjp => ?_, fun jp hjv => ?_⟩
  · obtain ⟨hdev, hused⟩ := h.live jp hjp
    exact ⟨hdev, (ha.used ht _).2 (.inl hused)⟩
  · have hused := (h.live jp (h.pos_of_valid hjv)).2
    show (s.icache jp).din = dinodeOf s.sb d.disk (s.icache jp).inum
    rw [ha.others _ fun he => ha.free (he ▸ hused), h.clean jp hjv]

theorem wpc_iallocFrom {type : UInt16} (ht : type ≠ 0) (inum : Nat) (s : State) (h : Safe s refs) (hpos : 1 ≤ inum)
    (hC : C s.dev.disk) (hcut : ∀ i D', Allotted s.sb s.dev.disk D' i type → Recoverable s.sb D' → C D')
    {Q : Fin NINODE → State → Prop}
    (hQ : ∀ jp t, Safe t (hold refs jp) → Slots refs s t →
      Allotted s.sb s.dev.disk t.dev.disk (t.icache jp).inum type → Q jp t) :
    (iallocFrom ROOTDEV type s.sb inum).wpc Q (fun t => C t.platter) s := by
  induction hk : s.sb.ninodes - inum using Nat.strong_induction_on generalizing inum s with
  | _ k ih =>
    unfold iallocFrom
    by_cases hlt : inum < s.sb.ninodes
    · rw [if_pos hlt]
      simp only [wpc_bind]
      refine wpc_bread h.idle (by decide) hC fun b d hd hdisk => ?_
      have hCd := hC
      rw [← hdisk] at hCd
      refine wpc_load (s := { s with dev := d }) hd hCd ?_
      simp only [hdisk]
      by_cases hfree : (dinodeAt (s.dev.disk (s.sb.inodestart + inum / IPB)) (inum % IPB)).type = 0
      · rw [if_pos hfree]
        simp only [wpc_bind]
        obtain ⟨hok, ha⟩ := h.disk.allot hlt hpos hfree ht
        rw [show inodeBlock s.sb inum = s.sb.inodestart + inum / IPB from rfl, ← hdisk] at hok ha
        have hC' := hcut inum _ (by rwa [← hdisk]) hok
        refine wpc_storeWrite (s := { s with dev := d }) hd hCd hC' fun u hu hdisk' => ?_
        rw [← show u.disk = _ from hdisk'] at hok ha hC'
        refine wpc_brelse (s := { s with dev := u }) hu hC' fun v hv hdisk'' => ?_
        rw [← show v.disk = u.disk from hdisk''] at hok ha hC'
        rw [hdisk] at ha
        refine (h.allotted ht hv hok ha).wpc_iget ((ha.used ht inum).2 (.inr rfl)) hC' fun jp t ht' hst hi => ?_
        refine hQ jp t ht' ⟨hst.sb, hst.inum, hst.valid⟩ ?_
        rw [hi, hst.disk]
        exact ha
      · rw [if_neg hfree]
        simp only [wpc_bind]
        refine wpc_brelse (s := { s with dev := d }) hd hCd fun u hu hdisk' => ?_
        have hsame : u.disk = s.dev.disk := Eq.trans hdisk' hdisk
        have hless : s.sb.ninodes - (inum + 1) < k := by omega
        refine ih _ hless (inum + 1) { s with dev := u } (h.of_dev hu hsame) (by omega) ?_ (fun i D' ha => ?_)
          (fun jp t hs hslots ha => ?_) rfl
        · show C u.disk
          rwa [hsame]
        · exact hcut i D' (by rwa [← hsame])
        · refine hQ jp t hs ⟨hslots.sb, hslots.inum, hslots.valid⟩ ?_
          rwa [show ({ s with dev := u } : State).dev.disk = s.dev.disk from hsame] at ha
    · rw [if_neg hlt, wpc_panic]
      exact hC

theorem wpc_ialloc (h : Safe s refs) {type : UInt16} (ht : type ≠ 0) (hC : C s.dev.disk)
    (hcut : ∀ i D', Allotted s.sb s.dev.disk D' i type → Recoverable s.sb D' → C D') {Q : Fin NINODE → State → Prop}
    (hQ : ∀ jp t, Safe t (hold refs jp) → Slots refs s t →
      Allotted s.sb s.dev.disk t.dev.disk (t.icache jp).inum type → Q jp t) :
    (ialloc ROOTDEV type).wpc Q (fun t => C t.platter) s := by
  unfold ialloc
  rw [wpc_bind, wpc_gets]
  exact ⟨wpc_iallocFrom ht 1 s h (Nat.le_refl 1) hC hcut hQ, hC⟩

/-- A name that is there is refused; else an entry is written into the first vacant place, in one piece. -/
theorem wpc_dirlink (h : Safe s refs) (hv : (s.icache ip).valid = true) (ht : (s.icache ip).din.type = T_DIR)
    (name : Bytes) {inum : Nat} (hused : Used s.sb (dinodeOf s.sb s.dev.disk) inum)
    (hnone : lookup s.dev.disk (dinodeOf s.sb s.dev.disk (s.icache ip).inum) name = none) (hC : C s.dev.disk)
    (hcut : ∀ off D', Vacant s.dev.disk (dinodeOf s.sb s.dev.disk (s.icache ip).inum) off →
      WriteCut s.sb s.dev.disk D' (s.icache ip).inum (mkDirent (UInt16.ofNat inum) name) off DIRENT →
      Recoverable s.sb D' → C D') {Q : Int → State → Prop}
    (hQ : ∀ t off, Vacant s.dev.disk (dinodeOf s.sb s.dev.disk (s.icache ip).inum) off → Safe t refs → Slots refs s t →
      Spliced s.sb s.dev.disk t.dev.disk (s.icache ip).inum (mkDirent (UInt16.ofNat inum) name) off DIRENT → Q 0 t) :
    (dirlink ip name inum).wpc Q (fun t => C t.platter) s := by
  obtain ⟨hdev, hdir⟩ := h.live ip (h.pos_of_valid hv)
  have hclean := h.clean ip hv
  have hlen : (UInt32.ofNat DIRENT).toNat = DIRENT := by decide
  unfold dirlink
  rw [wpc_bind]
  refine h.wpc_dirlookup name hv ht hC (fun _ t ht' hst => ?_) fun j hl => absurd hl (by rw [hnone]; simp)
  have hpos := h.pos_of_valid hv
  have hvt := hst.valid ip hpos hv
  have hinum := hst.inum ip hpos
  have hdin : (t.icache ip).din = (s.icache ip).din := by
    rw [ht'.clean ip hvt, hst.sb, hst.disk, hinum, hclean]
  have hdirt : (t.icache ip).din.type = T_DIR := by rw [hdin, ht]
  rw [← hst.disk, ← hinum, ← hst.sb] at hcut hQ
  rw [← hst.disk] at hC
  simp only [wpc_bind, wpc_gets]
  refine ⟨?_, hC⟩
  have hmap := ht'.mappedTo hvt
  have hsize : DIRENT ∣ (t.icache ip).din.size.toNat := by
    have hd := (ht'.dirOk hvt hdirt).size
    rwa [← ht'.clean ip hvt] at hd
  refine wpc_of_wp (wp_freeEntryFrom (ht'.live ip hpos).1 hsize hmap 0 (Nat.dvd_zero _) (Nat.zero_le _)
    (fun o ho => absurd ho (Nat.not_lt_zero o)) t.dev ht'.idle rfl fun off hvac d hd hdisk => ?_)
    (wpc_freeEntryFrom (ht'.live ip hpos).1 hmap hC 0 t.dev ht'.idle rfl)
  have hoff := hvac.toNat_off
  rw [ht'.clean ip hvt] at hvac
  rw [← hdisk] at hC
  refine (ht'.of_dev hd hdisk).wpc_writei hvt (fun _ D' hD' => ?_) hC (fun _ D' hD' hrec => ?_) (fun _ => ?_)
    fun _ u hu hslots hsplice => ?_
  · rw [hdisk, hoff, hlen] at hD'
    refine hD'.dirOk_entry (ht'.live ip hpos).2 (ht'.dirOk hvt hdirt) hvac.aligned hvac.le ?_ ht'.disk.anchored.geo.few
    rw [hst.sb, hst.disk]
    exact hused
  · rw [hdisk, hoff, hlen] at hD'
    exact hcut off D' hvac hD' hrec
  · rw [if_pos (by decide), wpc_panic]
    exact hC
  · rw [hdisk, hoff, hlen] at hsplice
    have hCu : C u.dev.disk := hcut off _ hvac (.whole hsplice) (hslots.sb ▸ hu.disk)
    rw [hlen, if_neg (by simp), wpc_pure]
    exact ⟨hQ u off hvac hu (hst.slots.trans ((FsInv.still_of_dev hdisk).slots.trans hslots)) hsplice, hCu⟩

end Safe

/-! ## The file table -/

def Files.platter (s : Files) : Nat → Block := s.fs.platter

@[simp] theorem Files.platter_mk (t : State) (ft : Fin NFILE → File) : (Files.mk t ft).platter = t.platter := rfl

@[simp] theorem Files.platter_setFile (s : Files) (f : Fin NFILE) (v : File) : (s.setFile f v).platter = s.platter := rfl

section Lift
variable {α : Type}

@[simp] theorem wpc_liftFs {Q : α → Files → Prop} {I : Files → Prop} {s : Files} (p : Prog State α) :
    (liftFs p).wpc Q I s ↔ p.wpc (fun a t => Q a { s with fs := t }) (fun t => I { s with fs := t }) s.fs :=
  wpc_zoom Files.fs (fun t s => { s with fs := t }) (fun _ _ => rfl) (fun _ _ _ => rfl) (fun _ => rfl) p

theorem steady_liftFs {p : Prog State α} (h : p.Steady State.platter) : (liftFs p).Steady Files.platter :=
  steady_zoom Files.fs (fun t s => { s with fs := t }) (fun _ _ => rfl) (fun _ _ _ => rfl) (fun _ => rfl) h

end Lift

theorem steady_filealloc : filealloc.Steady Files.platter := by
  unfold filealloc
  refine steady_bind steady_get fun s => ?_
  split
  · exact steady_bind (steady_modify fun _ => rfl) fun _ => steady_pure _
  · exact steady_pure _

theorem steady_fileclose (f : Fin NFILE) : (fileclose f).Steady Files.platter := by
  unfold fileclose
  refine steady_bind (steady_gets _) fun file => steady_ite _ (steady_panic _) ?_
  refine steady_bind (steady_modify fun _ => rfl) fun _ => steady_ite _ (steady_pure _) ?_
  refine steady_bind (steady_modify fun _ => rfl) fun _ => ?_
  split
  · exact steady_liftFs (steady_iput _)
  · exact steady_pure _

end RiscvOsLab.Fs
