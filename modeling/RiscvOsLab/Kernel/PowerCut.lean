import RiscvOsLab.Fs.CutTree
import RiscvOsLab.Kernel.Durable

/-!
# Power cuts

Runs of calls on files in which the power may fail at any point of a call, and a kernel is started over what is on the
disk then. A block goes to the disk in one piece.

* `PowerCall`, `PowerStep` : a call runs to its return, or up to a power cut, after which the disk is mounted;
* `CutEffect` : what a call leaves on the disk when it is cut off;
* `SafeFiles` : the invariant between calls, `Sound` over a disk that is `Recoverable` only; `wpc_fileCall` : every call
  keeps it, does what `CallEffect` says, and leaves what `CutEffect` says;
* `power_safe` : in every such run a call that returns has done all that it is to do, and one that does not has left a
  recoverable disk, over which a kernel starts.
-/

namespace RiscvOsLab.Kernel

open Prog Function Bytes
open RiscvOsLab.Fs

/-! ## Runs with power cuts -/

/-- The disk under the kernel. -/
def Machine.platter (s : Machine) : Nat → Block := s.files.platter

/-- A call returns, or the power fails in it and a kernel is started. -/
inductive PowerCall (p : Fin NPROC) (a : Args) (c : FileCall) (s : Machine) : Machine → Prop
  | returned {r : Int × List UInt8} {t : Machine} : (fileCall p a c).run s = .ok (r, t) → PowerCall p a c s t
  | cut {m t : Machine} : m ∈ (fileCall p a c).visits s → FileStart m.platter t → PowerCall p a c s t

def PowerStep (s t : Machine) : Prop := ∃ p a c, PowerCall p a c s t

/-- What is on the disk when a call is cut off. -/
inductive CutEffect (s : Machine) (p : Fin NPROC) (a : Args) : FileCall → (Nat → Block) → Prop
  | untouched {c : FileCall} : CutEffect s p a c s.files.fs.dev.disk
  | written {fd : Fin NOFILE} {f : Fin NFILE} {ip : Fin NINODE} {D : Nat → Block}
      (hfd : fdFile s p (argint a.a0) = some (fd, f)) (hw : (s.files.ftable f).writable = true)
      (hip : (s.files.ftable f).ip = some ip)
      (href : ¬ Refused (fileDinode s.files ip) (s.files.ftable f).off (argint a.a2))
      (hcut : WriteCut s.files.fs.sb s.files.fs.dev.disk D (fileInum s.files ip)
        (fun i => a.mem (a.a1 + UInt64.ofNat i)) (s.files.ftable f).off.toNat (argint a.a2).toNat) :
      CutEffect s p a .write D
  | allotted {dir inum : Nat} {name : Bytes} {D : Nat → Block}
      (hr : openResult s.files.fs.sb s.files.fs.dev.disk (argstr a.mem a.a0 MAXPATH) (argint a.a1) = .create dir name)
      (ha : Allotted s.files.fs.sb s.files.fs.dev.disk D inum T_FILE) : CutEffect s p a .open D
  | linked {dir inum off : Nat} {name : Bytes} {D₁ D : Nat → Block}
      (hr : openResult s.files.fs.sb s.files.fs.dev.disk (argstr a.mem a.a0 MAXPATH) (argint a.a1) = .create dir name)
      (ha : Allotted s.files.fs.sb s.files.fs.dev.disk D₁ inum T_FILE)
      (hvac : Vacant D₁ (dinodeOf s.files.fs.sb D₁ dir) off)
      (hcut : WriteCut s.files.fs.sb D₁ D dir (mkDirent (UInt16.ofNat inum) name) off DIRENT) :
      CutEffect s p a .open D

section Lift
variable {α : Type}

@[simp] theorem Machine.platter_mk (t : Files) (phys : Phys) (proc : Fin NPROC → Proc) (pid : Nat) :
    (Machine.mk t phys proc pid).platter = t.platter := rfl

@[simp] theorem Machine.platter_setProc (s : Machine) (p : Fin NPROC) (v : Proc) : (s.setProc p v).platter = s.platter :=
  rfl

@[simp] theorem wpc_liftFiles {Q : α → Machine → Prop} {I : Machine → Prop} {s : Machine} (p : Prog Files α) :
    (liftFiles p).wpc Q I s ↔ p.wpc (fun a t => Q a { s with files := t }) (fun t => I { s with files := t }) s.files :=
  wpc_zoom Machine.files (fun t s => { s with files := t }) (fun _ _ => rfl) (fun _ _ _ => rfl) (fun _ => rfl) p

theorem steady_liftFiles {p : Prog Files α} (h : p.Steady Files.platter) : (liftFiles p).Steady Machine.platter :=
  steady_zoom Machine.files (fun t s => { s with files := t }) (fun _ _ => rfl) (fun _ _ _ => rfl) (fun _ => rfl) h

end Lift

/-! ## `open` -/

section Open
variable {s : State} {refs : Fin NINODE → Nat} {C : (Nat → Block) → Prop}

theorem wpc_openInode (h : Safe s refs) (path : List UInt8) (omode : UInt32) (hC : C s.dev.disk)
    (hallot : ∀ dir name, openResult s.sb s.dev.disk path omode = .create dir name → ∀ i D',
      Allotted s.sb s.dev.disk D' i T_FILE → Recoverable s.sb D' → C D')
    (hlink : ∀ dir name, openResult s.sb s.dev.disk path omode = .create dir name → ∀ i off D₁ D',
      Allotted s.sb s.dev.disk D₁ i T_FILE → Vacant D₁ (dinodeOf s.sb D₁ dir) off →
      WriteCut s.sb D₁ D' dir (mkDirent (UInt16.ofNat i) name) off DIRENT → Recoverable s.sb D' → C D')
    {Q : Option (Fin NINODE) → State → Prop}
    (hmissing : openResult s.sb s.dev.disk path omode = .missing → ∀ t, Safe t refs → Still refs s t → Q none t)
    (hopened : ∀ ip t, Opened s.sb s.dev.disk t.dev.disk path omode (t.icache ip).inum → Safe t (hold refs ip) →
      Slots refs s t → Q (some ip) t) : (openInode path omode).wpc Q (fun t => C t.platter) s := by
  unfold openInode
  unfold Opened at hopened
  unfold openResult at hallot hlink hmissing hopened
  by_cases hcreat : omode &&& O_CREAT ≠ 0
  · rw [if_pos hcreat] at hallot hlink hmissing hopened ⊢
    rw [wpc_bind]
    refine h.wpc_namex true path _ hC (fun name hw t ht hst => ?_) fun dir name hw ip t ht hst hdir => ?_
    · rw [hw] at hmissing
      rw [wpc_pure]
      exact ⟨hmissing rfl t ht hst, by rwa [State.platter, hst.disk]⟩
    · rw [hw] at hallot hlink hmissing hopened
      have hdirtype : (dinodeOf s.sb s.dev.disk dir).type = T_DIR := type_of_walkFrom hw
      have hip := hold_pos refs ip
      simp only at hallot hlink hmissing hopened
      simp only [wpc_bind]
      refine ht.wpc_ilock hip (by rwa [hst.disk]) fun u hu hst' hv => ?_
      have hall := hst.trans hst'.of_hold
      have hCu : C u.dev.disk := by rwa [hall.disk]
      have hinum : (u.icache ip).inum = dir := (hst'.inum ip hip).trans hdir
      have hdin : (u.icache ip).din = dinodeOf s.sb s.dev.disk dir := by
        rw [hu.clean ip hv, hall.sb, hall.disk, hinum]
      have hused : Used s.sb (dinodeOf s.sb s.dev.disk) dir := by
        have hlive := (hu.live ip hip).2
        rwa [hall.sb, hall.disk, hinum] at hlive
      refine hu.wpc_dirlookup name hv (by rw [hdin, hdirtype]) hCu (fun hl v hv' hst'' => ?_)
        fun inum hl next v hv' hst'' hi => ?_ <;> rw [hall.sb, hall.disk, hinum] at hl <;>
        rw [hl] at hallot hlink hmissing hopened <;> rw [← hst''.disk] at hCu
      · -- a new file
        have hstill := hall.trans hst''.of_hold
        have hdev := (hv'.live ip hip).1
        have hvalid := hst''.valid ip hip hv
        have hinum' : (v.icache ip).inum = dir := (hst''.inum ip hip).trans hinum
        have hallot := hallot dir name rfl
        have hlink := hlink dir name rfl
        simp only [wpc_bind, wpc_gets]
        rw [hdev]
        refine ⟨?_, hCu⟩
        rw [← hstill.disk, ← hstill.sb] at hallot
        refine hv'.wpc_ialloc (by decide) hCu hallot fun next w hw' hslots ha => ?_
        have hCw : C w.dev.disk := hallot _ _ ha (hslots.sb ▸ hw'.disk)
        have hip' := hip.trans_le (le_hold (hold refs ip) next ip)
        have hinum'' : (w.icache ip).inum = dir := (hslots.inum ip hip).trans hinum'
        have hvalid' := hslots.valid ip hip hvalid
        have hsb : w.sb = s.sb := hslots.sb.trans hstill.sb
        rw [hstill.sb, hstill.disk] at ha
        have hne : dir ≠ (w.icache next).inum := fun he => ha.free (he ▸ hused)
        have hdir' : dinodeOf w.sb w.dev.disk dir = dinodeOf s.sb s.dev.disk dir := by
          rw [hsb, ha.others dir hne]
        have hnone : lookup w.dev.disk (dinodeOf w.sb w.dev.disk (w.icache ip).inum) name = none := by
          rw [hinum'', hsb, ← hl]
          exact lookup_allotted (h.disk.dirs dir hused hdirtype) hused ha name 0 (Nat.dvd_zero _)
        have htype : (w.icache ip).din.type = T_DIR := by
          rw [hw'.clean ip hvalid', hinum'', hdir', hdirtype]
        have hnew : Used w.sb (dinodeOf w.sb w.dev.disk) (w.icache next).inum := by
          rw [hsb]
          exact (ha.used (by decide) _).2 (.inr rfl)
        refine ⟨?_, hCw⟩
        refine hw'.wpc_dirlink hvalid' htype name hnew hnone hCw (fun off D' hvac hcut hrec => ?_)
          fun x off hvac hx hslots' hsplice => ?_
        · rw [hinum'', hsb] at hvac hcut
          rw [hsb] at hrec
          exact hlink _ off _ D' ha hvac hcut hrec
        · have hCx : C x.dev.disk := by
            have hrec := hx.disk
            rw [hslots'.sb, hsb] at hrec
            rw [hinum'', hsb] at hvac hsplice
            exact hlink _ off _ _ ha hvac (.whole hsplice) hrec
          rw [if_neg (by decide)]
          simp only [wpc_bind, wpc_pure]
          refine hx.wpc_iunlock hip' hCx ?_
          rw [hold_comm] at hx
          refine hx.wpc_iput hCx fun y hy hst₃ => ?_
          rw [← hst₃.disk] at hCx
          refine wpc_last (hy.wpc_ilock (hold_pos refs next) hCx fun z hz hst₄ hvz => ?_)
          rw [hinum'', hsb] at hvac hsplice
          have hdisk : z.dev.disk = x.dev.disk := hst₄.disk.trans hst₃.disk
          have hn := hold_pos refs next
          have hnext : (z.icache next).inum = (w.icache next).inum := by
            rw [hst₄.inum next hn, hst₃.inum next hn, hslots'.inum next (hold_pos _ next)]
          refine hopened next z (.inr ⟨dir, name, rfl, ?_⟩) hz ?_
          · rw [hnext, hdisk]
            exact ⟨⟨w.dev.disk, off, ha, hvac, hsplice⟩, ⟨hused, hdirtype⟩, hl⟩
          · have hone := (hstill.slots.trans hslots.of_hold).trans hslots'.of_hold.of_hold
            exact (hone.trans hst₃.of_hold.slots).trans hst₄.of_hold.slots
      · -- the file is there
        have hstill := hall.trans hst''.of_hold
        simp only [wpc_bind]
        refine hv'.wpc_iunlock (hip.trans_le (le_hold _ _ _)) hCu ?_
        rw [hold_comm] at hv'
        refine hv'.wpc_iput hCu fun w hw' hst₃ => ?_
        rw [← hst₃.disk] at hCu
        refine hw'.wpc_ilock (hold_pos refs next) hCu fun x hx hst₄ hvx => ?_
        rw [← hst₄.disk] at hCu
        have hn := hold_pos refs next
        have hinum' : (x.icache next).inum = inum := by
          rw [hst₄.inum next hn, hst₃.inum next hn, hi]
        have hlast : Still refs s x := (hstill.trans hst₃.of_hold).trans hst₄.of_hold
        have hdin' : (x.icache next).din = dinodeOf s.sb s.dev.disk inum := by
          rw [hx.clean next hvx, hinum', hlast.sb, hlast.disk]
        simp only [wpc_gets, hdin']
        refine ⟨?_, hCu⟩
        simp only at hmissing hopened
        by_cases hbad : (dinodeOf s.sb s.dev.disk inum).type = T_DIR ∨ (dinodeOf s.sb s.dev.disk inum).type = T_DEVICE
        · rw [if_pos hbad] at hmissing ⊢
          simp only [wpc_bind, wpc_pure]
          refine hx.wpc_iunlock hn hCu (wpc_last (hx.wpc_iput hCu fun y hy hst₅ => ?_))
          exact hmissing rfl y hy (hlast.trans hst₅)
        · rw [if_neg hbad] at hopened ⊢
          rw [wpc_pure]
          exact ⟨hopened next x (.inl ⟨by rw [hinum'], hlast.disk⟩) hx hlast.slots, hCu⟩
  · rw [if_neg hcreat] at hmissing hopened ⊢
    unfold namei
    simp only [wpc_bind]
    refine h.wpc_namex false path _ hC (fun name hw t ht hst => ?_) fun inum name hw ip t ht hst hi => ?_
    · rw [hw] at hmissing
      have hCt : C t.dev.disk := by rwa [hst.disk]
      simp only [wpc_pure]
      exact ⟨⟨hmissing rfl t ht hst, hCt⟩, hCt⟩
    · rw [hw] at hmissing hopened
      have hCt : C t.dev.disk := by rwa [hst.disk]
      simp only [wpc_pure, wpc_bind, wpc_gets]
      refine ⟨?_, hCt⟩
      refine ht.wpc_ilock (hold_pos refs ip) hCt fun u hu hst' hv => ?_
      rw [← hst'.disk] at hCt
      have hinum := hst'.inum ip (hold_pos refs ip)
      have hdin : (u.icache ip).din = dinodeOf s.sb s.dev.disk inum := by
        rw [hu.clean ip hv, hst'.sb, hst'.disk, hst.sb, hst.disk, hinum, hi]
      rw [hdin]
      refine ⟨?_, hCt⟩
      simp only at hmissing hopened
      by_cases hbad : (dinodeOf s.sb s.dev.disk inum).type = T_DIR ∧ omode ≠ 0
      · rw [if_pos hbad] at hmissing ⊢
        simp only [wpc_bind, wpc_pure]
        refine hu.wpc_iunlock (hold_pos refs ip) hCt (wpc_last (hu.wpc_iput hCt fun v hv' hst'' => ?_))
        exact hmissing rfl v hv' ((hst.trans hst'.of_hold).trans hst'')
      · rw [if_neg hbad] at hopened ⊢
        rw [wpc_pure]
        have hlast := hst.trans hst'.of_hold
        exact ⟨hopened ip u (.inl ⟨by rw [hinum, hi], hlast.disk⟩) hu hlast.slots, hCt⟩

end Open

/-! ## The invariant -/

structure SafeFiles (s : Files) : Prop where
  fs : Safe s.fs (openRefs s)
  live : ∀ f, (s.ftable f).ip ≠ none → 0 < (s.ftable f).ref
  files : ∀ f ip, (s.ftable f).ip = some ip → (s.ftable f).writable = true →
    (dinodeOf s.fs.sb s.fs.dev.disk (s.fs.icache ip).inum).type ≠ T_DIR

theorem Sound.safe {s : Files} (h : Sound s) : SafeFiles s := ⟨h.fs.safe, h.live, h.files⟩

namespace SafeFiles

variable {s : Files} {f : Fin NFILE} {C : (Nat → Block) → Prop}

/-- The file system changes, but not under the open files. -/
theorem of_fs (h : SafeFiles s) {t : State} (ht : Safe t (openRefs s)) (hslots : Slots (openRefs s) s.fs t)
    (htypes : Retyped s.fs.sb s.fs.dev.disk t.dev.disk) : SafeFiles { s with fs := t } := by
  refine ⟨ht, h.live, fun g ip hip hw => ?_⟩
  have hpos := openRefs_pos hip
  have hused := (h.fs.live ip hpos).2
  show (dinodeOf t.sb t.dev.disk (t.icache ip).inum).type ≠ T_DIR
  rw [hslots.sb, hslots.inum ip hpos, htypes _ hused]
  exact h.files g ip hip hw

theorem of_still (h : SafeFiles s) {t : State} (ht : Safe t (openRefs s)) (hst : Still (openRefs s) s.fs t) :
    SafeFiles { s with fs := t } := h.of_fs ht hst.slots fun k _ => by rw [hst.disk]

/-- One entry is changed, and the file system with it. -/
theorem setFile (h : SafeFiles s) {v : File} {t : State} (ht : Safe t (openRefs (s.setFile f v))) (hsb : t.sb = s.fs.sb)
    (hinum : ∀ g ip, g ≠ f → (s.ftable g).ip = some ip → (t.icache ip).inum = (s.fs.icache ip).inum)
    (htypes : Retyped s.fs.sb s.fs.dev.disk t.dev.disk) (hlive : v.ip ≠ none → 0 < v.ref)
    (hfile : ∀ ip, v.ip = some ip → v.writable = true → (dinodeOf t.sb t.dev.disk (t.icache ip).inum).type ≠ T_DIR) :
    SafeFiles { s.setFile f v with fs := t } := by
  have hself : ({ s.setFile f v with fs := t } : Files).ftable f = v := Files.setFile_self s f v
  have hother {g : Fin NFILE} (hgf : g ≠ f) : ({ s.setFile f v with fs := t } : Files).ftable g = s.ftable g :=
    Files.setFile_of_ne hgf s v
  refine ⟨ht, fun g hg => ?_, fun g ip hg hw => ?_⟩
  · by_cases hgf : g = f
    · rw [hgf, hself] at hg ⊢
      exact hlive hg
    · rw [hother hgf] at hg ⊢
      exact h.live g hg
  · by_cases hgf : g = f
    · rw [hgf, hself] at hg hw
      exact hfile ip hg hw
    · rw [hother hgf] at hg hw
      show (dinodeOf t.sb t.dev.disk (t.icache ip).inum).type ≠ T_DIR
      rw [hsb, hinum g ip hgf hg, htypes _ (h.fs.live ip (openRefs_pos hg)).2]
      exact h.files g ip hg hw

/-- One entry is changed, and keeps its inode if it had one. -/
theorem setFile_same (h : SafeFiles s) {v : File} (hip : v.ip = (s.ftable f).ip)
    (hlive : v.ip ≠ none → 0 < v.ref) (hw : v.writable = true → (s.ftable f).writable = true) :
    SafeFiles (s.setFile f v) := by
  refine h.setFile (t := s.fs) ?_ rfl (fun _ _ _ _ => rfl) (fun _ _ => rfl) hlive fun ip hv hvw => ?_
  · rw [openRefs_same hip]
    exact h.fs
  · exact h.files f ip (hip ▸ hv) (hw hvw)

theorem moved (h : SafeFiles s) (f : Fin NFILE) (r : Int) : SafeFiles (moved s f r) := by
  unfold Kernel.moved
  split
  · exact h.setFile_same rfl (h.live f) id
  · exact h

/-- The inode that was opened goes into a free entry. -/
theorem opened (h : SafeFiles s) {ip : Fin NINODE} {omode : UInt32} {t : State} {path : List UInt8}
    (hf : (s.ftable f).ip = none) (ht : Safe t (hold (openRefs s) ip)) (hslots : Slots (openRefs s) s.fs t)
    (hop : Opened s.fs.sb s.fs.dev.disk t.dev.disk path omode (t.icache ip).inum) :
    SafeFiles ({ s with fs := t }.setFile f (openFile omode ip)) := by
  refine h.setFile (f := f) (v := openFile omode ip) ?_ hslots.sb (fun g jp _ hg => hslots.inum jp (openRefs_pos hg))
    hop.retyped (fun _ => Int.one_pos) fun jp hj hw => ?_
  · rw [openRefs_opened hf rfl]
    exact ht
  · rw [← Option.some.inj hj, hslots.sb]
    exact hop.type hw

/-! ## The calls -/

/-- `ilock(f->ip)`. -/
theorem wpc_ilockPtr (h : SafeFiles s) (hC : C s.fs.dev.disk) {Q : Fin NINODE → State → Prop}
    (hQ : ∀ ip t, (s.ftable f).ip = some ip → Safe t (openRefs s) → Still (openRefs s) s.fs t →
      (t.icache ip).valid = true → Q ip t) : (ilockPtr (s.ftable f).ip).wpc Q (fun t => C t.platter) s.fs := by
  unfold ilockPtr
  cases hip : (s.ftable f).ip with
  | none =>
      rw [wpc_panic]
      exact hC
  | some ip =>
      simp only [wpc_bind, wpc_pure]
      refine wpc_last (h.fs.wpc_ilock (openRefs_pos hip) hC fun t ht hst hv => ?_)
      exact hQ ip t hip ht hst hv

theorem wpc_fileread (h : SafeFiles s) (n : UInt32) (hC : C s.fs.dev.disk) {Q : Int × List UInt8 → Files → Prop}
    (hdenied : (s.ftable f).readable = false → Q (-1, []) s)
    (hread : ∀ ip t r, (s.ftable f).readable = true → (s.ftable f).ip = some ip → Safe t (openRefs s) →
      Still (openRefs s) s.fs t →
      r = readAt s.fs.dev.disk (dinodeOf s.fs.sb s.fs.dev.disk (s.fs.icache ip).inum) (s.ftable f).off n →
      Q r (Kernel.moved { s with fs := t } f r.1)) : (fileread f n).wpc Q (fun t => C t.platter) s := by
  unfold fileread
  rw [wpc_bind, wpc_gets]
  refine ⟨?_, hC⟩
  by_cases hr : (s.ftable f).readable = false
  · rw [if_pos hr, wpc_pure]
    exact ⟨hdenied hr, hC⟩
  · rw [if_neg hr]
    simp only [wpc_bind, wpc_liftFs, Files.platter_mk]
    refine h.wpc_ilockPtr hC fun ip t hip ht hst hv => ?_
    rw [← hst.disk] at hC
    refine ht.wpc_readi hv hC fun u hu hst' => ?_
    rw [← hst'.disk] at hC
    have hpos := openRefs_pos hip
    rw [hst.sb, hst.disk, hst.inum ip hpos]
    have hQ := hread ip u _ (Bool.not_eq_false _ ▸ hr) hip hu (hst.trans hst') rfl
    unfold Kernel.moved at hQ
    split
    · rename_i hlt
      rw [if_pos hlt] at hQ
      simp only [wpc_bind, wpc_modify, wpc_liftFs, wpc_pure, Files.platter_mk]
      exact ⟨hu.wpc_iunlock hpos hC ⟨hQ, hC⟩, hC, hC⟩
    · rename_i hlt
      rw [if_neg hlt] at hQ
      simp only [wpc_bind, wpc_liftFs, wpc_pure, Files.platter_mk]
      exact hu.wpc_iunlock hpos hC ⟨hQ, hC⟩

theorem wpc_filewrite (h : SafeFiles s) (src : Bytes) (n : UInt32) (hC : C s.fs.dev.disk)
    (hcut : ∀ ip, (s.ftable f).writable = true → (s.ftable f).ip = some ip →
      ¬ Refused (dinodeOf s.fs.sb s.fs.dev.disk (s.fs.icache ip).inum) (s.ftable f).off n → ∀ D',
      WriteCut s.fs.sb s.fs.dev.disk D' (s.fs.icache ip).inum src (s.ftable f).off.toNat n.toNat →
      Recoverable s.fs.sb D' → C D')
    {Q : Int → Files → Prop} (hdenied : (s.ftable f).writable = false → Q (-1) s)
    (hrefused : ∀ ip t, (s.ftable f).writable = true → (s.ftable f).ip = some ip → Safe t (openRefs s) →
      Still (openRefs s) s.fs t →
      Refused (dinodeOf s.fs.sb s.fs.dev.disk (s.fs.icache ip).inum) (s.ftable f).off n → Q (-1) { s with fs := t })
    (hwritten : ∀ ip t, (s.ftable f).writable = true → (s.ftable f).ip = some ip → Safe t (openRefs s) →
      Slots (openRefs s) s.fs t →
      ¬ Refused (dinodeOf s.fs.sb s.fs.dev.disk (s.fs.icache ip).inum) (s.ftable f).off n →
      Spliced s.fs.sb s.fs.dev.disk t.dev.disk (s.fs.icache ip).inum src (s.ftable f).off.toNat n.toNat →
      Q n.toNat (Kernel.moved { s with fs := t } f n.toNat)) :
    (filewrite f src n).wpc Q (fun t => C t.platter) s := by
  unfold filewrite
  rw [wpc_bind, wpc_gets]
  refine ⟨?_, hC⟩
  by_cases hw : (s.ftable f).writable = false
  · rw [if_pos hw, wpc_pure]
    exact ⟨hdenied hw, hC⟩
  · rw [if_neg hw]
    have hw : (s.ftable f).writable = true := Bool.not_eq_false _ ▸ hw
    simp only [wpc_bind, wpc_liftFs, Files.platter_mk]
    refine h.wpc_ilockPtr hC fun ip t hip ht hst hv => ?_
    have hCt : C t.dev.disk := by rwa [hst.disk]
    have hpos := openRefs_pos hip
    have hinum := hst.inum ip hpos
    have hfile : (t.icache ip).din.type ≠ T_DIR := by
      rw [ht.clean ip hv, hst.sb, hst.disk, hinum]
      exact h.files f ip hip hw
    refine ht.wpc_writei hv (fun hd => absurd hd hfile) hCt (fun href D' hD' hrec => ?_) (fun href => ?_)
      fun href u hu hslots hsplice => ?_ <;> rw [hst.sb, hst.disk, hinum] at href
    · rw [hst.sb, hst.disk, hinum] at hD'
      rw [hst.sb] at hrec
      exact hcut ip hw hip href D' hD' hrec
    · rw [if_neg (by omega)]
      simp only [wpc_bind, wpc_liftFs, wpc_pure, Files.platter_mk]
      exact ht.wpc_iunlock hpos hCt ⟨hrefused ip t hw hip ht hst href, hCt⟩
    · rw [hst.sb, hst.disk, hinum] at hsplice
      have hrec := hu.disk
      rw [hslots.sb, hst.sb] at hrec
      have hCu : C u.dev.disk := hcut ip hw hip href _ (.whole hsplice) hrec
      have hQ := hwritten ip u hw hip hu (hst.slots.trans hslots) href hsplice
      unfold Kernel.moved at hQ
      split
      · rename_i hlt
        rw [if_pos hlt] at hQ
        simp only [wpc_bind, wpc_modify, wpc_liftFs, wpc_pure, Files.platter_mk]
        exact ⟨hu.wpc_iunlock hpos hCu ⟨hQ, hCu⟩, hCu, hCu⟩
      · rename_i hlt
        rw [if_neg hlt] at hQ
        simp only [wpc_bind, wpc_liftFs, wpc_pure, Files.platter_mk]
        exact hu.wpc_iunlock hpos hCu ⟨hQ, hCu⟩

theorem wpc_fileclose (h : SafeFiles s) (hC : C s.fs.dev.disk) {Q : Unit → Files → Prop}
    (hQ : ∀ v t, (s.ftable f).ref > 1 ∧ v = { s.ftable f with ref := (s.ftable f).ref - 1 } ∨
      (s.ftable f).ref = 1 ∧ v = shut → Still (openRefs (s.setFile f v)) s.fs t →
      SafeFiles { s.setFile f v with fs := t } → Q () { s.setFile f v with fs := t }) :
    (fileclose f).wpc Q (fun t => C t.platter) s := by
  refine (steady_fileclose f).wpc ?_ hC
  unfold fileclose
  simp only [wp_bind, wp_gets]
  by_cases hlt : (s.ftable f).ref < 1
  · rw [if_pos hlt]
    exact trivial
  · rw [if_neg hlt]
    simp only [wp_bind, wp_modify]
    by_cases hmore : (s.ftable f).ref - 1 > 0
    · rw [if_pos hmore]
      exact hQ _ s.fs (.inl ⟨by omega, rfl⟩) (Still.refl _) (h.setFile_same rfl (fun _ => hmore) id)
    · rw [if_neg hmore]
      have hone : (s.ftable f).ref = 1 := by omega
      have hshut : ((s.setFile f { s.ftable f with ref := (s.ftable f).ref - 1 }).setFile f
          { (s.setFile f { s.ftable f with ref := (s.ftable f).ref - 1 }).ftable f with
            type := .none, ip := none, off := 0, readable := false, writable := false }) = s.setFile f shut := by
        have h0 : (s.ftable f).ref - 1 = 0 := by omega
        rw [Files.setFile_setFile, Files.setFile_self, h0]
        rfl
      simp only [wp_bind, wp_modify]
      rw [hshut]
      have hsafe (t : State) (ht : Safe t (openRefs (s.setFile f shut)))
          (hst : Still (openRefs (s.setFile f shut)) s.fs t) : SafeFiles { s.setFile f shut with fs := t } := by
        refine h.setFile ht hst.sb (fun g ip hgf hg => ?_) (fun k _ => by rw [hst.disk]) (fun hx => absurd rfl hx)
          fun ip hx => absurd hx.symm (Option.some_ne_none ip)
        refine hst.inum ip (openRefs_pos (f := g) ?_)
        rw [Files.setFile_of_ne hgf]
        exact hg
      cases hip : (s.ftable f).ip with
      | none =>
          refine hQ shut s.fs (.inr ⟨hone, rfl⟩) (Still.refl _) (hsafe s.fs ?_ (Still.refl _))
          rw [openRefs_same (by rw [hip]; rfl)]
          exact h.fs
      | some ip =>
          have hrefs : openRefs s = hold (openRefs (s.setFile f shut)) ip := openRefs_closed hip rfl
          have hfs := h.fs
          rw [hrefs] at hfs
          rw [wp_liftFs]
          refine hfs.wp_iput fun t ht hst => ?_
          exact hQ shut t (.inr ⟨hone, rfl⟩) hst (hsafe t ht hst)

end SafeFiles

/-! ## Every call -/

section Calls
variable {s : Machine} {p : Fin NPROC} {C : (Nat → Block) → Prop}

theorem wpc_sysOpen (h : SafeFiles s.files) (a : Args)
    (hC : ∀ D, Recoverable s.files.fs.sb D → CutEffect s p a .open D → C D) :
    (sysOpen p a).wpc (fun r t => SafeFiles t.files ∧ CallEffect s p a .open (r, []) t) (fun t => C t.platter) s := by
  have hC₀ : C s.files.fs.dev.disk := hC _ h.fs.disk .untouched
  simp only [sysOpen, wpc_bind, wpc_liftFiles, wpc_liftFs, Machine.platter_mk, Files.platter_mk]
  refine wpc_openInode h.fs _ _ hC₀ (fun dir name hr i D' ha hrec => hC _ hrec (.allotted hr ha))
    (fun dir name hr i off D₁ D' ha hvac hcut hrec => hC _ hrec (.linked hr ha hvac hcut)) (fun hr t ht hst => ?_)
    fun ip t hop ht hslots => ?_
  · rw [wpc_pure]
    refine ⟨⟨h.of_still ht hst, .openFailed (SameOpen.of_slots hst.slots fun _ _ => rfl) (.inl ⟨hr, hst.disk⟩)⟩, ?_⟩
    show C t.dev.disk
    rwa [hst.disk]
  · have hCt : C t.dev.disk := by
      rcases hop with ⟨-, hdisk⟩ | ⟨dir, name, hr, hc⟩
      · rwa [hdisk]
      · obtain ⟨D₁, off, ha, hvac, hsplice⟩ := hc.made
        exact hC _ (hslots.sb ▸ ht.disk) (.linked hr ha hvac (.whole hsplice))
    have hpos := hold_pos (openRefs s.files) ip
    -- what is left of the call does not write
    refine Steady.wpc (?_ : Prog.Steady Machine.platter _) ?_ hCt
    · refine steady_bind (steady_liftFiles steady_filealloc) fun r => ?_
      have hput := steady_bind (steady_liftFiles (steady_liftFs (steady_iunlock ip))) fun _ =>
        steady_bind (steady_liftFiles (steady_liftFs (steady_iput ip))) fun _ => steady_pure (-1 : Int)
      split
      · exact hput
      · refine steady_bind (steady_gets _) fun proc => ?_
        split
        · exact steady_bind (steady_liftFiles (steady_fileclose _)) fun _ => hput
        · refine steady_bind (steady_modify fun _ => rfl) fun _ => ?_
          refine steady_bind (steady_liftFiles (steady_modify fun _ => rfl)) fun _ => ?_
          exact steady_bind (steady_liftFiles (steady_liftFs (steady_iunlock ip))) fun _ => steady_pure _
    · simp only [wp_bind, wp_liftFiles, filealloc, wp_get]
      cases hf : (List.finRange NFILE).find? fun f => (s.files.ftable f).ref == 0 with
      | none =>
          simp only [wp_bind, wp_liftFiles, wp_liftFs, wp_pure]
          refine ht.wp_iunlock hpos (ht.wp_iput fun u hu hst => ?_)
          have hall := hslots.trans hst.slots
          refine ⟨h.of_fs hu hall fun k hk => ?_, .openFailed (SameOpen.of_slots hall fun _ _ => rfl)
            (.inr ⟨(t.icache ip).inum, ?_⟩)⟩
          · rw [hst.disk]
            exact hop.retyped k hk
          · rw [hst.disk]
            exact hop
      | some f =>
          have hzero : (s.files.ftable f).ref = 0 := by simpa using List.find?_some hf
          have hnone : (s.files.ftable f).ip = none := by
            by_contra hip
            have := h.live f hip
            omega
          have hother (v : File) (g : Fin NFILE) (hg : 0 < (s.files.ftable g).ref) :
              ({ s.files with fs := t }.setFile f v).ftable g = s.files.ftable g := by
            refine Files.setFile_of_ne ?_ _ _
            rintro rfl
            omega
          simp only [wp_bind, wp_modify, wp_pure, wp_gets]
          split
          · simp only [wp_bind, wp_liftFiles, wp_liftFs, wp_pure]
            refine wp_fileclose_unused ?_ ?_ ?_
            · rw [Files.setFile_self]
            · rw [Files.setFile_self]
              exact hnone
            · rw [Files.setFile_setFile]
              refine ht.wp_iunlock hpos (ht.wp_iput fun u hu hst => ?_)
              have hall := hslots.trans hst.slots
              have hsafe : SafeFiles { s.files with fs := u } := h.of_fs hu hall fun k hk => by
                rw [hst.disk]
                exact hop.retyped k hk
              refine ⟨hsafe.setFile_same hnone.symm (fun hx => absurd rfl hx) fun hx => Bool.noConfusion hx,
                .openFailed (SameOpen.of_slots hall (hother shut)) (.inr ⟨(t.icache ip).inum, ?_⟩)⟩
              show Opened _ _ u.dev.disk _ _ _
              rw [hst.disk]
              exact hop
          · rename_i fd hfd
            simp only [wp_bind, wp_liftFiles, wp_liftFs, wp_modify, wp_pure, Machine.setProc_files, Files.setFile_setFile,
              Files.setFile_self]
            refine ht.wp_iunlock hpos ⟨h.opened hnone ht hslots hop, ?_⟩
            obtain ⟨hfree, hfirst⟩ := find?_finRange hfd
            refine .opened (u := { s.files with fs := t }.setFile f (openFile (argint a.a1) ip))
              (SameOpen.of_slots hslots (hother _)) hop ?_ (fun k hk => ?_) hzero (Files.setFile_self _ _ _)
            · simpa using hfree
            · have hbusy := hfirst k hk
              intro hnil
              simp [hnil] at hbusy

theorem wpc_fileCall (h : SafeFiles s.files) (a : Args) (c : FileCall)
    (hC : ∀ D, Recoverable s.files.fs.sb D → CutEffect s p a c D → C D) :
    (fileCall p a c).wpc (fun r t => SafeFiles t.files ∧ CallEffect s p a c r t) (fun t => C t.platter) s := by
  have hC₀ : C s.files.fs.dev.disk := hC _ h.fs.disk .untouched
  cases c with
  | «open» => exact wpc_seq (wpc_last (wpc_sysOpen h a hC)) fun _ _ ht => (wpc_pure _).2 ht
  | read =>
      simp only [fileCall, sysRead, wpc_bind, wpc_get]
      refine ⟨?_, hC₀⟩
      cases hfd : fdFile s p (argint a.a0) with
      | none => exact (wpc_pure _).2 ⟨⟨h, .unopened (by decide) hfd (fun hc => absurd hc (by decide))⟩, hC₀⟩
      | some r =>
          obtain ⟨fd, f⟩ := r
          simp only [wpc_liftFiles, Machine.platter_mk]
          refine h.wpc_fileread _ hC₀ (fun hr => ⟨h, .readDenied hfd hr⟩) fun ip t r hr hip ht hst hres => ?_
          exact ⟨(h.of_still ht hst).moved f r.1, .read hfd hr hip hst hres⟩
  | write =>
      simp only [fileCall, sysWrite, wpc_bind, wpc_get]
      refine ⟨?_, hC₀⟩
      by_cases hcons : argint a.a0 = 1 ∧ (s.proc p).ofile ⟨1, by decide⟩ = none
      · rw [if_pos hcons]
        simp only [consolewrite, wpc_pure]
        exact ⟨⟨⟨h, .console hcons⟩, hC₀⟩, hC₀⟩
      · rw [if_neg hcons]
        cases hfd : fdFile s p (argint a.a0) with
        | none =>
            simp only [wpc_pure]
            exact ⟨⟨⟨h, .unopened (by decide) hfd fun _ => hcons⟩, hC₀⟩, hC₀⟩
        | some r =>
            obtain ⟨fd, f⟩ := r
            simp only [wpc_liftFiles, wpc_pure, Machine.platter_mk]
            refine wpc_last (h.wpc_filewrite _ _ hC₀ (fun ip hw hip href D' hD' hrec => ?_)
              (fun hw => ⟨h, .writeDenied hfd hw⟩) (fun ip t hw hip ht hst href => ?_)
              fun ip t hw hip ht hslots href hsplice => ?_)
            · exact hC D' hrec (.written hfd hw hip href hD')
            · exact ⟨h.of_still ht hst, .writeRefused hfd hw hip hst href⟩
            · refine ⟨(h.of_fs ht hslots fun k hk => hsplice.type hk.1).moved f _, ?_⟩
              exact .written hfd hw hip hslots href hsplice
  | close =>
      simp only [fileCall, sysClose, wpc_bind, wpc_get]
      refine ⟨?_, hC₀⟩
      cases hfd : fdFile s p (argint a.a0) with
      | none =>
          simp only [wpc_pure]
          exact ⟨⟨⟨h, .unopened (by decide) hfd (fun hc => absurd hc (by decide))⟩, hC₀⟩, hC₀⟩
      | some r =>
          obtain ⟨fd, f⟩ := r
          simp only [wpc_bind, wpc_liftFiles, wpc_modify, wpc_pure, Machine.platter_mk, Machine.platter_setProc]
          refine h.wpc_fileclose hC₀ fun v t hv hst hsafe => ?_
          have hCt : C t.dev.disk := by rwa [hst.disk]
          exact ⟨⟨⟨⟨hsafe, .closed hfd hv hst⟩, hCt⟩, hCt⟩, hCt, hCt⟩

end Calls

/-! ## Every run -/

section Reached
variable {total : Nat} {img : Mkfs.State} {s : Machine} {sb : Superblock} {D : Nat → Block}

/-- The kernel that is started over a recoverable disk. -/
theorem safeFiles_of_fileStart (hok : Recoverable sb D) (h : FileStart D s) :
    SafeFiles s.files ∧ s.files.fs.sb = sb ∧ s.platter = D := by
  obtain ⟨m, hm₀, hdev⟩ : ∃ m : Machine, m = Machine.image D 0 ∧ m.files.fs.dev = Dev.boot D := ⟨_, rfl, rfl⟩
  have hrun := h.fs
  rw [← hm₀] at hrun
  have hsuper := hok.anchored.super
  have hmagic : (sbAt (D 1)).magic = FSMAGIC := by
    rw [hsuper]
    exact hok.anchored.geo.magic
  obtain ⟨hidle, hdisk, hsb, hrefs⟩ := wp_ok (wp_mount hdev hmagic) hrun
  have hsb : s.files.fs.sb = sb := hsb.trans hsuper
  have hnoip (f : Fin NFILE) : (s.files.ftable f).ip = none := by
    rw [h.ftable]
    rfl
  refine ⟨⟨?_, fun f hf => absurd (hnoip f) hf, fun f ip hip => ?_⟩, hsb, hdisk⟩
  · rw [h.openRefs]
    refine ⟨hidle, hrefs, ?_, fun ip hip => absurd hip (Nat.lt_irrefl 0), fun ip hv => ?_⟩
    · rw [hsb, hdisk]
      exact hok
    · rw [hrefs.free ip rfl] at hv
      exact Bool.noConfusion hv
  · rw [hnoip f] at hip
    exact absurd hip (by simp)

/-- There is one over every recoverable disk. -/
theorem exists_fileStart (hok : Recoverable sb D) : ∃ s, FileStart D s := by
  obtain ⟨m, hm₀, hdev, hofile⟩ : ∃ m : Machine, m = Machine.image D 0 ∧ m.files.fs.dev = Dev.boot D ∧
      ∀ p fd, (m.proc p).ofile fd = none := ⟨_, rfl, rfl, fun _ _ => rfl⟩
  have hmagic : (sbAt (D 1)).magic = FSMAGIC := by
    rw [hok.anchored.super]
    exact hok.anchored.geo.magic
  obtain ⟨_, t, hrun, -⟩ := wp_total (wp_mount hdev hmagic)
  refine ⟨{ m with files := { m.files with fs := t } }, ?_, ?_, hofile⟩
  · rw [← hm₀]
    exact hrun
  · rw [← hm₀]

theorem safe_reach (hm : Mkfs.Makes total img) (h : Reach (FileStart img.blocks) PowerStep s) :
    SafeFiles s.files ∧ s.files.fs.sb = Mkfs.superblock total := by
  refine h.invariant (fun s => SafeFiles s.files ∧ s.files.fs.sb = Mkfs.superblock total)
    (fun s hs => ⟨(sound_start hm hs).1.safe, (sound_start hm hs).2.1⟩) fun s t hs hst => ?_
  obtain ⟨hsafe, hsb⟩ := hs
  obtain ⟨p, a, c, hcall⟩ := hst
  cases hcall with
  | returned hrun =>
      obtain ⟨hsafe', heff⟩ := wp_ok (wpc_fileCall (C := fun _ => True) hsafe a c fun _ _ _ => trivial).1 hrun
      exact ⟨hsafe', heff.sb.trans hsb⟩
  | cut hvisit hstart =>
      have hrec := (wpc_fileCall hsafe a c fun _ hrec _ => hrec).2 _ hvisit
      rw [hsb] at hrec
      obtain ⟨hsafe', hsb', -⟩ := safeFiles_of_fileStart hrec hstart
      exact ⟨hsafe', hsb'⟩

/-- After any calls and any power cuts, a call that returns has done what it is to do; wherever it is cut off, the disk
is recoverable, holds what `CutEffect` says, and a kernel can be started over it. -/
theorem power_safe (hm : Mkfs.Makes total img) (h : Reach (FileStart img.blocks) PowerStep s) (p : Fin NPROC) (a : Args)
    (c : FileCall) :
    (∀ r t, (fileCall p a c).run s = .ok (r, t) → CallEffect s p a c r t) ∧
    ∀ m ∈ (fileCall p a c).visits s, Recoverable (Mkfs.superblock total) m.platter ∧ CutEffect s p a c m.platter ∧
      ∃ t, FileStart m.platter t := by
  obtain ⟨hsafe, hsb⟩ := safe_reach hm h
  have hcall := wpc_fileCall (p := p) (C := fun D => Recoverable s.files.fs.sb D ∧ CutEffect s p a c D) hsafe a c
    fun _ hrec hcut => ⟨hrec, hcut⟩
  refine ⟨fun r t hrun => (wp_ok hcall.1 hrun).2, fun m hvisit => ?_⟩
  obtain ⟨hrec, hcut⟩ := hcall.2 m hvisit
  rw [hsb] at hrec
  exact ⟨hrec, hcut, exists_fileStart hrec⟩

/-- The default image: a kernel that was cut off when it opened the root directory, and started again. -/
theorem power_safe_default : ∃ img s t, Mkfs.Makes 1000 img ∧ FileStart img.blocks s ∧ PowerStep s t ∧
    ∀ m ∈ (fileCall init openRoot .open).visits t, Recoverable (Mkfs.superblock 1000) m.platter ∧
      CutEffect t init openRoot .open m.platter ∧ ∃ u, FileStart m.platter u := by
  obtain ⟨img, hm, -⟩ := Mkfs.makes 1000 (by unfold Mkfs.NoImage Mkfs.nmeta; decide)
  obtain ⟨s, hs⟩ := fileStart hm
  obtain ⟨-, hcut⟩ := power_safe hm (.start hs) init openRoot .open
  obtain ⟨-, -, t, ht⟩ := hcut s (mem_visits_start _ _)
  have hst : PowerStep s t := ⟨init, openRoot, .open, .cut (mem_visits_start _ _) ht⟩
  exact ⟨img, s, t, hm, hs, hst, (power_safe hm (.next (.start hs) hst) init openRoot .open).2⟩

end Reached

end RiscvOsLab.Kernel
