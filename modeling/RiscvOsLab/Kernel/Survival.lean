import RiscvOsLab.Fs.Growth
import RiscvOsLab.Kernel.Links
import RiscvOsLab.Kernel.PowerCut

/-!
# What survives

Runs of calls on files and power cuts, as `PowerStep` has them.

* `names_survive` : no inode is lost, no file shrinks, and a path that `namei` has found leads to the same inode ever
  after;
* `creations_survive` : a file that `open` has made is found by its path ever after;
* `Touches` : the call writes to an inode or puts a name into it; `files_survive` : what a path leads to reads the same
  as long as no call touches it;
* `writes_survive` : what `write` has written is read back for as long.
-/

namespace RiscvOsLab.Kernel

open Prog Function Bytes
open RiscvOsLab.Fs

/-! ## What a call leaves -/

section Left
variable {s t : Machine} {p : Fin NPROC} {a : Args} {c : FileCall} {sb : Superblock} {D : Nat → Block} {i : Nat}

/-- A new name is put into a directory, where the rest of the path leads, that has no such name. -/
theorem dir_of_create {path : List UInt8} {omode : UInt32} {dir : Nat} {name : Bytes} (hok : Recoverable sb D)
    (hr : openResult sb D path omode = .create dir name) : Used sb (dinodeOf sb D) dir ∧
      (dinodeOf sb D dir).type = T_DIR ∧ lookup D (dinodeOf sb D dir) name = none ∧
      ∃ cs, components path = cs ++ [nameOf name] ∧ resolve sb D ROOTINO cs = some dir := by
  unfold openResult at hr
  split at hr
  · split at hr
    · exact absurd hr (by simp)
    · rename_i d n hw
      split at hr
      · split at hr
        · exact absurd hr (by simp)
        · exact absurd hr (by simp)
      · rename_i hl
        obtain ⟨rfl, rfl⟩ := OpenResult.create.inj hr
        have hparent : (Fs.walk sb D true path fun _ => 0).1 = parentOf sb D ROOTINO (components path) ∧
            ((Fs.walk sb D true path fun _ => 0).1 ≠ none →
              some (nameOf (Fs.walk sb D true path fun _ => 0).2) = (components path).getLast?) := walkFrom_eq_parent
        rw [hw] at hparent
        obtain ⟨hdir, hname⟩ := hparent
        obtain ⟨hused, hd⟩ := hok.used_of_parentOf hdir.symm
        refine ⟨hused, hd, hl, (components path).dropLast, ?_, ?_⟩
        · exact (List.dropLast_append_getLast? _ (hname (by simp)).symm).symm
        · unfold parentOf at hdir
          split at hdir
          · exact absurd hdir (by simp)
          · exact (Option.filter_eq_some_iff.1 hdir.symm).1
  · split at hr
    · exact absurd hr (by simp)
    · split at hr
      · exact absurd hr (by simp)
      · exact absurd hr (by simp)

/-- There is still no such name when the inode has been taken. -/
theorem unnamed_allotted {dir inum : Nat} {name : Bytes} {D₁ : Nat → Block} (hok : Recoverable sb D)
    (hused : Used sb (dinodeOf sb D) dir) (hd : (dinodeOf sb D dir).type = T_DIR)
    (hl : lookup D (dinodeOf sb D dir) name = none) (ha : Allotted sb D D₁ inum T_FILE) :
    lookup D₁ (dinodeOf sb D₁ dir) name = none := by
  rw [← hl]
  exact lookup_allotted (hok.dirs dir hused hd) hused ha name 0 (Nat.dvd_zero _)

/-- An inode is taken, and named as far as the entry is on the disk. -/
theorem grows_linked {dir off inum : Nat} {name : Bytes} {D₁ D' : Nat → Block} (hok : Recoverable sb D)
    (hused : Used sb (dinodeOf sb D) dir) (hd : (dinodeOf sb D dir).type = T_DIR)
    (hl : lookup D (dinodeOf sb D dir) name = none) (ha : Allotted sb D D₁ inum T_FILE)
    (hvac : Vacant D₁ (dinodeOf sb D₁ dir) off)
    (hcut : WriteCut sb D₁ D' dir (mkDirent (UInt16.ofNat inum) name) off DIRENT) : Grows sb D D' := by
  have hgrows := ha.grows hok.dirs
  exact hgrows.trans (hcut.grows_entry (ha.dirs (by decide) (by decide) hok.dirs) (hgrows.used hused)
    ((hgrows.type dir hused).trans hd) hvac ha.pos (ha.lt.trans_le hok.anchored.geo.few)
    (unnamed_allotted hok hused hd hl ha))

theorem CutEffect.grows (h : SafeFiles s.files) (he : CutEffect s p a c D) :
    Grows s.files.fs.sb s.platter D := by
  have hdisk := h.fs.disk
  cases he with
  | untouched => exact .refl _ _
  | @written fd f ip _ hfd hw hip href hcut => exact hcut.grows hdisk.dirs (h.files f ip hip hw)
  | allotted hr ha => exact ha.grows hdisk.dirs
  | linked hr ha hvac hcut =>
      obtain ⟨hused, hd, hl, -⟩ := dir_of_create hdisk hr
      exact grows_linked hdisk hused hd hl ha hvac hcut

/-- The path by which a file is made leads to it. -/
theorem resolve_created {path : List UInt8} {omode : UInt32} {dir inum : Nat} {name : Bytes} {D' : Nat → Block}
    (hok : Recoverable sb D) (hr : openResult sb D path omode = .create dir name) (hc : Created sb D D' dir name inum) :
    resolve sb D' ROOTINO (components path) = some inum ∧ ¬ Used sb (dinodeOf sb D) inum ∧
      (dinodeOf sb D' inum).type = T_FILE := by
  obtain ⟨hused, hd, hl, cs, hcs, hdir⟩ := dir_of_create hok hr
  obtain ⟨D₁, off, ha, hvac, hsplice⟩ := hc.made
  have hgrows := grows_linked hok hused hd hl ha hvac (.whole hsplice)
  have hmap : dirMap D' (dinodeOf sb D' dir) (nameOf name) = some inum := by
    refine hsplice.dirMap_new ?_ hvac ha.pos (ha.lt.trans_le hok.anchored.geo.few) (unnamed_allotted hok hused hd hl ha)
    rw [ha.inode_old hused]
    exact (hok.dirs dir hused hd).size
  refine ⟨?_, ha.free, ?_⟩
  · rw [hcs, resolve_concat, hgrows.resolve hok hok.root hdir]
    exact enter_eq_some_iff.2 ⟨(hgrows.type dir hused).trans hd, hmap⟩
  · rw [hsplice.type ha.lt, ha.inode]

/-- The call writes to inode `i`, or puts a new name into it. -/
def Touches (s : Machine) (p : Fin NPROC) (a : Args) (i : Nat) : FileCall → Prop
  | .write => ∃ fd f ip, fdFile s p (argint a.a0) = some (fd, f) ∧ (s.files.ftable f).writable = true ∧
      (s.files.ftable f).ip = some ip ∧ fileInum s.files ip = i
  | .open => ∃ name, openResult s.files.fs.sb s.files.fs.dev.disk (argstr a.mem a.a0 MAXPATH) (argint a.a1) =
      .create i name
  | .read | .close => False

theorem CutEffect.sameInode (h : SafeFiles s.files) (he : CutEffect s p a c D)
    (hi : Used s.files.fs.sb (dinodeOf s.files.fs.sb s.platter) i) (hno : ¬ Touches s p a i c) :
    SameInode s.files.fs.sb s.platter D i := by
  cases he with
  | untouched => exact .refl _ _ _
  | @written fd f ip _ hfd hw hip href hcut =>
      exact hcut.sameInode hi fun heq => hno ⟨fd, f, ip, hfd, hw, hip, heq.symm⟩
  | @linked dir _ _ name _ _ hr ha hvac hcut =>
      have hgrows := ha.grows h.fs.disk.dirs
      exact (ha.sameInode hi).trans (hcut.sameInode (hgrows.used hi) fun heq => hno ⟨name, heq ▸ hr⟩)
  | allotted hr ha => exact ha.sameInode hi

/-- A call that returns leaves what it might have left had it been cut off at its end. -/
theorem PowerCall.left (h : SafeFiles s.files) (hcall : PowerCall p a c s t) : CutEffect s p a c t.platter := by
  have hwpc := wpc_fileCall (p := p) (C := fun D => Recoverable s.files.fs.sb D ∧ CutEffect s p a c D) h a c
    fun _ hrec hcut => ⟨hrec, hcut⟩
  cases hcall with
  | returned hrun => exact (hwpc.2 t (mem_visits_end hrun)).2
  | cut hvisit hstart =>
      obtain ⟨hrec, hcut⟩ := hwpc.2 _ hvisit
      rwa [(safeFiles_of_fileStart hrec hstart).2.2]

end Left

/-! ## Every run -/

/-- A step that does not touch inode `i`. -/
def Spares (i : Nat) (s t : Machine) : Prop := ∃ p a c, ¬ Touches s p a i c ∧ PowerCall p a c s t

section Reached
variable {total : Nat} {img : Mkfs.State} {s t : Machine} {i : Nat}

theorem grows_run (hm : Mkfs.Makes total img) (h : Reach (FileStart img.blocks) PowerStep s)
    (hst : Relation.ReflTransGen PowerStep s t) : Reach (FileStart img.blocks) PowerStep t ∧
      Grows (Mkfs.superblock total) s.platter t.platter := by
  induction hst with
  | refl => exact ⟨h, .refl _ _⟩
  | tail _ hst ih =>
      obtain ⟨hreach, hgrows⟩ := ih
      obtain ⟨hsafe, hsb⟩ := safe_reach hm hreach
      obtain ⟨p, a, c, hcall⟩ := hst
      have hstep := (hcall.left hsafe).grows hsafe
      rw [hsb] at hstep
      exact ⟨.next hreach ⟨p, a, c, hcall⟩, hgrows.trans hstep⟩

theorem spares_run (hst : Relation.ReflTransGen (Spares i) s t) : Relation.ReflTransGen PowerStep s t := by
  have hstep : ∀ s t, Spares i s t → PowerStep s t := by
    rintro s t ⟨p, a, c, -, hcall⟩
    exact ⟨p, a, c, hcall⟩
  exact Relation.ReflTransGen.mono hstep s t hst

theorem sameInode_run (hm : Mkfs.Makes total img) (h : Reach (FileStart img.blocks) PowerStep s)
    (hi : Used (Mkfs.superblock total) (dinodeOf (Mkfs.superblock total) s.platter) i)
    (hst : Relation.ReflTransGen (Spares i) s t) : SameInode (Mkfs.superblock total) s.platter t.platter i := by
  induction hst with
  | refl => exact .refl _ _ _
  | tail hrun hst ih =>
      obtain ⟨hreach, hgrows⟩ := grows_run hm h (spares_run hrun)
      obtain ⟨hsafe, hsb⟩ := safe_reach hm hreach
      obtain ⟨p, a, c, hno, hcall⟩ := hst
      have hused := hgrows.used hi
      rw [← hsb] at hused
      have hstep := (hcall.left hsafe).sameInode hsafe hused hno
      rw [hsb] at hstep
      exact ih.trans hstep

/-- What an `open` did that made a file. -/
theorem created_of_run {p : Fin NPROC} {a : Args} {r : Int × List UInt8} (h : SafeFiles s.files)
    (hrun : (fileCall p a .open).run s = .ok (r, t)) (hcr : Creates s a .open) : ∃ dir name inum,
      openResult s.files.fs.sb s.platter (argstr a.mem a.a0 MAXPATH) (argint a.a1) = .create dir name ∧
        Created s.files.fs.sb s.platter t.platter dir name inum := by
  obtain ⟨-, heff⟩ := wp_ok (wpc_fileCall (C := fun _ => True) h a .open fun _ _ _ => trivial).1 hrun
  obtain ⟨-, dir, name, hr⟩ := hcr
  have hopened {D' : Nat → Block} {inum : Nat} (hop : Opened s.files.fs.sb s.files.fs.dev.disk D'
      (argstr a.mem a.a0 MAXPATH) (argint a.a1) inum) : Created s.files.fs.sb s.files.fs.dev.disk D' dir name inum := by
    rcases hop with ⟨hfound, -⟩ | ⟨dir', name', hr', hc⟩
    · rw [hr] at hfound
      exact absurd hfound (by simp)
    · rw [hr] at hr'
      obtain ⟨rfl, rfl⟩ := OpenResult.create.inj hr'
      exact hc
  cases heff with
  | openFailed hsame hdisk =>
      rcases hdisk with ⟨hmissing, -⟩ | ⟨inum, hop⟩
      · rw [hr] at hmissing
        exact absurd hmissing (by simp)
      · exact ⟨dir, name, inum, hr, hopened hop⟩
  | opened hsame hop => exact ⟨dir, name, _, hr, hopened hop⟩
  | unopened hc => exact absurd rfl hc

/-- The path of a file that was made, in every later state. -/
theorem resolve_run {p : Fin NPROC} {a : Args} {r : Int × List UInt8} {u : Machine} (hm : Mkfs.Makes total img)
    (h : Reach (FileStart img.blocks) PowerStep s) (hrun : (fileCall p a .open).run s = .ok (r, u))
    (hcr : Creates s a .open) (hst : Relation.ReflTransGen PowerStep u t) : ∃ inum,
      ¬ Used (Mkfs.superblock total) (dinodeOf (Mkfs.superblock total) s.platter) inum ∧
      (dinodeOf (Mkfs.superblock total) t.platter inum).type = T_FILE ∧
      resolve (Mkfs.superblock total) t.platter ROOTINO (components (argstr a.mem a.a0 MAXPATH)) = some inum := by
  obtain ⟨hsafe, hsb⟩ := safe_reach hm h
  obtain ⟨dir, name, inum, hr, hc⟩ := created_of_run hsafe hrun hcr
  obtain ⟨hfound, hnew, htype⟩ := resolve_created hsafe.fs.disk hr hc
  have hreach : Reach (FileStart img.blocks) PowerStep u := .next h ⟨p, a, .open, .returned hrun⟩
  obtain ⟨hsafe', hsb'⟩ := safe_reach hm hreach
  obtain ⟨-, hgrows⟩ := grows_run hm hreach hst
  have hdisk := hsafe'.fs.disk
  rw [hsb'] at hdisk
  rw [hsb] at hfound hnew htype
  have hused := hdisk.used_of_resolve hdisk.root hfound
  exact ⟨inum, hnew, (hgrows.type inum hused).trans htype, hgrows.resolve hdisk hdisk.root hfound⟩

/-- The default image: the power fails when `/a` has been made, and once more in the kernel that is started then. -/
theorem createA_restarts : ∃ img s r u t, Mkfs.Makes 1000 img ∧ FileStart img.blocks s ∧ Creates s createA .open ∧
    (fileCall init createA .open).run s = .ok (r, u) ∧ PowerStep u t ∧ Reach (FileStart img.blocks) PowerStep t ∧
    PowerCall init createA .read t t ∧ (∃ ip v, (namei [slash, 0x61]).run t.files.fs = .ok (some ip, v)) ∧
    ∃ v w, (look [slash, 0x61] 0 32).run t.files.fs = .ok (v, w) := by
  obtain ⟨img, s, r, u, hm, hs, -, hrun, hcr⟩ := createA_runs
  have hsound : Sound u.files := soundFiles_reach hm (.next (.start hs) ⟨_, _, _, _, hrun⟩)
  obtain ⟨t, ht⟩ := exists_fileStart hsound.fs.disk.recoverable
  obtain ⟨hinv, hsb, hdisk⟩ := fsInv_of_fileStart hsound.fs.disk ht
  have hagain : FileStart t.platter t := by
    rw [Machine.platter, Files.platter, State.platter, hdisk]
    exact ht
  have hst : PowerStep u t := ⟨init, createA, .read, .cut (mem_visits_start _ _) ht⟩
  obtain ⟨inum, -, -, hfound⟩ := resolve_run hm (.start hs) hrun hcr (.single hst)
  have hreach : Reach (FileStart img.blocks) PowerStep u := .next (.start hs) ⟨init, createA, .open, .returned hrun⟩
  obtain ⟨-, husb⟩ := safe_reach hm hreach
  have hfree : ∃ a b : Fin NINODE, a ≠ b ∧ (0 : Nat) = 0 ∧ (0 : Nat) = 0 :=
    ⟨⟨0, by decide⟩, ⟨1, by decide⟩, by decide, rfl, rfl⟩
  obtain ⟨-, ⟨q, v, hnamei, hy, -⟩, -⟩ := namei_resolves t.files.fs (fun _ => 0) hinv hfree [slash, 0x61] (by decide)
  have hpath : argstr createA.mem createA.a0 MAXPATH = [slash, 0x61] := by decide
  rw [hpath, ← husb, ← hsb] at hfound
  change resolve _ t.files.fs.dev.disk _ _ = _ at hfound
  rw [hfound] at hy
  obtain ⟨-, ip, rfl, -⟩ := hy
  obtain ⟨x, w, hlook, -⟩ := wp_total (wp_look (E := fun _ => False) hinv [slash, 0x61] 0 32 (.inr hfree))
  exact ⟨img, s, r, u, t, hm, hs, hcr, hrun, hst, hreach.next hst, .cut (mem_visits_start _ _) hagain, ⟨ip, v, hnamei⟩,
    x, w, hlook⟩

/-- No call and no power cut loses an inode, a byte at the end of a file, or a name: a path that `namei` has found leads
to the same inode whenever `namei` returns afterwards. -/
theorem names_survive (hm : Mkfs.Makes total img) (h : Reach (FileStart img.blocks) PowerStep s)
    (hst : Relation.ReflTransGen PowerStep s t) : Grows (Mkfs.superblock total) s.platter t.platter ∧
      ∀ path ip u, (namei path).run s.files.fs = .ok (some ip, u) → ∀ r v, (namei path).run t.files.fs = .ok (r, v) →
        ∃ jp, r = some jp ∧ (v.icache jp).inum = (u.icache ip).inum := by
  obtain ⟨hreach, hgrows⟩ := grows_run hm h hst
  obtain ⟨hsafe, hsb⟩ := safe_reach hm h
  obtain ⟨hsafe', hsb'⟩ := safe_reach hm hreach
  refine ⟨hgrows, fun path ip u hrun r v hrun' => ?_⟩
  have hwas := hsafe.fs.namei_eq hrun
  have his := hsafe'.fs.namei_eq hrun'
  have hdisk := hsafe.fs.disk
  rw [hsb] at hwas hdisk
  rw [hsb'] at his
  have hstill := hgrows.resolve hdisk hdisk.root hwas
  obtain ⟨jp, rfl, hinum⟩ := Option.map_eq_some_iff.1 (his.symm.trans hstill)
  exact ⟨jp, rfl, hinum⟩

/-- `/a` in the default image, when it has been made. -/
theorem names_survive_createA : ∃ img s t, Mkfs.Makes 1000 img ∧ Reach (FileStart img.blocks) PowerStep s ∧
    PowerStep s t ∧ ∃ ip u jp v, (namei [slash, 0x61]).run s.files.fs = .ok (some ip, u) ∧
      (namei [slash, 0x61]).run t.files.fs = .ok (some jp, v) ∧ (v.icache jp).inum = (u.icache ip).inum := by
  obtain ⟨img, -, -, -, t, hm, -, -, -, -, hreach, hcut, ⟨ip, v, hnamei⟩, -⟩ := createA_restarts
  have hstep : PowerStep t t := ⟨init, createA, .read, hcut⟩
  obtain ⟨-, hnames⟩ := names_survive hm hreach (.single hstep)
  obtain ⟨jp, hjp, hinum⟩ := hnames [slash, 0x61] ip v hnamei (some ip) v hnamei
  rw [← Option.some.inj hjp] at hinum
  exact ⟨img, t, t, hm, hreach, hstep, ip, v, ip, v, hnamei, hnamei, hinum⟩

/-! ## What is read -/

/-- What `look` finds, which is what `namei` finds and `readi` reads. -/
theorem lookAt_eq (sb : Superblock) (D : Nat → Block) (path : List UInt8) (off n : UInt32) : lookAt sb D path off n =
    (resolve sb D ROOTINO (components path)).map fun i =>
      ((dinodeOf sb D i).type, (dinodeOf sb D i).size, (readAt D (dinodeOf sb D i) off n).1,
        (readAt D (dinodeOf sb D i) off n).2) := by
  unfold lookAt Fs.walk
  rw [walkFrom_eq_resolve]

theorem look_eq {s t : State} {refs : Fin NINODE → Nat} {path : List UInt8} {off n : UInt32}
    {v : Option (UInt16 × UInt32 × Int × List UInt8)} (h : Safe s refs) (hrun : (look path off n).run s = .ok (v, t)) :
    v = lookAt s.sb s.dev.disk path off n := by
  have hwp : (look path off n).wpc (fun v _ => v = lookAt s.sb s.dev.disk path off n) (fun _ => True) s := by
    unfold look namei
    simp only [wpc_bind]
    refine h.wpc_namex false path _ (C := fun _ => True) trivial (fun name hw t _ _ => ?_)
      fun inum name hw ip t ht hst hi => ?_
    · rw [wpc_pure, wpc_pure]
      unfold lookAt
      rw [hw]
      exact ⟨⟨rfl, trivial⟩, trivial⟩
    · simp only [wpc_pure, wpc_bind, wpc_gets]
      refine ⟨ht.wpc_ilock (C := fun _ => True) (hold_pos refs ip) trivial fun u hu hst' hv => ⟨?_, trivial⟩, trivial⟩
      have hinum : (u.icache ip).inum = inum := (hst'.inum ip (hold_pos refs ip)).trans hi
      have hdin : (u.icache ip).din = dinodeOf s.sb s.dev.disk inum := by
        rw [hu.clean ip hv, hst'.sb, hst'.disk, hst.sb, hst.disk, hinum]
      refine hu.wpc_readi (C := fun _ => True) hv trivial fun v _ _ => ⟨?_, trivial⟩
      rw [hdin, hst'.sb, hst'.disk, hst.sb, hst.disk, hinum]
      unfold lookAt
      rw [hw]
      rfl
  exact wp_ok hwp.1 hrun

/-- As long as no call writes to the inode a path leads to, or puts a name into it, it reads the same by that path,
whatever else is called and wherever the power fails. -/
theorem files_survive {path : List UInt8} {ip : Fin NINODE} {u : State} (hm : Mkfs.Makes total img)
    (h : Reach (FileStart img.blocks) PowerStep s) (hfound : (namei path).run s.files.fs = .ok (some ip, u))
    (hst : Relation.ReflTransGen (Spares (u.icache ip).inum) s t) : ∀ off n v u₁ w u₂,
      (look path off n).run s.files.fs = .ok (v, u₁) → (look path off n).run t.files.fs = .ok (w, u₂) → w = v := by
  intro off n v u₁ w u₂ hrun hrun'
  obtain ⟨hreach, hgrows⟩ := grows_run hm h (spares_run hst)
  obtain ⟨hsafe, hsb⟩ := safe_reach hm h
  obtain ⟨hsafe', hsb'⟩ := safe_reach hm hreach
  have hdisk := hsafe.fs.disk
  have hwas := hsafe.fs.namei_eq hfound
  rw [hsb] at hdisk hwas
  have his : resolve (Mkfs.superblock total) t.files.fs.dev.disk ROOTINO (components path) = _ :=
    hgrows.resolve hdisk hdisk.root hwas
  have hsame : SameInode _ s.files.fs.dev.disk t.files.fs.dev.disk (u.icache ip).inum :=
    sameInode_run hm h (hdisk.used_of_resolve hdisk.root hwas) hst
  rw [look_eq hsafe.fs hrun, look_eq hsafe'.fs hrun', hsb, hsb', lookAt_eq, lookAt_eq, hwas, his]
  simp only [Option.map_some, hsame.inode, hsame.readAt off n]

/-- `/a` in the default image, when it has been made. -/
theorem files_survive_createA : ∃ img s t i, Mkfs.Makes 1000 img ∧ Reach (FileStart img.blocks) PowerStep s ∧
    Spares i s t ∧ ∃ v u₁ u₂, (look [slash, 0x61] 0 32).run s.files.fs = .ok (v, u₁) ∧
      (look [slash, 0x61] 0 32).run t.files.fs = .ok (v, u₂) := by
  obtain ⟨img, -, -, -, t, hm, -, -, -, -, hreach, hcut, ⟨ip, v, hnamei⟩, x, w, hlook⟩ := createA_restarts
  have hstep : Spares (v.icache ip).inum t t := ⟨init, createA, .read, id, hcut⟩
  have hsame := files_survive hm hreach hnamei (.single hstep) 0 32 x w x w hlook hlook
  exact ⟨img, t, t, (v.icache ip).inum, hm, hreach, hstep, x, w, w, hlook, hsame ▸ hlook⟩

/-! ## What is written -/

/-- What a `write` to a file did. -/
theorem written_of_run {p : Fin NPROC} {a : Args} {r : Int × List UInt8} {fd : Fin NOFILE} {f : Fin NFILE}
    {ip : Fin NINODE} (h : SafeFiles s.files) (hrun : (fileCall p a .write).run s = .ok (r, t)) (hr : 0 ≤ r.1)
    (hfd : fdFile s p (argint a.a0) = some (fd, f)) (hip : (s.files.ftable f).ip = some ip) :
    (s.files.ftable f).off.toNat + (argint a.a2).toNat < 2 ^ 32 ∧
      Spliced s.files.fs.sb s.platter t.platter (fileInum s.files ip) (fun i => a.mem (a.a1 + UInt64.ofNat i))
        (s.files.ftable f).off.toNat (argint a.a2).toNat := by
  obtain ⟨-, heff⟩ := wp_ok (wpc_fileCall (C := fun _ => True) h a .write fun _ _ _ => trivial).1 hrun
  cases heff with
  | unopened _ hnone =>
      rw [hfd] at hnone
      exact absurd hnone (by simp)
  | console hcons =>
      have hnone : fdFile s p (argint a.a0) = none := by
        unfold fdFile
        rw [hcons.1, show fdSlot 1 = some ⟨1, by decide⟩ from rfl]
        simp only [hcons.2, Option.map_none]
      rw [hfd] at hnone
      exact absurd hnone (by simp)
  | writeDenied => exact absurd hr (by decide)
  | writeRefused => exact absurd hr (by decide)
  | written hfd' hw hip' hslots href hsplice =>
      rw [hfd] at hfd'
      obtain ⟨rfl, rfl⟩ := Prod.mk.inj (Option.some.inj hfd')
      rw [hip] at hip'
      obtain rfl := Option.some.inj hip'
      unfold Refused at href
      refine ⟨by omega, ?_⟩
      change Spliced _ _ (moved _ _ _).fs.dev.disk _ _ _ _
      rwa [moved_fs]

/-- What `write` has written when it returns is read back by the path of the file, whatever is called and wherever the
power fails, until a call touches the file again. -/
theorem writes_survive {p : Fin NPROC} {a : Args} {r : Int × List UInt8} {u : Machine} {fd : Fin NOFILE}
    {f : Fin NFILE} {ip jp : Fin NINODE} {path : List UInt8} {v₀ w : State}
    {v : Option (UInt16 × UInt32 × Int × List UInt8)} (hm : Mkfs.Makes total img)
    (h : Reach (FileStart img.blocks) PowerStep s) (hrun : (fileCall p a .write).run s = .ok (r, u)) (hr : 0 ≤ r.1)
    (hfd : fdFile s p (argint a.a0) = some (fd, f)) (hip : (s.files.ftable f).ip = some ip)
    (hfound : (namei path).run s.files.fs = .ok (some jp, v₀)) (hsame : (v₀.icache jp).inum = fileInum s.files ip)
    (hst : Relation.ReflTransGen (Spares (fileInum s.files ip)) u t)
    (hlook : (look path (s.files.ftable f).off (argint a.a2)).run t.files.fs = .ok (v, w)) : ∃ type size,
      v = some (type, size, ((argint a.a2).toNat : Int),
        (List.range (argint a.a2).toNat).map fun i => a.mem (a.a1 + UInt64.ofNat i)) := by
  obtain ⟨hsafe, hsb⟩ := safe_reach hm h
  obtain ⟨hlt, hsplice⟩ := written_of_run hsafe hrun hr hfd hip
  have hstep : PowerStep s u := ⟨p, a, .write, .returned hrun⟩
  obtain ⟨-, hgrows⟩ := grows_run hm h (.single hstep)
  obtain ⟨hreach, hgrows'⟩ := grows_run hm (h.next hstep) (spares_run hst)
  obtain ⟨hsafe', hsb'⟩ := safe_reach hm hreach
  have hdisk := hsafe.fs.disk
  have hwas := hsafe.fs.namei_eq hfound
  rw [hsb] at hdisk hwas hsplice
  change _ = some (v₀.icache jp).inum at hwas
  rw [hsame] at hwas
  have hused := hdisk.used_of_resolve hdisk.root hwas
  have his : resolve (Mkfs.superblock total) t.files.fs.dev.disk ROOTINO (components path) = _ :=
    (hgrows.trans hgrows').resolve hdisk hdisk.root hwas
  have hkept : SameInode _ u.platter t.files.fs.dev.disk (fileInum s.files ip) :=
    sameInode_run hm (h.next hstep) (hgrows.used hused) hst
  have hread := hsplice.readAt hlt
  rw [look_eq hsafe'.fs hlook, hsb', lookAt_eq, his, Option.map_some, hkept.inode, hkept.readAt, hread]
  exact ⟨_, _, rfl⟩

end Reached

end RiscvOsLab.Kernel
