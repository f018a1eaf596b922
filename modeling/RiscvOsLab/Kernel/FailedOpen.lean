import RiscvOsLab.Kernel.Links
import RiscvOsLab.Kernel.Refinement

/-!
# `sys_open` that fails

A call that finds no inode leaves before anything is changed. The two exits after that, for a full file table and for a
full descriptor table, give back the inode and the entry of the file table; the file that was made for the call stays on
the disk.

* `open_failing_iff` : a failing call changes nothing exactly when it makes no file;
* `open_failing_leaves` : init with sixteen descriptors, and a file that stays.
-/

namespace RiscvOsLab.Kernel

open Prog Function Bytes
open RiscvOsLab.Fs

/-- The directories, what is allocated, the references and the descriptors of the caller are the same. -/
structure Unaffected (p : Fin NPROC) (s t : Machine) : Prop where
  dirs : ∀ i, Used s.files.fs.sb (dinodeOf s.files.fs.sb s.files.fs.dev.disk) i →
    (dinodeOf s.files.fs.sb s.files.fs.dev.disk i).type = T_DIR →
    fileBytes t.files.fs.dev.disk (dinodeOf t.files.fs.sb t.files.fs.dev.disk i) =
      fileBytes s.files.fs.dev.disk (dinodeOf s.files.fs.sb s.files.fs.dev.disk i)
  inodes : ∀ i, Used t.files.fs.sb (dinodeOf t.files.fs.sb t.files.fs.dev.disk) i ↔
    Used s.files.fs.sb (dinodeOf s.files.fs.sb s.files.fs.dev.disk) i
  blocks : ∀ b, marked t.files.fs.sb t.files.fs.dev.disk b = marked s.files.fs.sb s.files.fs.dev.disk b
  icache : ∀ ip, (t.files.fs.icache ip).ref = (s.files.fs.icache ip).ref
  ftable : ∀ f, (t.files.ftable f).ref = (s.files.ftable f).ref
  ofile : (t.proc p).ofile = (s.proc p).ofile

section Failing
variable {s t : Machine} {p : Fin NPROC} {a : Args}

/-- `fileclose` of the only reference. -/
theorem wp_fileclose_entries {s : Files} {f : Fin NFILE} (href : (s.ftable f).ref = 1) :
    (fileclose f).wp (fun _ t => ∀ g, (t.ftable g).ref = if g = f then 0 else (s.ftable g).ref)
      (fun _ => True) s := by
  have hentries (v : File) (hv : v.ref = 0) (g : Fin NFILE) :
      ((s.setFile f v).ftable g).ref = if g = f then 0 else (s.ftable g).ref := by
    by_cases hg : g = f
    · rw [hg, Files.setFile_self, if_pos rfl, hv]
    · rw [Files.setFile_of_ne hg, if_neg hg]
  unfold fileclose
  rw [wp_bind, wp_gets, href, if_neg (by decide), wp_bind, wp_modify, if_neg (by decide), wp_bind, wp_modify,
    Files.setFile_setFile]
  split
  · rw [wp_liftFs]
    exact wp_any _ fun _ _ => hentries _ (by rw [Files.setFile_self]; rfl)
  · exact hentries _ (by rw [Files.setFile_self]; rfl)

/-- The failing exits give the entry of the file table back. -/
theorem wp_sysOpen_entries (s : Machine) (p : Fin NPROC) (a : Args) :
    (sysOpen p a).wp (fun r t => r = -1 → (∀ f, (t.files.ftable f).ref = (s.files.ftable f).ref) ∧ t.proc = s.proc)
      (fun _ => True) s := by
  simp only [sysOpen, wp_bind, wp_liftFiles, wp_liftFs]
  refine wp_any _ fun r t => ?_
  cases r with
  | none => exact fun _ => ⟨fun _ => rfl, rfl⟩
  | some ip =>
      simp only [wp_bind, wp_liftFiles, filealloc, wp_get]
      cases hf : (List.finRange NFILE).find? fun f => (s.files.ftable f).ref == 0 with
      | none =>
          simp only [wp_bind, wp_liftFiles, wp_liftFs, wp_pure]
          exact wp_any _ fun _ _ => wp_any _ fun _ _ _ => ⟨fun _ => trivial, trivial⟩
      | some f =>
          have hzero : (s.files.ftable f).ref = 0 := by simpa using List.find?_some hf
          simp only [wp_bind, wp_modify, wp_pure, wp_gets]
          split
          · simp only [wp_bind, wp_liftFiles, wp_liftFs, wp_pure]
            refine wp_post (wp_fileclose_entries ?_) fun _ u hu => wp_any _ fun _ _ => wp_any _ fun _ _ _ =>
              ⟨fun g => ?_, trivial⟩
            · rw [Files.setFile_self]
            · rw [hu g]
              by_cases hg : g = f
              · rw [if_pos hg, hg, hzero]
              · rw [if_neg hg, Files.setFile_of_ne hg]
          · simp only [wp_bind, wp_liftFiles, wp_liftFs, wp_modify, wp_pure]
            exact wp_any _ fun _ _ hr => absurd hr (by omega)

/-- A file that is made takes an inode. -/
theorem Created.used {sb : Superblock} {D D' : Nat → Block} {dir inum : Nat} {name : Bytes}
    (h : Created sb D D' dir name inum) : Used sb (dinodeOf sb D') inum ∧ ¬ Used sb (dinodeOf sb D) inum := by
  have htype := h.type
  obtain ⟨D₁, off, ha, -, -⟩ := h.made
  refine ⟨⟨ha.lt, ?_⟩, ha.free⟩
  rw [htype]
  decide

/-- The disk after a call that succeeds or fails. -/
theorem CallEffect.disk_of_open {r : Int × List UInt8} (h : CallEffect s p a .open r t) :
    (Creates s a .open → ∃ dir name inum,
      Created s.files.fs.sb s.files.fs.dev.disk t.files.fs.dev.disk dir name inum) ∧
    (¬ Creates s a .open → t.files.fs.dev.disk = s.files.fs.dev.disk) := by
  have hopened {D' : Nat → Block} {inum : Nat} (h : Opened s.files.fs.sb s.files.fs.dev.disk D'
      (argstr a.mem a.a0 MAXPATH) (argint a.a1) inum) :
      (Creates s a .open → ∃ dir name inum, Created s.files.fs.sb s.files.fs.dev.disk D' dir name inum) ∧
      (¬ Creates s a .open → D' = s.files.fs.dev.disk) := by
    rcases h with ⟨hfound, hD⟩ | ⟨dir, name, hcreate, hmade⟩
    · exact ⟨fun ⟨_, _, _, hcreate⟩ => absurd (hfound.symm.trans hcreate) (by simp), fun _ => hD⟩
    · exact ⟨fun _ => ⟨dir, name, inum, hmade⟩, fun hno => absurd ⟨rfl, dir, name, hcreate⟩ hno⟩
  cases h with
  | openFailed hsame hdisk =>
      rcases hdisk with ⟨hmiss, hD⟩ | ⟨inum, hop⟩
      · exact ⟨fun ⟨_, _, _, hcreate⟩ => absurd (hmiss.symm.trans hcreate) (by simp), fun _ => hD⟩
      · exact hopened hop
  | opened hsame hop => exact hopened hop
  | unopened hne => exact absurd rfl hne

/-- What a failing call on a sound file system leaves. -/
theorem failed_effect (hs : Sound s.files) (hrun : (sysOpen p a).run s = .ok (-1, t)) :
    Sound t.files ∧ SameOpen s.files t.files ∧ CallEffect s p a .open (-1, []) t := by
  obtain ⟨hsound, heff⟩ := wp_ok (sound_sysOpen (E := fun _ => True) hs a (.inl fun _ _ => trivial)) hrun
  refine ⟨hsound, ?_, heff⟩
  generalize hr : ((-1 : Int), ([] : List UInt8)) = r at heff
  cases heff with
  | openFailed hsame => exact hsame
  | opened =>
      have := (Prod.mk.inj hr).1
      omega
  | unopened hne => exact absurd rfl hne

/-- The references to inodes are those of the open files, and these are the same. -/
theorem sameOpen_refs {s t : Files} (hs : Sound s) (ht : Sound t) (hsame : SameOpen s t)
    (hentries : ∀ f, (t.ftable f).ref = (s.ftable f).ref) (ip : Fin NINODE) :
    (t.fs.icache ip).ref = (s.fs.icache ip).ref := by
  have hpointers : pointers t = pointers s := by
    funext f
    unfold pointers
    by_cases hf : 0 < (s.ftable f).ref
    · rw [hsame.entries f hf]
    · have hnil {u : Files} (hu : Sound u) (href : (u.ftable f).ref = (s.ftable f).ref) : (u.ftable f).ip = none := by
        by_contra hip
        have := hu.live f hip
        omega
      rw [hnil ht (hentries f), hnil hs rfl]
  have hrefs : openRefs t = openRefs s := by
    unfold openRefs
    rw [hpointers]
  rw [ht.fs.counts.ref, hs.fs.counts.ref, hrefs]

/-- The property of one call, on a sound file system. -/
theorem unaffected_iff (hs : Sound s.files) (hrun : (sysOpen p a).run s = .ok (-1, t)) :
    Unaffected p s t ↔ ¬ Creates s a .open := by
  obtain ⟨ht, hsame, heff⟩ := failed_effect hs hrun
  obtain ⟨hentries, hproc⟩ := wp_ok (wp_sysOpen_entries s p a) hrun rfl
  constructor
  · intro hun hcreate
    obtain ⟨dir, name, inum, hc⟩ := heff.disk_of_open.1 hcreate
    have hused := hun.inodes inum
    rw [hsame.sb] at hused
    exact hc.used.2 (hused.1 hc.used.1)
  · intro hno
    have hD := heff.disk_of_open.2 hno
    have hsb := hsame.sb
    refine ⟨fun i _ _ => ?_, fun i => ?_, fun b => ?_, sameOpen_refs hs ht hsame hentries, hentries, ?_⟩
    · rw [hsb, hD]
    · rw [hsb, hD]
    · rw [hsb, hD]
    · rw [hproc]

end Failing

section Reached
variable {total : Nat} {img : Mkfs.State} {s t : Machine} {p : Fin NPROC} {a : Args}

/-- **A failing `sys_open` changes nothing exactly when it makes no file**, in every state of every run of calls. -/
theorem open_failing_iff (hm : Mkfs.Makes total img) (h : Reach (FileStart img.blocks) (CallStep fun _ _ _ => True) s)
    (hrun : (sysOpen p a).run s = .ok (-1, t)) : Unaffected p s t ↔ ¬ Creates s a .open :=
  unaffected_iff (soundFiles_calls hm h).1 hrun

/-- Without `O_CREAT` no file is made. -/
theorem not_creates_of_mode (h : ¬ argint a.a1 &&& O_CREAT ≠ 0) (s : Machine) : ¬ Creates s a .open := by
  rintro ⟨-, dir, name, hcreate⟩
  unfold openResult at hcreate
  rw [if_neg h] at hcreate
  split at hcreate
  · exact absurd hcreate (by simp)
  · split at hcreate <;> exact absurd hcreate (by simp)

end Reached

/-! ## A full descriptor table -/

/-- The kernel with a disk mounted. -/
def mountedKernel (disk : Nat → Block) : Machine :=
  { Machine.image disk 0 with
    files :=
      { (Machine.image disk 0).files with
        fs := (do lift binit; fsinit ROOTDEV : Prog State Unit).exec (Machine.image disk 0).files.fs } }

theorem fileStart_mountedKernel {disk : Nat → Block}
    (hrun : ((do lift binit; fsinit ROOTDEV : Prog State Unit).run (Machine.image disk 0).files.fs).toOption.map
      Prod.fst = some ()) : FileStart disk (mountedKernel disk) := by
  refine ⟨?_, ?_, ?_⟩
  · unfold mountedKernel
    dsimp only
    exact run_exec_eq hrun
  · unfold mountedKernel
    rfl
  · exact fun _ _ => rfl

/-- The image of 24 blocks. -/
def smallImage : Mkfs.State := (Mkfs.main 24).exec Mkfs.boot

theorem makes_smallImage : Mkfs.Makes 24 smallImage := run_exec_eq (by decide +kernel)

/-- Init opens the root directory `n` times. -/
def opens (n : Nat) : Prog Machine Unit :=
  forN (fun _ => do let _ ← fileCall init openRoot .open; return ()) n

/-- Every descriptor of init is open. -/
def fullMounted : Machine := (opens 16).exec (mountedKernel smallImage.blocks)

/-- The disk stays as it is while the root is opened. -/
theorem reach_opens {total n : Nat} {img : Mkfs.State} {s t : Machine} (hm : Mkfs.Makes total img)
    (hs : Reach (FileStart img.blocks) (CallStep fun _ _ _ => True) s) (hrun : (opens n).run s = .ok ((), t)) :
    Reach (FileStart img.blocks) (CallStep fun _ _ _ => True) t ∧ t.files.fs.dev.disk = s.files.fs.dev.disk := by
  refine wp_ok (Q := fun _ t => Reach (FileStart img.blocks) (CallStep fun _ _ _ => True) t ∧
    t.files.fs.dev.disk = s.files.fs.dev.disk) (E := fun _ => True) ?_ hrun
  refine wp_forN (fun _ t => Reach (FileStart img.blocks) (CallStep fun _ _ _ => True) t ∧
    t.files.fs.dev.disk = s.files.fs.dev.disk) ⟨hs, rfl⟩ fun _ t _ ⟨ht, hdisk⟩ => ?_
  rw [wp_bind, wp_iff]
  refine ⟨fun r u hrun => ⟨ht.next (.file trivial hrun), ?_⟩, fun _ _ => trivial⟩
  exact ((effect_of_run (soundFiles_calls hm ht).1 hrun).disk_of_open.2 (not_creates_of_mode (by decide) t)).trans hdisk

/-- The arguments of `open("/", O_WRONLY)`. -/
def openRootW : Args := { openRoot with a1 := 1 }

theorem reach_mountedKernel : Reach (FileStart smallImage.blocks) (CallStep fun _ _ _ => True)
    (mountedKernel smallImage.blocks) := .start (fileStart_mountedKernel (by decide +kernel))

/-- A directory cannot be opened for writing, and the call that tries changes nothing. -/
theorem open_failing_directory : ∃ t, (sysOpen init openRootW).run (mountedKernel smallImage.blocks) = .ok (-1, t) ∧
    Unaffected init (mountedKernel smallImage.blocks) t := by
  have hrun := run_exec_eq (p := sysOpen init openRootW) (s := mountedKernel smallImage.blocks) (a := -1)
    (by decide +kernel)
  have hiff := open_failing_iff makes_smallImage reach_mountedKernel hrun
  exact ⟨_, hrun, hiff.2 (not_creates_of_mode (by decide) _)⟩

/-- With one inode open, there are slots to spare. -/
theorem spare_of_one {s : Files} {ip : Fin NINODE} (h : ∀ f, (s.ftable f).ip = none ∨ (s.ftable f).ip = some ip) :
    2 < spare (openRefs s) := by
  have hzero (jp : Fin NINODE) (hjp : jp ≠ ip) : openRefs s jp = 0 := by
    refine Finset.card_eq_zero.2 (Finset.eq_empty_of_forall_notMem fun f hf => ?_)
    have hpointer : pointers s f = some jp := mem_fiber.1 hf
    unfold pointers at hpointer
    rcases h f with hnone | hsome
    · rw [hnone] at hpointer
      exact absurd hpointer (by simp)
    · exact hjp (Option.some.inj (hpointer.symm.trans hsome))
  have hle : (Finset.univ.erase ip).card ≤ spare (openRefs s) := by
    refine Finset.card_le_card fun jp hjp => ?_
    rw [Finset.mem_filter]
    exact ⟨Finset.mem_univ jp, hzero jp (Finset.ne_of_mem_erase hjp)⟩
  rw [Finset.card_erase_of_mem (Finset.mem_univ ip), Finset.card_univ, Fintype.card_fin] at hle
  exact lt_of_lt_of_le (by decide) hle

/-- With no descriptor left, init's `open("/a", O_CREAT | O_RDWR)` fails, and leaves the file. -/
theorem open_failing_leaves : ∃ img s t, Mkfs.Makes 24 img ∧
    Reach (FileStart img.blocks) (CallStep fun _ _ _ => True) s ∧ (sysOpen init createA).run s = .ok (-1, t) ∧
    ¬ Unaffected init s t := by
  have hopens : (opens 16).run (mountedKernel smallImage.blocks) = .ok ((), fullMounted) := by
    unfold fullMounted
    exact run_exec_eq (by decide +kernel)
  have hfull : ∀ i, (fullMounted.proc init).ofile i ≠ none := by decide +kernel
  have hone : ∀ f, (fullMounted.files.ftable f).ip = none ∨
      (fullMounted.files.ftable f).ip = some ⟨0, by decide⟩ := by decide +kernel
  generalize fullMounted = full at hopens hfull hone
  obtain ⟨hreach, hdisk⟩ := reach_opens makes_smallImage reach_mountedKernel hopens
  obtain ⟨hsound, hsb⟩ := soundFiles_calls makes_smallImage hreach
  have hblocks := (sound_start makes_smallImage (fileStart_mountedKernel (by decide +kernel))).2.2
  rw [hblocks] at hdisk
  have hroom := room_image makes_smallImage (by decide) hsb hdisk (spare_of_one hone)
  obtain ⟨r, t, hrun, -, heff⟩ := wp_total (sound_sysOpen (p := init) hsound createA (.inr hroom))
  have hr : r = -1 := by
    generalize hc : FileCall.open = c at heff
    generalize hr' : (r, ([] : List UInt8)) = r' at heff
    cases heff with
    | openFailed => exact (Prod.mk.inj hr').1
    | opened _ _ hfd => exact absurd hfd (hfull _)
    | unopened hne => exact absurd hc.symm hne
    | _ => exact absurd hc (by decide)
  rw [hr] at hrun
  refine ⟨smallImage, full, t, makes_smallImage, hreach, hrun, fun hun => ?_⟩
  exact (unaffected_iff hsound hrun).1 hun (creates_createA makes_smallImage hsb hdisk)

end RiscvOsLab.Kernel
