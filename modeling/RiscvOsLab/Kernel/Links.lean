import RiscvOsLab.Kernel.Descriptors
import RiscvOsLab.Kernel.Durable
import Mathlib.Algebra.BigOperators.Group.Finset.Basic
import Mathlib.Algebra.Order.BigOperators.Group.Finset

/-!
# Link counts

`nlink` of a file should be the number of entries that name it (`LinkLaw`). `mkfs` gives an inode one link when it is
made; `ialloc` of the kernel clears the dinode and `dirlink` does not touch the count, so every file made by `sys_open`
is named with a count of 0, and stays so (`Unlinked`). The law holds exactly in the runs in which no file is made
(`linkLaw_iff`).
-/

namespace RiscvOsLab.Kernel

open Prog Function Bytes
open RiscvOsLab.Fs

/-! ## The law -/

/-- The entries of one directory that name inode `i`. -/
def namesIn (D : Nat → Block) (din : Dinode) (i : Nat) : Nat :=
  ((Finset.range (din.size.toNat / DIRENT)).filter fun e => (deInum (direntAt D din (DIRENT * e))).toNat = i).card

/-- The entries that name inode `i`. -/
def links (sb : Superblock) (D : Nat → Block) (i : Nat) : Nat :=
  ∑ d ∈ Finset.range sb.ninodes, if (dinodeOf sb D d).type = T_DIR then namesIn D (dinodeOf sb D d) i else 0

/-- A file in use that is named has as many links as names, and so at least one. -/
structure LinkLaw (sb : Superblock) (D : Nat → Block) : Prop where
  count : ∀ i, i ≠ 0 → Used sb (dinodeOf sb D) i → (dinodeOf sb D i).type = T_FILE → 0 < links sb D i →
    (dinodeOf sb D i).nlink.toNat = links sb D i
  alive : ∀ i, i ≠ 0 → Used sb (dinodeOf sb D) i → (dinodeOf sb D i).type = T_FILE → 0 < links sb D i →
    (dinodeOf sb D i).nlink ≠ 0

/-- The entry at `off` of directory `dir` names inode `i`. -/
structure Names (sb : Superblock) (D : Nat → Block) (dir off i : Nat) : Prop where
  used : Used sb (dinodeOf sb D) dir
  type : (dinodeOf sb D dir).type = T_DIR
  aligned : DIRENT ∣ off
  fits : off + DIRENT ≤ (dinodeOf sb D dir).size.toNat
  inum : (deInum (direntAt D (dinodeOf sb D dir) off)).toNat = i

theorem Names.links_pos {sb : Superblock} {D : Nat → Block} {dir off i : Nat} (h : Names sb D dir off i) :
    0 < links sb D i := by
  obtain ⟨e, rfl⟩ := h.aligned
  have hin : e ∈ (Finset.range ((dinodeOf sb D dir).size.toNat / DIRENT)).filter fun e =>
      (deInum (direntAt D (dinodeOf sb D dir) (DIRENT * e))).toNat = i := by
    rw [Finset.mem_filter, Finset.mem_range]
    refine ⟨?_, h.inum⟩
    have hfits := h.fits
    unfold DIRENT at hfits ⊢
    omega
  have hone : 0 < namesIn D (dinodeOf sb D dir) i := Finset.card_pos.2 ⟨e, hin⟩
  calc 0 < if (dinodeOf sb D dir).type = T_DIR then namesIn D (dinodeOf sb D dir) i else 0 := by
        rw [if_pos h.type]
        exact hone
    _ ≤ links sb D i := Finset.single_le_sum
        (f := fun d => if (dinodeOf sb D d).type = T_DIR then namesIn D (dinodeOf sb D d) i else 0)
        (fun _ _ => Nat.zero_le _) (Finset.mem_range.2 h.used.1)

/-- A file that is named without a link. -/
structure Unlinked (sb : Superblock) (D : Nat → Block) (i : Nat) : Prop where
  pos : i ≠ 0
  used : Used sb (dinodeOf sb D) i
  type : (dinodeOf sb D i).type = T_FILE
  nlink : (dinodeOf sb D i).nlink = 0
  named : ∃ dir off, Names sb D dir off i

theorem Unlinked.not_linkLaw {sb : Superblock} {D : Nat → Block} {i : Nat} (h : Unlinked sb D i) : ¬ LinkLaw sb D := by
  intro hl
  obtain ⟨dir, off, hn⟩ := h.named
  exact hl.alive i h.pos h.used h.type hn.links_pos h.nlink

/-- No file is in use. -/
def Fileless (sb : Superblock) (D : Nat → Block) : Prop :=
  ∀ i, Used sb (dinodeOf sb D) i → (dinodeOf sb D i).type ≠ T_FILE

theorem Fileless.linkLaw {sb : Superblock} {D : Nat → Block} (h : Fileless sb D) : LinkLaw sb D :=
  ⟨fun i _ hu ht => absurd ht (h i hu), fun i _ hu ht => absurd ht (h i hu)⟩

/-! ## What changes the disk -/

section Change
variable {sb : Superblock} {D D' : Nat → Block} {i : Nat}

/-- The disk after a call: as it was, or with bytes of a file replaced, or with a file made. -/
inductive Change (sb : Superblock) (D D' : Nat → Block) : Prop
  | same : D' = D → Change sb D D'
  | written {i : Nat} {src : Bytes} {off n : Nat} : Used sb (dinodeOf sb D) i → (dinodeOf sb D i).type ≠ T_DIR →
      Spliced sb D D' i src off n → Change sb D D'
  | created {dir inum : Nat} {name : Bytes} : Created sb D D' dir name inum → Change sb D D'

/-- A new file is named without a link. -/
theorem Created.unlinked {dir inum : Nat} {name : Bytes} (h : Created sb D D' dir name inum) (hfew : sb.ninodes ≤ 2 ^ 16) :
    Unlinked sb D' inum := by
  obtain ⟨D₁, off, ha, hvac, hsplice⟩ := h.made
  obtain ⟨hused, htype⟩ := h.parent
  have hne : inum ≠ dir := fun he => ha.free (he ▸ hused)
  have hin : dinodeOf sb D' inum = { Dinode.zero with type := T_FILE } := by
    rw [hsplice.others inum ha.lt hne, ha.inode]
  have hdir := ha.inode_old hused
  refine ⟨Nat.ne_of_gt ha.pos, ⟨ha.lt, by rw [hin]; exact (by decide : T_FILE ≠ 0)⟩, by rw [hin], by rw [hin]; rfl,
    dir, off, ?_, ?_, hvac.aligned, ?_, ?_⟩
  · exact (hsplice.used dir).2 ((ha.used (by decide) dir).2 (.inl hused))
  · rw [hsplice.type hused.1, hdir, htype]
  · rw [hsplice.size]
    exact le_max_right _ _
  · rw [hsplice.deInum_new, deInum_mkDirent, UInt16.toNat_ofNat', Nat.mod_eq_of_lt (ha.lt.trans_le hfew)]

/-- Names stay when bytes of a file are replaced. -/
theorem Names.written {dir off k : Nat} {src : Bytes} {o n : Nat} (h : Names sb D dir off k)
    (hfile : (dinodeOf sb D i).type ≠ T_DIR) (hs : Spliced sb D D' i src o n) : Names sb D' dir off k := by
  have hne : dir ≠ i := fun he => hfile (he ▸ h.type)
  have hdin := hs.others dir h.used.1 hne
  refine ⟨(hs.used dir).2 h.used, by rw [hdin, h.type], h.aligned, by rw [hdin]; exact h.fits, ?_⟩
  rw [hs.direntAt_other h.used hne h.fits]
  exact h.inum

theorem Names.allotted {dir off k : Nat} {type : UInt16} (h : Names sb D dir off k) (ht : type ≠ 0)
    (ha : Allotted sb D D' i type) : Names sb D' dir off k := by
  have hdin := ha.inode_old h.used
  refine ⟨(ha.used ht dir).2 (.inl h.used), by rw [hdin, h.type], h.aligned, by rw [hdin]; exact h.fits, ?_⟩
  rw [ha.direntAt_old h.used h.fits]
  exact h.inum

/-- Names stay when an entry is written into a vacant place. -/
theorem Names.entered {dir off k d o : Nat} {e : Bytes} (h : Names sb D dir off k) (hk : k ≠ 0)
    (hvac : Vacant D (dinodeOf sb D d) o) (hs : Spliced sb D D' d e o DIRENT) : Names sb D' dir off k := by
  by_cases hd : dir = d
  · rw [← hd] at hvac hs
    have hfits := h.fits
    have hne : off ≠ o := by
      rintro rfl
      have hzero := hvac.free (by unfold DIRENT at hfits; omega)
      exact hk (by rw [← h.inum, hzero]; rfl)
    refine ⟨(hs.used dir).2 h.used, (hs.type h.used.1).trans h.type, h.aligned, ?_, ?_⟩
    · rw [hs.size]
      exact hfits.trans (le_max_left _ _)
    · rw [hs.direntAt_old hvac.aligned h.aligned hne hfits]
      exact h.inum
  · have hdin := hs.others dir h.used.1 hd
    refine ⟨(hs.used dir).2 h.used, by rw [hdin, h.type], h.aligned, by rw [hdin]; exact h.fits, ?_⟩
    rw [hs.direntAt_other h.used hd h.fits]
    exact h.inum

/-- A file without a link stays without one. -/
theorem Unlinked.changed (h : Unlinked sb D i) (hc : Change sb D D') : Unlinked sb D' i := by
  obtain ⟨dir, off, hn⟩ := h.named
  cases hc with
  | same he => exact he ▸ h
  | @written j _ _ _ hu hfile hs =>
      have hlink : (dinodeOf sb D' i).nlink = (dinodeOf sb D i).nlink := by
        by_cases hij : i = j
        · obtain ⟨addrs, he⟩ := hs.inode
          rw [hij, he]
        · rw [hs.others i h.used.1 hij]
      exact ⟨h.pos, (hs.used i).2 h.used, (hs.type h.used.1).trans h.type, hlink.trans h.nlink, dir, off,
        hn.written hfile hs⟩
  | @created d inum name hc =>
      obtain ⟨D₁, o, ha, hvac, hs⟩ := hc.made
      have hold := ha.inode_old h.used
      have hu₁ := (ha.used (by decide) i).2 (.inl h.used)
      -- the directory is not the file
      have hne : i ≠ d := by
        rintro rfl
        have ht := h.type
        rw [hc.parent.2] at ht
        exact absurd ht (by decide)
      have hin := (hs.others i hu₁.1 hne).trans hold
      refine ⟨h.pos, (hs.used i).2 hu₁, by rw [hin, h.type], by rw [hin, h.nlink], dir, off, ?_⟩
      exact (hn.allotted (by decide) ha).entered h.pos hvac hs

theorem Fileless.written {src : Bytes} {off n : Nat} (h : Fileless sb D) (hs : Spliced sb D D' i src off n) :
    Fileless sb D' := by
  intro k hk
  have hu := (hs.used k).1 hk
  rw [hs.type hu.1]
  exact h k hu

end Change

/-! ## Runs of calls -/

/-- `sys_open` makes a file. -/
def Creates (s : Machine) (a : Args) (c : FileCall) : Prop :=
  c = .open ∧ ∃ dir name, openResult s.files.fs.sb s.files.fs.dev.disk (argstr a.mem a.a0 MAXPATH) (argint a.a1) =
    .create dir name

/-- A completed call, of any process; the calls on files may be restricted. -/
inductive CallStep (may : Machine → Args → FileCall → Prop) : Machine → Machine → Prop
  | file {s t : Machine} {p : Fin NPROC} {a : Args} {c : FileCall} {r : Int × List UInt8} :
      may s a c → (fileCall p a c).run s = .ok (r, t) → CallStep may s t
  | fork {s t : Machine} {p : Fin NPROC} {r : Option (Fin NPROC)} : (fork p).run s = .ok (r, t) → CallStep may s t
  | exit {s t : Machine} {p : Fin NPROC} {status : Int32} {r : Unit} : (exit p status).run s = .ok (r, t) →
      CallStep may s t
  | wait {s t : Machine} {p : Fin NPROC} {r : WaitEnd} : (waitPass p).run s = .ok (r, t) → CallStep may s t
  | woken {s t : Machine} {p : Fin NPROC} {r : WaitEnd} : (waitResume p).run s = .ok (r, t) → CallStep may s t

theorem moved_fs (s : Files) (f : Fin NFILE) (r : Int) : (moved s f r).fs = s.fs := by
  unfold moved
  split <;> rfl

/-- The disk after a call on files, and whether one was made. -/
theorem CallEffect.change {s t : Machine} {p : Fin NPROC} {a : Args} {c : FileCall} {r : Int × List UInt8}
    (hs : Sound s.files) (h : CallEffect s p a c r t) :
    Change s.files.fs.sb s.files.fs.dev.disk t.files.fs.dev.disk ∧
      (¬ Creates s a c → Fileless s.files.fs.sb s.files.fs.dev.disk →
        Fileless s.files.fs.sb t.files.fs.dev.disk) ∧
      (Creates s a c → ∃ dir name inum, Created s.files.fs.sb s.files.fs.dev.disk t.files.fs.dev.disk dir name inum) := by
  -- the disk stays as it is, in a call that makes no file
  have hsame {D' : Nat → Block} (hD : D' = s.files.fs.dev.disk) (hno : ¬ Creates s a c) :
      Change s.files.fs.sb s.files.fs.dev.disk D' ∧
        (¬ Creates s a c → Fileless s.files.fs.sb s.files.fs.dev.disk → Fileless s.files.fs.sb D') ∧
        (Creates s a c → ∃ dir name inum, Created s.files.fs.sb s.files.fs.dev.disk D' dir name inum) :=
    ⟨.same hD, fun _ hf => hD ▸ hf, fun hc => absurd hc hno⟩
  have hopened {D' : Nat → Block} {inum : Nat} (hop : Opened s.files.fs.sb s.files.fs.dev.disk D'
      (argstr a.mem a.a0 MAXPATH) (argint a.a1) inum) (hopen : c = .open) :
      Change s.files.fs.sb s.files.fs.dev.disk D' ∧
        (¬ Creates s a c → Fileless s.files.fs.sb s.files.fs.dev.disk → Fileless s.files.fs.sb D') ∧
        (Creates s a c → ∃ dir name inum, Created s.files.fs.sb s.files.fs.dev.disk D' dir name inum) := by
    rcases hop with ⟨hfound, hD⟩ | ⟨dir, name, hr, hc⟩
    · refine hsame hD fun hcr => ?_
      obtain ⟨-, dir, name, hr⟩ := hcr
      rw [hfound] at hr
      exact absurd hr (by simp)
    · exact ⟨.created hc, fun hno => absurd ⟨hopen, dir, name, hr⟩ hno, fun _ => ⟨dir, name, inum, hc⟩⟩
  have hother {c : FileCall} (hc : c ≠ .open) : ¬ Creates s a c := fun hcr => hc hcr.1
  cases h with
  | openFailed hsm hdisk =>
      rcases hdisk with ⟨hmiss, hD⟩ | ⟨inum, hop⟩
      · refine hsame hD fun hcr => ?_
        obtain ⟨-, dir, name, hr⟩ := hcr
        rw [hmiss] at hr
        exact absurd hr (by simp)
      · exact hopened hop rfl
  | opened hsm hdisk => exact hopened hdisk rfl
  | unopened hc => exact hsame rfl (hother hc)
  | console => exact hsame rfl (hother (by decide))
  | readDenied => exact hsame rfl (hother (by decide))
  | read hfd hr hip hst =>
      refine hsame ?_ (hother (by decide))
      rw [moved_fs]
      exact hst.disk
  | writeDenied => exact hsame rfl (hother (by decide))
  | writeRefused hfd hw hip hst => exact hsame hst.disk (hother (by decide))
  | written hfd hw hip hslots href hsplice =>
      rw [moved_fs]
      have hused := (hs.fs.live _ (openRefs_pos hip)).2
      exact ⟨.written hused (hs.files _ _ hip hw) hsplice, fun _ hf => hf.written hsplice,
        fun hcr => absurd hcr (hother (by decide))⟩
  | closed hfd hv hst => exact hsame hst.disk (hother (by decide))

theorem waitPass_files (s : Machine) (p : Fin NPROC) :
    (waitPass p).wp (fun _ t => t.files = s.files) (fun _ => True) s := by
  have hfree {t : Machine} (ht : t.files = s.files) (pa : Nat) :
      (kfreePtr pa).wp (fun _ u => u.files = s.files) (fun _ => True) t := by
    unfold kfreePtr
    rw [wp_ite]
    refine ⟨fun _ => ?_, fun _ => ht⟩
    rw [wp_liftPhys]
    exact wp_any _ fun _ _ => ht
  simp only [waitPass, wp_bind, wp_get]
  split
  · simp only [wp_bind, wp_gets, wp_modify]
    refine wp_post (hfree (t := s.modProc _ _) rfl _) fun _ t ht => ?_
    exact wp_post (hfree (t := t.modProc _ _) ht _) fun _ u hu => hu
  · simp only [wp_ite, wp_bind, wp_modify, wp_pure]
    exact ⟨fun _ => rfl, fun _ => trivial⟩

/-- A call changes the files as a call on files does, or leaves them alone. -/
theorem CallStep.cases {may : Machine → Args → FileCall → Prop} {s t : Machine} (h : CallStep may s t) :
    (∃ p a c r, may s a c ∧ (fileCall p a c).run s = .ok (r, t)) ∨ t.files = s.files := by
  cases h with
  | file hmay hrun => exact .inl ⟨_, _, _, _, hmay, hrun⟩
  | fork hrun => exact .inr (wp_ok (fork_quiet _ _) hrun).1.files
  | exit hrun => exact .inr (wp_ok (exit_run _ _ _) hrun).1
  | wait hrun => exact .inr (wp_ok (waitPass_files _ _) hrun)
  | @woken p r hrun =>
      refine .inr ?_
      have hwait : (waitResume p).wp (fun _ t => t.files = s.files) (fun _ => True) s := by
        unfold waitResume
        simp only [wp_bind, wp_modify]
        exact waitPass_files _ p
      exact wp_ok hwait hrun

/-- The calls of a run in which no file is made. -/
def NoCreate (s : Machine) (a : Args) (c : FileCall) : Prop := ¬ Creates s a c

section Reached
variable {total : Nat} {img : Mkfs.State} {s : Machine} {may : Machine → Args → FileCall → Prop}

/-- The invariant of the file system, also with calls on processes. -/
theorem soundFiles_calls (hm : Mkfs.Makes total img) (h : Reach (FileStart img.blocks) (CallStep may) s) :
    Sound s.files ∧ s.files.fs.sb = Mkfs.superblock total := by
  refine h.invariant (fun s => Sound s.files ∧ s.files.fs.sb = Mkfs.superblock total)
    (fun s hs => ⟨(sound_start hm hs).1, (sound_start hm hs).2.1⟩) fun s t hs hst => ?_
  rcases hst.cases with ⟨p, a, c, r, -, hrun⟩ | hsame
  · have hcall : (fileCall p a c).wp (fun r t => Sound t.files ∧ CallEffect s p a c r t) (fun _ => True) s :=
      sound_fileCall (E := fun _ => True) hs.1 a c fun _ _ => trivial
    obtain ⟨hsound, heff⟩ := wp_ok hcall hrun
    exact ⟨hsound, heff.sb.trans hs.2⟩
  · rw [hsame]
    exact hs

/-- An image has no files. -/
theorem fileless_start (hm : Mkfs.Makes total img) (hs : FileStart img.blocks s) :
    Fileless s.files.fs.sb s.files.fs.dev.disk := by
  obtain ⟨-, hsb, hdisk⟩ := sound_start hm hs
  rw [hsb, hdisk]
  intro i hi
  obtain ⟨himage, -⟩ := hm.image
  by_cases hroot : i = ROOTINO
  · rw [hroot, himage.root]
    exact (by decide : T_DIR ≠ T_FILE)
  · rw [himage.others i hi.1 hroot]
    exact (by decide : (0 : UInt16) ≠ T_FILE)

/-- A run in which no file is made ends without files. -/
theorem fileless_reach (hm : Mkfs.Makes total img) (h : Reach (FileStart img.blocks) (CallStep NoCreate) s) :
    Fileless s.files.fs.sb s.files.fs.dev.disk := by
  refine h.invariant_of_reach (fun s => Fileless s.files.fs.sb s.files.fs.dev.disk) (fun s => fileless_start hm)
    fun s t hr hs hst => ?_
  rcases hst.cases with ⟨p, a, c, r, hno, hrun⟩ | hsame
  · have hsound := (soundFiles_calls hm hr).1
    have heff := effect_of_run hsound hrun
    rw [heff.sb]
    exact (heff.change hsound).2.1 hno hs
  · rw [hsame]
    exact hs

/-- Each run has made no file, or left one without a link. -/
theorem noCreate_or_unlinked (hm : Mkfs.Makes total img)
    (h : Reach (FileStart img.blocks) (CallStep fun _ _ _ => True) s) :
    Reach (FileStart img.blocks) (CallStep NoCreate) s ∨ ∃ i, Unlinked s.files.fs.sb s.files.fs.dev.disk i := by
  induction h with
  | start hs => exact .inl (.start hs)
  | @next s t hr hst ih =>
      have hsound := (soundFiles_calls hm hr).1
      rcases ih with hplain | ⟨i, hi⟩
      · cases hst with
        | @file p a c r _ hrun =>
            have heff := effect_of_run hsound hrun
            by_cases hcr : Creates s a c
            · obtain ⟨dir, name, inum, hc⟩ := (heff.change hsound).2.2 hcr
              rw [heff.sb]
              exact .inr ⟨inum, hc.unlinked hsound.fs.disk.structural.geo.few⟩
            · exact .inl (hplain.next (.file hcr hrun))
        | fork hrun => exact .inl (hplain.next (.fork hrun))
        | exit hrun => exact .inl (hplain.next (.exit hrun))
        | wait hrun => exact .inl (hplain.next (.wait hrun))
        | woken hrun => exact .inl (hplain.next (.woken hrun))
      · refine .inr ⟨i, ?_⟩
        rcases hst.cases with ⟨p, a, c, r, -, hrun⟩ | hsame
        · have heff := effect_of_run hsound hrun
          rw [heff.sb]
          exact hi.changed (heff.change hsound).1
        · rw [hsame]
          exact hi

/-- Link counts match the directory tree exactly after the runs in which no file is made. -/
theorem linkLaw_iff (hm : Mkfs.Makes total img) (h : Reach (FileStart img.blocks) (CallStep fun _ _ _ => True) s) :
    LinkLaw s.files.fs.sb s.files.fs.dev.disk ↔ Reach (FileStart img.blocks) (CallStep NoCreate) s := by
  constructor
  · intro hlaw
    rcases noCreate_or_unlinked hm h with hplain | ⟨i, hi⟩
    · exact hplain
    · exact absurd hlaw hi.not_linkLaw
  · intro hplain
    exact (fileless_reach hm hplain).linkLaw

/-- Before the first call the law holds. -/
theorem linkLaw_default : ∃ img s, Mkfs.Makes 1000 img ∧ FileStart img.blocks s ∧
    LinkLaw s.files.fs.sb s.files.fs.dev.disk := by
  obtain ⟨img, hm, -⟩ := Mkfs.makes 1000 (by unfold Mkfs.NoImage Mkfs.nmeta; decide)
  obtain ⟨s, hs⟩ := fileStart hm
  exact ⟨img, s, hm, hs, (linkLaw_iff hm (.start hs)).2 (.start hs)⟩

/-- An image with two blocks to spare has room for a file, if there are slots for its inode. -/
theorem room_image (hm : Mkfs.Makes total img) (hspare : Mkfs.nmeta total + 2 < total)
    (hsb : s.files.fs.sb = Mkfs.superblock total) (hdisk : s.files.fs.dev.disk = img.blocks)
    (hslots : 2 < spare (openRefs s.files)) : Room s.files.fs (openRefs s.files) := by
  obtain ⟨himage, -⟩ := hm.image
  refine ⟨hslots, ⟨2, by decide, ?_, ?_⟩, ?_, fun k hk _ => ?_⟩
  · rw [hsb]
    exact (by decide : 2 < Mkfs.NINODES)
  · rw [hsb, hdisk, himage.others 2 (by decide) (by decide)]
    rfl
  · -- the two blocks after that of the root
    have hle := le_mapSize total
    have hclear (b : Nat) (hb : b < total) (hout : Mkfs.nmeta total + 1 ≤ b) :
        b ∈ (Finset.range (mapSize total)).filter fun b => marked (Mkfs.superblock total) img.blocks b = false := by
      rw [Finset.mem_filter, Finset.mem_range, himage.bits b (Mkfs.div_lt_nbitmap hb), decide_eq_false_iff_not]
      omega
    unfold freeBlocks unmarked
    rw [hsb, hdisk]
    exact Finset.one_lt_card.2 ⟨_, hclear (Mkfs.nmeta total + 1) (by omega) (Nat.le_refl _), _,
      hclear (Mkfs.nmeta total + 2) hspare (by omega), by omega⟩
  · rw [hsb, hdisk] at hk ⊢
    rw [(himage.used_iff k).1 hk, himage.root]
    exact (by decide : (32 : UInt32).toNat + DIRENT ≤ MAXBYTES)

theorem room_start (hm : Mkfs.Makes total img) (hspare : Mkfs.nmeta total + 2 < total) (hs : FileStart img.blocks s) :
    Room s.files.fs (openRefs s.files) := by
  obtain ⟨-, hsb, hdisk⟩ := sound_start hm hs
  refine room_image hm hspare hsb hdisk ?_
  rw [hs.openRefs, spare, Finset.filter_true_of_mem fun _ _ => rfl, Finset.card_univ, Fintype.card_fin]
  decide

/-- `open("/a", O_CREAT | O_RDWR)`. -/
def createA : Args where
  a0 := 0x1000
  a1 := 0x202
  a2 := 0
  mem a := if a = 0x1000 then slash else if a = 0x1001 then 0x61 else 0

/-- On an image it makes a file in the root. -/
theorem creates_createA (hm : Mkfs.Makes total img) (hsb : s.files.fs.sb = Mkfs.superblock total)
    (hdisk : s.files.fs.dev.disk = img.blocks) : Creates s createA .open := by
  obtain ⟨himage, hno⟩ := hm.image
  have hsize : Mkfs.nmeta total < 2 ^ 32 := by
    have hlt := hm.size_lt
    unfold Mkfs.NoImage at hno
    omega
  have hpath : argstr createA.mem createA.a0 MAXPATH = [slash, 0x61] := by decide
  have hcreat : argint createA.a1 &&& O_CREAT ≠ 0 := by decide
  obtain ⟨name, hskip, hname⟩ : ∃ name, skipelem [slash, 0x61] (fun _ => 0) = some ([], name) ∧ name 0 ≠ 0x2e :=
    ⟨_, rfl, by decide⟩
  have hroot : (dinodeOf (Mkfs.superblock total) img.blocks ROOTINO).type = T_DIR := by
    rw [himage.root]
    rfl
  have hwalk : Fs.walk (Mkfs.superblock total) img.blocks true [slash, 0x61] (fun _ => 0) = (some ROOTINO, name) := by
    unfold Fs.walk
    rw [walkFrom_cons hskip, if_neg (not_not.2 hroot), if_pos ⟨rfl, rfl⟩]
  refine ⟨rfl, ROOTINO, name, ?_⟩
  unfold openResult
  rw [hsb, hdisk, hpath, if_pos hcreat, hwalk]
  simp only
  rw [himage.root, Mkfs.lookup_root himage hsize hname]

/-- On the default image the call returns. -/
theorem createA_runs : ∃ img s r t, Mkfs.Makes 1000 img ∧ FileStart img.blocks s ∧ Sound s.files ∧
    (fileCall ⟨0, by decide⟩ createA .open).run s = .ok (r, t) ∧ Creates s createA .open := by
  obtain ⟨img, hm, -⟩ := Mkfs.makes 1000 (by unfold Mkfs.NoImage Mkfs.nmeta; decide)
  obtain ⟨s, hs⟩ := fileStart hm
  obtain ⟨hsound, hsb, hdisk⟩ := sound_start hm hs
  have hopen : (fileCall ⟨0, by decide⟩ createA .open).wp (fun r t => CallEffect s ⟨0, by decide⟩ createA .open r t)
      (fun _ => False) s :=
    wp_seq (sound_sysOpen hsound createA (.inr (room_start hm (by decide) hs))) fun _ _ h => h.2
  obtain ⟨r, t, hrun, -⟩ := wp_total hopen
  exact ⟨img, s, r, t, hm, hs, hsound, hrun, creates_createA hm hsb hdisk⟩

/-- A file is made on the default image, and its link count is wrong. -/
theorem linkLaw_fails : ∃ img s t, Mkfs.Makes 1000 img ∧ FileStart img.blocks s ∧
    (∃ r, (fileCall ⟨0, by decide⟩ createA .open).run s = .ok (r, t)) ∧ ¬ LinkLaw t.files.fs.sb t.files.fs.dev.disk := by
  obtain ⟨img, s, r, t, hm, hs, hsound, hrun, hcr⟩ := createA_runs
  have heff := effect_of_run hsound hrun
  obtain ⟨dir, name, inum, hc⟩ := (heff.change hsound).2.2 hcr
  refine ⟨img, s, t, hm, hs, ⟨r, hrun⟩, ?_⟩
  rw [heff.sb]
  exact (hc.unlinked hsound.fs.disk.structural.geo.few).not_linkLaw

end Reached

end RiscvOsLab.Kernel
