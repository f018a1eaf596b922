import RiscvOsLab.Kernel.Inodes
import RiscvOsLab.Kernel.Opening

/-!
# Calls over a sound file system

`Sound` is the invariant between calls: that of the file system, with the references of the file table, and that only
files are open for writing. `CallEffect` says what a call can do, to the disk and to the tables, and with which result;
`sound_fileCall` proves both of every call, and that no call runs into the panic of `bmap`.
-/

namespace RiscvOsLab.Kernel

open Prog Function Bytes
open RiscvOsLab.Fs

/-! ## The invariant -/

structure Sound (s : Files) : Prop where
  fs : FsInv s.fs (openRefs s)
  live : ∀ f, (s.ftable f).ip ≠ none → 0 < (s.ftable f).ref
  files : ∀ f ip, (s.ftable f).ip = some ip → (s.ftable f).writable = true →
    (dinodeOf s.fs.sb s.fs.dev.disk (s.fs.icache ip).inum).type ≠ T_DIR

/-- Inodes in use keep their types. -/
def Retyped (sb : Superblock) (D D' : Nat → Block) : Prop :=
  ∀ k, Used sb (dinodeOf sb D) k → (dinodeOf sb D' k).type = (dinodeOf sb D k).type

theorem Created.retyped {sb : Superblock} {D D' : Nat → Block} {dir inum : Nat} {name : Bytes}
    (h : Created sb D D' dir name inum) : Retyped sb D D' := by
  intro k hk
  obtain ⟨D₁, off, ha, -, hsplice⟩ := h.made
  have hki : k ≠ inum := fun he => ha.free (he ▸ hk)
  rw [hsplice.type hk.1, ha.others k hki]

theorem openRefs_pos {s : Files} {f : Fin NFILE} {ip : Fin NINODE} (h : (s.ftable f).ip = some ip) :
    0 < openRefs s ip := Finset.card_pos.2 ⟨f, mem_fiber.2 h⟩

/-- The state after a transfer of `r` bytes through entry `f`. -/
def moved (s : Files) (f : Fin NFILE) (r : Int) : Files :=
  if r > 0 then s.setFile f { s.ftable f with off := (s.ftable f).off + UInt32.ofNat r.toNat } else s

namespace Sound

variable {s : Files} {f : Fin NFILE} {E : Halt → Prop}

/-- The file system changes, but not under the open files. -/
theorem of_fs (h : Sound s) {t : State} (ht : FsInv t (openRefs s)) (hslots : Slots (openRefs s) s.fs t)
    (htypes : Retyped s.fs.sb s.fs.dev.disk t.dev.disk) : Sound { s with fs := t } := by
  refine ⟨ht, h.live, fun g ip hip hw => ?_⟩
  have hpos := openRefs_pos hip
  have hused := (h.fs.live ip hpos).2
  show (dinodeOf t.sb t.dev.disk (t.icache ip).inum).type ≠ T_DIR
  rw [hslots.sb, hslots.inum ip hpos, htypes _ hused]
  exact h.files g ip hip hw

theorem of_still (h : Sound s) {t : State} (ht : FsInv t (openRefs s)) (hst : Still (openRefs s) s.fs t) :
    Sound { s with fs := t } :=
  h.of_fs ht hst.slots fun k _ => by rw [hst.disk]

theorem moved (h : Sound s) (f : Fin NFILE) (r : Int) : Sound (moved s f r) := by
  unfold Kernel.moved
  split
  · generalize hv : ({ s.ftable f with off := (s.ftable f).off + UInt32.ofNat r.toNat } : File) = v
    have hip : v.ip = (s.ftable f).ip := by rw [← hv]
    have hw : v.writable = (s.ftable f).writable := by rw [← hv]
    have href : v.ref = (s.ftable f).ref := by rw [← hv]
    refine ⟨?_, fun g hg => ?_, fun g ip hg hgw => ?_⟩
    · rw [openRefs_same hip]
      exact h.fs
    · by_cases hgf : g = f
      · rw [hgf, Files.setFile_self] at hg ⊢
        rw [hip] at hg
        rw [href]
        exact h.live f hg
      · rw [Files.setFile_of_ne hgf] at hg ⊢
        exact h.live g hg
    · by_cases hgf : g = f
      · rw [hgf, Files.setFile_self] at hg hgw
        rw [hip] at hg
        rw [hw] at hgw
        exact h.files f ip hg hgw
      · rw [Files.setFile_of_ne hgf] at hg hgw
        exact h.files g ip hg hgw
  · exact h

/-- `ilock(f->ip)`. -/
theorem wp_ilockPtr (h : Sound s) (hE : E (.panic "ilock")) {Q : Fin NINODE → State → Prop}
    (hQ : ∀ ip t, (s.ftable f).ip = some ip → FsInv t (openRefs s) → Still (openRefs s) s.fs t →
      (t.icache ip).valid = true → Q ip t) : (ilockPtr (s.ftable f).ip).wp Q E s.fs := by
  unfold ilockPtr
  cases hip : (s.ftable f).ip with
  | none => exact hE
  | some ip =>
      rw [wp_bind]
      exact h.fs.wp_ilock (openRefs_pos hip) fun t ht hst hv => hQ ip t hip ht hst hv

theorem wp_fileread (h : Sound s) (n : UInt32) (hE : E (.panic "ilock")) {Q : Int × List UInt8 → Files → Prop}
    (hdenied : (s.ftable f).readable = false → Q (-1, []) s)
    (hread : ∀ ip t r, (s.ftable f).readable = true → (s.ftable f).ip = some ip → FsInv t (openRefs s) →
      Still (openRefs s) s.fs t →
      r = readAt s.fs.dev.disk (dinodeOf s.fs.sb s.fs.dev.disk (s.fs.icache ip).inum) (s.ftable f).off n →
      Q r (Kernel.moved { s with fs := t } f r.1)) : (fileread f n).wp Q E s := by
  unfold fileread
  rw [wp_bind, wp_gets]
  by_cases hr : (s.ftable f).readable = false
  · rw [if_pos hr]
    exact hdenied hr
  · rw [if_neg hr]
    simp only [wp_bind, wp_liftFs]
    refine h.wp_ilockPtr hE fun ip t hip ht hst hv => ?_
    refine ht.wp_readi hv fun u hu hst' hicache => ?_
    have hpos := openRefs_pos hip
    rw [hst.sb, hst.disk, hst.inum ip hpos]
    have hQ := hread ip u _ (Bool.not_eq_false _ ▸ hr) hip hu (hst.trans hst') rfl
    unfold Kernel.moved at hQ
    split
    · rename_i hlt
      rw [if_pos hlt] at hQ
      simp only [wp_bind, wp_modify, wp_liftFs]
      refine hu.wp_iunlock hpos ?_
      exact hQ
    · rename_i hlt
      rw [if_neg hlt] at hQ
      simp only [wp_bind, wp_liftFs]
      refine hu.wp_iunlock hpos ?_
      exact hQ

theorem wp_filewrite (h : Sound s) (src : Bytes) (n : UInt32) (hE : ∀ msg, msg ≠ "bmap: out of range" → E (.panic msg))
    {Q : Int → Files → Prop} (hdenied : (s.ftable f).writable = false → Q (-1) s)
    (hrefused : ∀ ip t, (s.ftable f).writable = true → (s.ftable f).ip = some ip → FsInv t (openRefs s) →
      Still (openRefs s) s.fs t →
      Refused (dinodeOf s.fs.sb s.fs.dev.disk (s.fs.icache ip).inum) (s.ftable f).off n → Q (-1) { s with fs := t })
    (hwritten : ∀ ip t, (s.ftable f).writable = true → (s.ftable f).ip = some ip → FsInv t (openRefs s) →
      Slots (openRefs s) s.fs t →
      ¬ Refused (dinodeOf s.fs.sb s.fs.dev.disk (s.fs.icache ip).inum) (s.ftable f).off n →
      Spliced s.fs.sb s.fs.dev.disk t.dev.disk (s.fs.icache ip).inum src (s.ftable f).off.toNat n.toNat →
      Q n.toNat (Kernel.moved { s with fs := t } f n.toNat)) : (filewrite f src n).wp Q E s := by
  unfold filewrite
  rw [wp_bind, wp_gets]
  by_cases hw : (s.ftable f).writable = false
  · rw [if_pos hw]
    exact hdenied hw
  · rw [if_neg hw]
    have hw : (s.ftable f).writable = true := Bool.not_eq_false _ ▸ hw
    simp only [wp_bind, wp_liftFs]
    refine h.wp_ilockPtr (hE _ (by decide)) fun ip t hip ht hst hv => ?_
    have hpos := openRefs_pos hip
    have hinum := hst.inum ip hpos
    have hfile : (t.icache ip).din.type ≠ T_DIR := by
      rw [ht.clean ip hv, hst.sb, hst.disk, hinum]
      exact h.files f ip hip hw
    refine ht.wp_writei hv (fun hd => absurd hd hfile) (.inl (hE _ (by decide))) (fun href => ?_) fun href u hu hsb hsplice hslots => ?_
    · rw [hst.sb, hst.disk, hinum] at href
      rw [if_neg (by omega)]
      simp only [wp_bind, wp_liftFs]
      refine ht.wp_iunlock hpos ?_
      exact hrefused ip t hw hip ht hst href
    · rw [hst.sb, hst.disk, hinum] at href hsplice
      have hQ := hwritten ip u hw hip hu (hst.slots.trans (hslots.slots hsb)) href hsplice
      unfold Kernel.moved at hQ
      split
      · rename_i hlt
        rw [if_pos hlt] at hQ
        simp only [wp_bind, wp_modify, wp_liftFs]
        refine hu.wp_iunlock hpos ?_
        exact hQ
      · rename_i hlt
        rw [if_neg hlt] at hQ
        simp only [wp_bind, wp_liftFs]
        refine hu.wp_iunlock hpos ?_
        exact hQ

end Sound

/-! ## What a call does -/

/-- The entries of the file table that are in use, and their inodes, are the same. -/
structure SameOpen (s t : Files) : Prop where
  sb : t.fs.sb = s.fs.sb
  entries : ∀ f, 0 < (s.ftable f).ref → t.ftable f = s.ftable f
  inum : ∀ f ip, (s.ftable f).ip = some ip → (t.fs.icache ip).inum = (s.fs.icache ip).inum

/-- The path leads to inode `inum`, which is made if need be. -/
def Opened (sb : Superblock) (D D' : Nat → Block) (path : List UInt8) (omode : UInt32) (inum : Nat) : Prop :=
  openResult sb D path omode = .found inum ∧ D' = D ∨
    ∃ dir name, openResult sb D path omode = .create dir name ∧ Created sb D D' dir name inum

/-- The entry of a new open file. -/
def openFile (omode : UInt32) (ip : Fin NINODE) : File where
  type := .inode
  ref := 1
  readable := omode &&& O_WRONLY == 0
  writable := omode &&& O_WRONLY != 0 || omode &&& O_RDWR != 0
  ip := some ip
  off := 0

/-- An entry that is not in use. -/
def shut : File := ⟨.none, 0, false, false, none, 0⟩

/-- The inode of an open file, on the disk. -/
def fileInum (s : Files) (ip : Fin NINODE) : Nat := (s.fs.icache ip).inum

def fileDinode (s : Files) (ip : Fin NINODE) : Dinode := dinodeOf s.fs.sb s.fs.dev.disk (fileInum s ip)

/-- What a call of process `p` can do, with its result. -/
inductive CallEffect (s : Machine) (p : Fin NPROC) (a : Args) : FileCall → Int × List UInt8 → Machine → Prop
  | openFailed {u : Files} (hsame : SameOpen s.files u)
      (hdisk : openResult s.files.fs.sb s.files.fs.dev.disk (argstr a.mem a.a0 MAXPATH) (argint a.a1) = .missing ∧
          u.fs.dev.disk = s.files.fs.dev.disk ∨
        ∃ inum, Opened s.files.fs.sb s.files.fs.dev.disk u.fs.dev.disk (argstr a.mem a.a0 MAXPATH) (argint a.a1) inum) :
      CallEffect s p a .open (-1, []) { s with files := u }
  | opened {u : Files} {fd : Fin NOFILE} {f : Fin NFILE} {ip : Fin NINODE} (hsame : SameOpen s.files u)
      (hdisk : Opened s.files.fs.sb s.files.fs.dev.disk u.fs.dev.disk (argstr a.mem a.a0 MAXPATH) (argint a.a1)
        (fileInum u ip))
      (hfd : (s.proc p).ofile fd = none) (hfirst : ∀ k < fd, (s.proc p).ofile k ≠ none)
      (hfree : (s.files.ftable f).ref = 0) (hfile : u.ftable f = openFile (argint a.a1) ip) :
      CallEffect s p a .open ((fd.val : Int), [])
        { s with files := u, proc := update s.proc p { s.proc p with ofile := update (s.proc p).ofile fd (some f) } }
  | unopened {c : FileCall} (hc : c ≠ .open) (hfd : fdFile s p (argint a.a0) = none)
      (hcons : c = .write → ¬ (argint a.a0 = 1 ∧ (s.proc p).ofile ⟨1, by decide⟩ = none)) :
      CallEffect s p a c (-1, []) s
  | console (hcons : argint a.a0 = 1 ∧ (s.proc p).ofile ⟨1, by decide⟩ = none) :
      CallEffect s p a .write ((argint a.a2).toInt32.toInt, []) s
  | readDenied {fd : Fin NOFILE} {f : Fin NFILE} (hfd : fdFile s p (argint a.a0) = some (fd, f))
      (hr : (s.files.ftable f).readable = false) : CallEffect s p a .read (-1, []) s
  | read {fd : Fin NOFILE} {f : Fin NFILE} {ip : Fin NINODE} {t : State} {r : Int × List UInt8}
      (hfd : fdFile s p (argint a.a0) = some (fd, f)) (hr : (s.files.ftable f).readable = true)
      (hip : (s.files.ftable f).ip = some ip) (hst : Still (openRefs s.files) s.files.fs t)
      (hres : r = readAt s.files.fs.dev.disk (fileDinode s.files ip) (s.files.ftable f).off (argint a.a2)) :
      CallEffect s p a .read r { s with files := moved { s.files with fs := t } f r.1 }
  | writeDenied {fd : Fin NOFILE} {f : Fin NFILE} (hfd : fdFile s p (argint a.a0) = some (fd, f))
      (hw : (s.files.ftable f).writable = false) : CallEffect s p a .write (-1, []) s
  | writeRefused {fd : Fin NOFILE} {f : Fin NFILE} {ip : Fin NINODE} {t : State}
      (hfd : fdFile s p (argint a.a0) = some (fd, f)) (hw : (s.files.ftable f).writable = true)
      (hip : (s.files.ftable f).ip = some ip) (hst : Still (openRefs s.files) s.files.fs t)
      (href : Refused (fileDinode s.files ip) (s.files.ftable f).off (argint a.a2)) :
      CallEffect s p a .write (-1, []) { s with files := { s.files with fs := t } }
  | written {fd : Fin NOFILE} {f : Fin NFILE} {ip : Fin NINODE} {t : State}
      (hfd : fdFile s p (argint a.a0) = some (fd, f)) (hw : (s.files.ftable f).writable = true)
      (hip : (s.files.ftable f).ip = some ip) (hslots : Slots (openRefs s.files) s.files.fs t)
      (href : ¬ Refused (fileDinode s.files ip) (s.files.ftable f).off (argint a.a2))
      (hsplice : Spliced s.files.fs.sb s.files.fs.dev.disk t.dev.disk (fileInum s.files ip)
        (fun i => a.mem (a.a1 + UInt64.ofNat i)) (s.files.ftable f).off.toNat (argint a.a2).toNat) :
      CallEffect s p a .write (((argint a.a2).toNat : Int), [])
        { s with files := moved { s.files with fs := t } f (argint a.a2).toNat }
  | closed {fd : Fin NOFILE} {f : Fin NFILE} {v : File} {t : State} (hfd : fdFile s p (argint a.a0) = some (fd, f))
      (hv : (s.files.ftable f).ref > 1 ∧ v = { s.files.ftable f with ref := (s.files.ftable f).ref - 1 } ∨
        (s.files.ftable f).ref = 1 ∧ v = shut)
      (hst : Still (openRefs (s.files.setFile f v)) s.files.fs t) :
      CallEffect s p a .close (0, [])
        { s with
          files := { s.files.setFile f v with fs := t },
          proc := update s.proc p { s.proc p with ofile := update (s.proc p).ofile fd none } }

section Calls
variable {s : Files} {f : Fin NFILE} {E : Halt → Prop}

/-- A new entry that was not used yet is given back. -/
theorem wp_fileclose_unused (href : (s.ftable f).ref = 1) (hip : (s.ftable f).ip = none) {Q : Unit → Files → Prop}
    (hQ : Q () (s.setFile f shut)) : (fileclose f).wp Q E s := by
  unfold fileclose
  simp only [wp_bind, wp_gets]
  rw [if_neg (by omega)]
  simp only [wp_bind, wp_modify]
  rw [if_neg (by omega)]
  simp only [wp_bind, wp_modify, hip, wp_pure]
  have h0 : (s.ftable f).ref - 1 = 0 := by omega
  rw [Files.setFile_setFile, Files.setFile_self, h0]
  exact hQ

theorem Sound.wp_fileclose (h : Sound s) (hE : E (.panic "fileclose")) {Q : Unit → Files → Prop}
    (hQ : ∀ v t, (s.ftable f).ref > 1 ∧ v = { s.ftable f with ref := (s.ftable f).ref - 1 } ∨
      (s.ftable f).ref = 1 ∧ v = shut → Still (openRefs (s.setFile f v)) s.fs t →
      Sound { s.setFile f v with fs := t } → Q () { s.setFile f v with fs := t }) : (fileclose f).wp Q E s := by
  unfold fileclose
  simp only [wp_bind, wp_gets]
  by_cases hlt : (s.ftable f).ref < 1
  · rw [if_pos hlt]
    exact hE
  · rw [if_neg hlt]
    simp only [wp_bind, wp_modify]
    by_cases hmore : (s.ftable f).ref - 1 > 0
    · rw [if_pos hmore]
      refine hQ _ s.fs (.inl ⟨by omega, rfl⟩) (Still.refl _) ⟨?_, fun g hg => ?_, fun g ip hg hw => ?_⟩
      · show FsInv s.fs (openRefs (s.setFile f _))
        rw [openRefs_same (by rfl)]
        exact h.fs
      · by_cases hgf : g = f
        · rw [hgf]
          show 0 < ((s.setFile f _).ftable f).ref
          rw [Files.setFile_self]
          exact hmore
        · rw [show ({ s.setFile f _ with fs := s.fs } : Files).ftable g = s.ftable g from Files.setFile_of_ne hgf _ _] at hg ⊢
          exact h.live g hg
      · by_cases hgf : g = f
        · rw [hgf] at hg hw
          rw [show ({ s.setFile f _ with fs := s.fs } : Files).ftable f = _ from Files.setFile_self _ _ _] at hg hw
          exact h.files f ip hg hw
        · rw [show ({ s.setFile f _ with fs := s.fs } : Files).ftable g = s.ftable g from Files.setFile_of_ne hgf _ _] at hg hw
          exact h.files g ip hg hw
    · rw [if_neg hmore]
      have hone : (s.ftable f).ref = 1 := by omega
      have hshut : ((s.setFile f { s.ftable f with ref := (s.ftable f).ref - 1 }).setFile f
          { (s.setFile f { s.ftable f with ref := (s.ftable f).ref - 1 }).ftable f with
            type := .none, ip := none, off := 0, readable := false, writable := false }) = s.setFile f shut := by
        have h0 : (s.ftable f).ref - 1 = 0 := by omega
        rw [Files.setFile_setFile, Files.setFile_self, h0]
        rfl
      simp only [wp_bind, wp_modify]
      rw [hshut]
      have hlive (t : State) (g : Fin NFILE) (hg : (({ s.setFile f shut with fs := t } : Files).ftable g).ip ≠ none) :
          g ≠ f := by
        rintro rfl
        rw [show ({ s.setFile g shut with fs := t } : Files).ftable g = shut from Files.setFile_self _ _ _] at hg
        exact hg rfl
      have hsound (t : State) (ht : FsInv t (openRefs (s.setFile f shut)))
          (hst : Still (openRefs (s.setFile f shut)) s.fs t) : Sound { s.setFile f shut with fs := t } := by
        refine ⟨ht, fun g hg => ?_, fun g ip hg hw => ?_⟩
        · have hgf := hlive t g hg
          rw [show ({ s.setFile f shut with fs := t } : Files).ftable g = s.ftable g from Files.setFile_of_ne hgf _ _] at hg ⊢
          exact h.live g hg
        · have hgf := hlive t g (by rw [hg]; exact Option.some_ne_none ip)
          have hpos : 0 < openRefs (s.setFile f shut) ip := openRefs_pos (f := g) hg
          rw [show ({ s.setFile f shut with fs := t } : Files).ftable g = s.ftable g from Files.setFile_of_ne hgf _ _] at hg hw
          show (dinodeOf t.sb t.dev.disk (t.icache ip).inum).type ≠ T_DIR
          rw [hst.sb, hst.disk, hst.inum ip hpos]
          exact h.files g ip hg hw
      cases hip : (s.ftable f).ip with
      | none =>
          refine hQ shut s.fs (.inr ⟨hone, rfl⟩) (Still.refl _) (hsound s.fs ?_ (Still.refl _))
          rw [openRefs_same (by rw [hip]; rfl)]
          exact h.fs
      | some ip =>
          have hrefs : openRefs s = hold (openRefs (s.setFile f shut)) ip := openRefs_closed hip rfl
          have hfs := h.fs
          rw [hrefs] at hfs
          rw [wp_liftFs]
          exact hfs.wp_iput fun t ht hst => hQ shut t (.inr ⟨hone, rfl⟩) hst (hsound t ht hst)

end Calls

/-! ## Every call -/

section Sound
variable {s : Machine} {p : Fin NPROC}

/-- A file that is found for writing is not a directory. -/
theorem type_of_found {sb : Superblock} {D : Nat → Block} {path : List UInt8} {omode : UInt32} {inum : Nat}
    (h : openResult sb D path omode = .found inum) (hw : omode ≠ 0) : (dinodeOf sb D inum).type ≠ T_DIR := by
  unfold openResult at h
  split at h
  · split at h
    · exact absurd h (by simp)
    · split at h
      · split at h
        · exact absurd h (by simp)
        · rename_i hbad
          rw [← OpenResult.found.inj h]
          exact fun ht => hbad (.inl ht)
      · exact absurd h (by simp)
  · split at h
    · exact absurd h (by simp)
    · split at h
      · exact absurd h (by simp)
      · rename_i hbad
        rw [← OpenResult.found.inj h]
        exact fun ht => hbad ⟨ht, hw⟩

theorem Created.type {sb : Superblock} {D D' : Nat → Block} {dir inum : Nat} {name : Bytes}
    (h : Created sb D D' dir name inum) : (dinodeOf sb D' inum).type = T_FILE := by
  obtain ⟨D₁, off, ha, -, hsplice⟩ := h.made
  rw [hsplice.type ha.lt, ha.inode]

theorem Opened.type {sb : Superblock} {D D' : Nat → Block} {path : List UInt8} {omode : UInt32} {inum : Nat}
    (h : Opened sb D D' path omode inum) (hw : (openFile omode ⟨0, by decide⟩).writable = true) :
    (dinodeOf sb D' inum).type ≠ T_DIR := by
  rcases h with ⟨hfound, rfl⟩ | ⟨dir, name, -, hc⟩
  · refine type_of_found hfound ?_
    rintro rfl
    exact absurd hw (by decide)
  · rw [hc.type]
    decide

theorem Opened.retyped {sb : Superblock} {D D' : Nat → Block} {path : List UInt8} {omode : UInt32} {inum : Nat}
    (h : Opened sb D D' path omode inum) : Retyped sb D D' := by
  rcases h with ⟨-, rfl⟩ | ⟨dir, name, -, hc⟩
  · exact fun _ _ => rfl
  · exact hc.retyped

/-- What `openInode` leaves, if it finds or makes an inode. -/
theorem wp_openInode_opened {s : State} {refs : Fin NINODE → Nat} {E : Halt → Prop} (h : FsInv s refs)
    (path : List UInt8) (omode : UInt32) (hE : (∀ msg, msg ≠ "bmap: out of range" → E (.panic msg)) ∨ Room s refs)
    {Q : Option (Fin NINODE) → State → Prop}
    (hmissing : openResult s.sb s.dev.disk path omode = .missing → ∀ t, FsInv t refs → Still refs s t → Q none t)
    (hopened : ∀ ip t, Opened s.sb s.dev.disk t.dev.disk path omode (t.icache ip).inum → FsInv t (hold refs ip) →
      Slots refs s t → Q (some ip) t) : (openInode path omode).wp Q E s := by
  refine wp_openInode h path omode hE hmissing (fun inum hr ip t ht hst hi _ => ?_)
    fun dir name hr inum ip t hc ht hslots hi _ => ?_
  · exact hopened ip t (.inl ⟨by rw [hi, hr], hst.disk⟩) ht hst.slots
  · exact hopened ip t (.inr ⟨dir, name, hr, by rw [hi]; exact hc⟩) ht hslots

theorem SameOpen.of_slots {s t : Files} (h : Slots (openRefs s) s.fs t.fs)
    (hent : ∀ f, 0 < (s.ftable f).ref → t.ftable f = s.ftable f) : SameOpen s t :=
  ⟨h.sb, hent, fun _ ip hip => h.inum ip (openRefs_pos hip)⟩

/-- An entry without an inode is changed to one that has none either. -/
theorem Sound.setFile_unused {s : Files} (h : Sound s) {f : Fin NFILE} {v : File} (hf : (s.ftable f).ip = none)
    (hv : v.ip = none) : Sound (s.setFile f v) := by
  refine ⟨?_, fun g hg => ?_, fun g ip hg hw => ?_⟩
  · rw [openRefs_same (hv.trans hf.symm)]
    exact h.fs
  · by_cases hgf : g = f
    · rw [hgf, Files.setFile_self] at hg
      exact absurd hv hg
    · rw [Files.setFile_of_ne hgf] at hg ⊢
      exact h.live g hg
  · by_cases hgf : g = f
    · rw [hgf, Files.setFile_self, hv] at hg
      exact absurd hg (by simp)
    · rw [Files.setFile_of_ne hgf] at hg hw
      exact h.files g ip hg hw

/-- The inode that was opened goes into a free entry. -/
theorem Sound.opened {s : Files} (h : Sound s) {f : Fin NFILE} {ip : Fin NINODE} {omode : UInt32} {t : State}
    {path : List UInt8} (hf : (s.ftable f).ip = none) (ht : FsInv t (hold (openRefs s) ip))
    (hslots : Slots (openRefs s) s.fs t)
    (hop : Opened s.fs.sb s.fs.dev.disk t.dev.disk path omode (t.icache ip).inum) :
    Sound ({ s with fs := t }.setFile f (openFile omode ip)) := by
  refine ⟨?_, fun g hg => ?_, fun g jp hg hw => ?_⟩
  · rw [openRefs_opened (s := { s with fs := t }) (f := f) (v := openFile omode ip) hf rfl]
    exact ht
  · by_cases hgf : g = f
    · rw [hgf, Files.setFile_self]
      exact Int.one_pos
    · rw [Files.setFile_of_ne hgf] at hg ⊢
      exact h.live g hg
  · by_cases hgf : g = f
    · rw [hgf, Files.setFile_self] at hg hw
      rw [← Option.some.inj hg]
      show (dinodeOf t.sb t.dev.disk (t.icache ip).inum).type ≠ T_DIR
      rw [hslots.sb]
      exact hop.type hw
    · rw [Files.setFile_of_ne hgf] at hg hw
      have hpos : 0 < openRefs s jp := openRefs_pos (f := g) hg
      show (dinodeOf t.sb t.dev.disk (t.icache jp).inum).type ≠ T_DIR
      rw [hslots.sb, hslots.inum jp hpos, hop.retyped _ (h.fs.live jp hpos).2]
      exact h.files g jp hg hw

theorem sound_sysOpen (h : Sound s.files) (a : Args) {E : Halt → Prop}
    (hE : (∀ msg, msg ≠ "bmap: out of range" → E (.panic msg)) ∨ Room s.files.fs (openRefs s.files)) :
    (sysOpen p a).wp (fun r t => Sound t.files ∧ CallEffect s p a .open (r, []) t) E s := by
  simp only [sysOpen, wp_bind, wp_liftFiles, wp_liftFs]
  refine wp_openInode_opened h.fs _ _ hE (fun hr t ht hst => ?_) fun ip t hop ht hslots => ?_
  · refine ⟨h.of_still ht hst, .openFailed (SameOpen.of_slots hst.slots fun _ _ => rfl) (.inl ⟨hr, hst.disk⟩)⟩
  · simp only [wp_bind, wp_liftFiles, filealloc, wp_get]
    have hpos := hold_pos (openRefs s.files) ip
    cases hf : (List.finRange NFILE).find? fun f => (s.files.ftable f).ref == 0 with
    | none =>
        simp only [wp_bind, wp_liftFiles, wp_liftFs, wp_pure]
        refine ht.wp_iunlock hpos (ht.wp_iput fun u hu hst => ?_)
        have hall := hslots.trans hst.slots
        refine ⟨h.of_fs hu hall fun k hk => ?_, .openFailed (SameOpen.of_slots hall fun _ _ => rfl)
          (.inr ⟨(t.icache ip).inum, ?_⟩)⟩
        · rw [hst.disk]
          exact hop.retyped k hk
        · rw [hst.disk]
          exact hop
    | some f =>
        have hzero : (s.files.ftable f).ref = 0 := by simpa using List.find?_some hf
        have hnone : (s.files.ftable f).ip = none := by
          by_contra hip
          have := h.live f hip
          omega
        have hother (v : File) (g : Fin NFILE) (hg : 0 < (s.files.ftable g).ref) :
            ({ s.files with fs := t }.setFile f v).ftable g = s.files.ftable g := by
          refine Files.setFile_of_ne ?_ _ _
          rintro rfl
          omega
        simp only [wp_bind, wp_modify, wp_pure, wp_gets]
        split
        · rename_i hfull
          simp only [wp_bind, wp_liftFiles, wp_liftFs, wp_pure]
          refine wp_fileclose_unused ?_ ?_ ?_
          · rw [Files.setFile_self]
          · rw [Files.setFile_self]
            exact hnone
          · rw [Files.setFile_setFile]
            refine ht.wp_iunlock hpos (ht.wp_iput fun u hu hst => ?_)
            have hall := hslots.trans hst.slots
            have hsound : Sound { s.files with fs := u } := h.of_fs hu hall fun k hk => by
              rw [hst.disk]
              exact hop.retyped k hk
            refine ⟨hsound.setFile_unused hnone rfl, .openFailed (SameOpen.of_slots hall (hother shut))
              (.inr ⟨(t.icache ip).inum, ?_⟩)⟩
            show Opened _ _ u.dev.disk _ _ _
            rw [hst.disk]
            exact hop
        · rename_i fd hfd
          simp only [wp_bind, wp_liftFiles, wp_liftFs, wp_modify, wp_pure, Machine.setProc_files, Files.setFile_setFile,
            Files.setFile_self]
          have hsound := h.opened hnone ht hslots hop
          refine ht.wp_iunlock hpos ⟨hsound, ?_⟩
          obtain ⟨hfree, hfirst⟩ := find?_finRange hfd
          refine .opened (u := { s.files with fs := t }.setFile f (openFile (argint a.a1) ip))
            (SameOpen.of_slots hslots (hother _)) hop ?_ (fun k hk => ?_) hzero (Files.setFile_self _ _ _)
          · simpa using hfree
          · have hbusy := hfirst k hk
            intro hnil
            simp [hnil] at hbusy

theorem sound_fileCall (h : Sound s.files) (a : Args) (c : FileCall) {E : Halt → Prop}
    (hE : ∀ msg, msg ≠ "bmap: out of range" → E (.panic msg)) :
    (fileCall p a c).wp (fun r t => Sound t.files ∧ CallEffect s p a c r t) E s := by
  cases c with
  | «open» => exact wp_seq (sound_sysOpen h a (.inl hE)) fun _ _ ht => ht
  | read =>
      simp only [fileCall, sysRead, wp_bind, wp_get]
      cases hfd : fdFile s p (argint a.a0) with
      | none => exact ⟨h, .unopened (by decide) hfd (fun hc => absurd hc (by decide))⟩
      | some r =>
          obtain ⟨fd, f⟩ := r
          simp only [wp_liftFiles]
          refine h.wp_fileread _ (hE _ (by decide)) (fun hr => ⟨h, .readDenied hfd hr⟩) fun ip t r hr hip ht hst hres => ?_
          exact ⟨(h.of_still ht hst).moved f r.1, .read hfd hr hip hst hres⟩
  | write =>
      simp only [fileCall, sysWrite, wp_bind, wp_get]
      by_cases hcons : argint a.a0 = 1 ∧ (s.proc p).ofile ⟨1, by decide⟩ = none
      · rw [if_pos hcons]
        exact ⟨h, .console hcons⟩
      · rw [if_neg hcons]
        cases hfd : fdFile s p (argint a.a0) with
        | none => exact ⟨h, .unopened (by decide) hfd fun _ => hcons⟩
        | some r =>
            obtain ⟨fd, f⟩ := r
            simp only [wp_liftFiles, wp_pure]
            refine h.wp_filewrite _ _ hE (fun hw => ⟨h, .writeDenied hfd hw⟩) (fun ip t hw hip ht hst href => ?_)
              fun ip t hw hip ht hslots href hsplice => ?_
            · exact ⟨h.of_still ht hst, .writeRefused hfd hw hip hst href⟩
            · refine ⟨(h.of_fs ht hslots fun k hk => hsplice.type hk.1).moved f _, ?_⟩
              exact .written hfd hw hip hslots href hsplice
  | close =>
      simp only [fileCall, sysClose, wp_bind, wp_get]
      cases hfd : fdFile s p (argint a.a0) with
      | none => exact ⟨h, .unopened (by decide) hfd (fun hc => absurd hc (by decide))⟩
      | some r =>
          obtain ⟨fd, f⟩ := r
          simp only [wp_bind, wp_liftFiles, wp_modify, wp_pure]
          exact h.wp_fileclose (hE _ (by decide)) fun v t hv hst hsound => ⟨hsound, .closed hfd hv hst⟩

/-- The invariant holds when an image is mounted. -/
theorem sound_start {total : Nat} {img : Mkfs.State} (hm : Mkfs.Makes total img)
    (h : FileStart img.blocks s) : Sound s.files ∧ s.files.fs.sb = Mkfs.superblock total ∧
      s.files.fs.dev.disk = img.blocks := by
  obtain ⟨m, hm₀, hdev⟩ : ∃ m : Machine, m = Machine.image img.blocks 0 ∧ m.files.fs.dev = Dev.boot img.blocks :=
    ⟨_, rfl, rfl⟩
  have hrun := h.fs
  rw [← hm₀] at hrun
  have hstart : Mkfs.MountStart img s.files.fs := ⟨_, hdev, hrun⟩
  have hnoip (f : Fin NFILE) : (s.files.ftable f).ip = none := by
    rw [h.ftable]
    rfl
  obtain ⟨-, hdisk, hsb, -⟩ := hm.mounted hstart
  refine ⟨⟨?_, fun f hf => absurd (hnoip f) hf, fun f ip hip => ?_⟩, hsb, hdisk⟩
  · rw [h.openRefs]
    exact hm.fsInv hstart
  · rw [hnoip f] at hip
    exact absurd hip (by simp)

theorem soundFiles_reach {total : Nat} {img : Mkfs.State} (hm : Mkfs.Makes total img)
    (h : Reach (FileStart img.blocks) FileStep s) : Sound s.files := by
  refine h.invariant (fun s => Sound s.files) (fun s hs => (sound_start hm hs).1) fun s t hs hst => ?_
  obtain ⟨p, a, c, r, hrun⟩ := hst
  have hcall : (fileCall p a c).wp (fun _ t => Sound t.files) (fun _ => True) s :=
    wp_mono (sound_fileCall (E := fun _ => True) hs a c fun _ _ => trivial) (fun _ _ hq => hq.1) fun _ _ => trivial
  exact wp_ok hcall hrun

/-- What a step of a run did. -/
theorem effect_of_run {t : Machine} {a : Args} {c : FileCall} {r : Int × List UInt8} (h : Sound s.files)
    (hrun : (fileCall p a c).run s = .ok (r, t)) : CallEffect s p a c r t := by
  have hcall : (fileCall p a c).wp (fun r t => CallEffect s p a c r t) (fun _ => True) s :=
    wp_mono (sound_fileCall (E := fun _ => True) h a c fun _ _ => trivial) (fun _ _ hq => hq.2) fun _ _ => trivial
  exact wp_ok hcall hrun

end Sound

end RiscvOsLab.Kernel
