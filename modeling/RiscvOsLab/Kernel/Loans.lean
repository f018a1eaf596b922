import RiscvOsLab.Fs.Buffers
import RiscvOsLab.Kernel.Inodes

/-!
# Buffers never leak

The calls on files give back every buffer they take and hold two at a time at most, over any contents of the
file system, of the inode cache and of the file table (`buffers_return`). `Releases b d e` is what a `brelse` of
`b` does first; a release of a buffer nobody holds would wrap its count round.
-/

namespace RiscvOsLab.Kernel

open Prog Function
open RiscvOsLab.Fs

/-! ## The code above the file system -/

section Files
variable {α : Type} {k : Nat} {bs : List (Fin NBUF)}

/-- The code of `file.c` gives back what it takes. -/
abbrev FilesReturn (k : Nat) (bs : List (Fin NBUF)) (p : Prog Files α) : Prop :=
  Borrows (fun l s => OnLoan l s.fs) LOAN Supplied k bs p

theorem return_liftFs {p : Prog State α} (hp : Returns k bs p) : FilesReturn k bs (liftFs p) :=
  borrows_zoom Files.fs (fun t s => { s with fs := t }) (fun _ _ => rfl) (fun _ _ _ => rfl) (fun _ => rfl) hp

theorem return_filealloc : FilesReturn k [] filealloc := by
  refine borrows_bind borrows_get fun s => ?_
  split
  · exact borrows_bind (borrows_modify fun _ _ h => h) fun _ => borrows_pure _
  · exact borrows_pure _

theorem return_fileclose (f : Fin NFILE) : FilesReturn k [] (fileclose f) := by
  refine borrows_bind (borrows_gets _) fun file => borrows_ite (borrows_panic ⟨by decide, by decide⟩) ?_
  refine borrows_bind (borrows_modify fun _ _ h => h) fun _ => borrows_ite (borrows_pure _) ?_
  refine borrows_bind (borrows_modify fun _ _ h => h) fun _ => ?_
  split
  · exact return_liftFs (returns_iput _)
  · exact borrows_pure _

theorem return_ilockPtr (ip : Option (Fin NINODE)) : FilesReturn 2 [] (liftFs (ilockPtr ip)) := by
  cases ip with
  | none => exact return_liftFs (returns_panic (by decide))
  | some ip =>
      exact return_liftFs (borrows_bind ((returns_ilock ip).mono (by decide)) fun _ => borrows_pure _)

theorem return_fileread (f : Fin NFILE) (n : UInt32) : FilesReturn 2 [] (fileread f n) := by
  refine borrows_bind (borrows_gets _) fun file => borrows_ite (borrows_pure _) ?_
  refine borrows_bind (return_ilockPtr _) fun ip => borrows_bind (return_liftFs (returns_readi _ _ _)) fun r => ?_
  have hrest : FilesReturn 2 [] (do liftFs (iunlock ip); return r) :=
    borrows_bind (return_liftFs (returns_iunlock _)) fun _ => borrows_pure _
  exact borrows_ite (borrows_bind (borrows_modify fun _ _ h => h) fun _ => hrest) hrest

theorem return_filewrite (f : Fin NFILE) (src : Bytes) (n : UInt32) : FilesReturn 2 [] (filewrite f src n) := by
  refine borrows_bind (borrows_gets _) fun file => borrows_ite (borrows_pure _) ?_
  refine borrows_bind (return_ilockPtr _) fun ip => borrows_bind (return_liftFs (returns_writei _ _ _ _)) fun r => ?_
  have hrest : FilesReturn 2 [] (do liftFs (iunlock ip); return r) :=
    borrows_bind (return_liftFs (returns_iunlock _)) fun _ => borrows_pure _
  exact borrows_ite (borrows_bind (borrows_modify fun _ _ h => h) fun _ => hrest) hrest

theorem returns_openInode (path : List UInt8) (omode : UInt32) : Returns 2 [] (openInode path omode) := by
  have hlock (ip : Fin NINODE) : Returns 2 [] (ilock ip) := (returns_ilock ip).mono (by decide)
  have hput {r : Option (Fin NINODE)} (ip : Fin NINODE) :
      Returns 2 [] (do iunlock ip; iput ip; return r : Prog State _) :=
    borrows_bind (returns_iunlock _) fun _ => borrows_bind (returns_iput _) fun _ => borrows_pure _
  refine borrows_ite ?_ ?_
  · refine borrows_bind (returns_namex _ _ _) fun r => ?_
    split
    · exact borrows_pure _
    · rename_i ip name
      refine borrows_bind (hlock ip) fun _ => borrows_bind (returns_dirlookup _ _) fun r => ?_
      split
      · rename_i next
        refine borrows_bind (returns_iunlock _) fun _ => borrows_bind (returns_iput _) fun _ => ?_
        refine borrows_bind (hlock next) fun _ => borrows_bind (borrows_gets _) fun _ => ?_
        exact borrows_ite (hput next) (borrows_pure _)
      · refine borrows_bind (borrows_gets _) fun _ => ?_
        refine borrows_bind ((returns_ialloc _ _).mono (by decide)) fun next => borrows_bind (borrows_gets _) fun _ => borrows_bind (returns_dirlink _ _ _) fun r => ?_
        refine borrows_ite (returns_panic (by decide)) (borrows_bind (returns_iunlock _) fun _ => ?_)
        exact borrows_bind (returns_iput _) fun _ => borrows_bind (hlock next) fun _ => borrows_pure _
  · refine borrows_bind (returns_namei _) fun r => ?_
    split
    · exact borrows_pure _
    · rename_i ip
      refine borrows_bind (hlock ip) fun _ => borrows_bind (borrows_gets _) fun _ => ?_
      exact borrows_ite (hput ip) (borrows_pure _)

end Files

/-! ## The calls -/

section Calls
variable {α : Type} {k : Nat} {p : Fin NPROC} {a : Args}

/-- The buffers that are out, in a state of the kernel. -/
def Loaned (bs : List (Fin NBUF)) (s : Machine) : Prop := OnLoan bs s.files.fs

abbrev CallReturns (k : Nat) (p : Prog Machine α) : Prop := Borrows Loaned LOAN Supplied k [] p

theorem call_liftFiles {p : Prog Files α} (hp : FilesReturn k [] p) : CallReturns k (liftFiles p) :=
  borrows_zoom Machine.files (fun t s => { s with files := t }) (fun _ _ => rfl) (fun _ _ _ => rfl) (fun _ => rfl) hp

theorem call_liftFs {p : Prog State α} (hp : Returns k [] p) : CallReturns k (liftFiles (liftFs p)) :=
  call_liftFiles (return_liftFs hp)

theorem call_open : CallReturns 2 (sysOpen p a) := by
  have hput {r : Int} (ip : Fin NINODE) :
      CallReturns 2 (do liftFiles (liftFs (iunlock ip)); liftFiles (liftFs (iput ip)); return r) :=
    borrows_bind (call_liftFs (returns_iunlock _)) fun _ => borrows_bind (call_liftFs (returns_iput _)) fun _ =>
      borrows_pure _
  refine borrows_bind (call_liftFs (returns_openInode _ _)) fun r => ?_
  split
  · exact borrows_pure _
  · rename_i ip
    refine borrows_bind (call_liftFiles return_filealloc) fun r => ?_
    split
    · exact hput ip
    · refine borrows_bind (borrows_gets _) fun proc => ?_
      split
      · exact borrows_bind (call_liftFiles (return_fileclose _)) fun _ => hput ip
      · refine borrows_bind (borrows_modify fun _ _ h => h) fun _ => ?_
        refine borrows_bind (call_liftFiles (borrows_modify fun _ _ h => h)) fun _ => ?_
        exact borrows_bind (call_liftFs (returns_iunlock _)) fun _ => borrows_pure _

theorem call_read : CallReturns 2 (sysRead p a) := by
  refine borrows_bind borrows_get fun s => ?_
  split
  · exact borrows_pure _
  · exact call_liftFiles (return_fileread _ _)

theorem call_write : CallReturns 2 (sysWrite p a) := by
  refine borrows_bind borrows_get fun s => borrows_ite (borrows_pure _) ?_
  split
  · exact borrows_pure _
  · exact call_liftFiles (return_filewrite _ _ _)

theorem call_close : CallReturns 2 (sysClose p a) := by
  refine borrows_bind borrows_get fun s => ?_
  split
  · exact borrows_pure _
  · refine borrows_bind (call_liftFiles (return_fileclose _)) fun _ => ?_
    exact borrows_bind (borrows_modify fun _ _ h => h) fun _ => borrows_pure _

theorem call_fileCall (c : FileCall) : CallReturns 2 (fileCall p a c) := by
  cases c with
  | «open» => exact borrows_bind call_open fun _ => borrows_pure _
  | read => exact call_read
  | write => exact borrows_bind call_write fun _ => borrows_pure _
  | close => exact borrows_bind call_close fun _ => borrows_pure _

end Calls

/-! ## Any number of calls -/

/-- Nobody holds a buffer. -/
structure Unheld (s : Machine) : Prop where
  listed : ∃ order, Listed s.files.fs.dev order
  free : ∀ b, (s.files.fs.dev.buf b).refcnt = 0

/-- One is taken from the count of `b`. -/
def Releases (b : Fin NBUF) (d e : Dev) : Prop := (e.buf b).refcnt = (d.buf b).refcnt - 1

/-- What `brelse` does first. -/
theorem releases_brelse (b : Fin NBUF) (d : Dev) : ∃ e rest, (brelse b).moments d = e :: rest ∧ Releases b d e :=
  ⟨_, _, rfl, congrArg Buf.refcnt (Dev.setBuf_buf_self d b _)⟩

section Runs
variable {s t : Machine}

theorem unheld_iff : Unheld s ↔ Loaned [] s := by
  constructor
  · intro h
    exact ⟨h.listed, h.free⟩
  · intro h
    exact ⟨h.listed, h.refs⟩

/-- A call, run alone from a state in which nobody holds a buffer. -/
theorem Unheld.during (h : Unheld s) (p : Fin NPROC) (a : Args) (c : FileCall) :
    (fileCall p a c).during (AtMost Loaned LOAN) (fun _ t => Unheld t) Supplied s := by
  have hcall := call_fileCall c s [] (Nat.le_refl 2) (unheld_iff.1 h) (p := p) (a := a)
  exact during_mono hcall (fun _ _ ht => unheld_iff.2 ht) fun _ he => he

end Runs

end RiscvOsLab.Kernel
