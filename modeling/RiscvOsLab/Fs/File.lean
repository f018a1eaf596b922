import RiscvOsLab.Fs.Fs

/-!
# Open files (`kernel/fs/file.c`)

The global table of `struct file`, over the file system.
-/

namespace RiscvOsLab.Fs

open Prog Function

/-- Entries of the file table. -/
def NFILE : Nat := 100

inductive FdType where
  | none
  | inode
  deriving DecidableEq

structure File where
  type : FdType
  ref : Int
  readable : Bool
  writable : Bool
  ip : Option (Fin NINODE)
  off : UInt32

/-- The file system and the file table. -/
structure Files where
  fs : State
  ftable : Fin NFILE → File

namespace Files

def setFile (s : Files) (f : Fin NFILE) (v : File) : Files := { s with ftable := update s.ftable f v }

@[simp] theorem setFile_fs (s : Files) (f : Fin NFILE) (v : File) : (s.setFile f v).fs = s.fs := rfl

@[simp] theorem setFile_self (s : Files) (f : Fin NFILE) (v : File) : (s.setFile f v).ftable f = v :=
  update_self _ _ _

theorem setFile_setFile (s : Files) (f : Fin NFILE) (v w : File) : (s.setFile f v).setFile f w = s.setFile f w := by
  unfold setFile
  rw [update_idem]

theorem setFile_of_ne {f g : Fin NFILE} (h : g ≠ f) (s : Files) (v : File) :
    (s.setFile f v).ftable g = s.ftable g := update_of_ne h _ _

end Files

/-- Code of the file system, run under the file table. -/
def liftFs {α : Type} (p : Prog State α) : Prog Files α := p.zoom Files.fs fun t s => { s with fs := t }

@[simp] theorem wp_liftFs {α : Type} {Q : α → Files → Prop} {E : Halt → Prop} {s : Files} (p : Prog State α) :
    (liftFs p).wp Q E s ↔ p.wp (fun a t => Q a { s with fs := t }) E s.fs :=
  wp_zoom Files.fs (fun t s => { s with fs := t }) (fun _ _ => rfl) (fun _ _ _ => rfl) (fun _ => rfl) p

def filealloc : Prog Files (Option (Fin NFILE)) := do
  let s ← get
  match (List.finRange NFILE).find? fun f => (s.ftable f).ref == 0 with
  | some f =>
      modify fun s => s.setFile f { s.ftable f with ref := 1 }
      return some f
  | none => return none

def filedup (f : Fin NFILE) : Prog Files (Fin NFILE) := do
  let ref ← gets fun s => (s.ftable f).ref
  if ref < 1 then
    .panic "filedup"
  else
    modify fun s => s.setFile f { s.ftable f with ref := ref + 1 }
    return f

def fileclose (f : Fin NFILE) : Prog Files Unit := do
  let file ← gets fun s => s.ftable f
  if file.ref < 1 then
    .panic "fileclose"
  else
    modify fun s => s.setFile f { file with ref := file.ref - 1 }
    if file.ref - 1 > 0 then
      return ()
    else
      modify fun s => s.setFile f
        { s.ftable f with type := .none, ip := none, off := 0, readable := false, writable := false }
      match file.ip with
      | some ip => liftFs (iput ip)
      | none => return ()

/-- `ilock(f->ip)`, which panics on a null pointer. -/
def ilockPtr (ip : Option (Fin NINODE)) : Prog State (Fin NINODE) :=
  match ip with
  | some ip => do
      ilock ip
      return ip
  | none => .panic "ilock"

def fileread (f : Fin NFILE) (n : UInt32) : Prog Files (Int × List UInt8) := do
  let file ← gets fun s => s.ftable f
  if file.readable = false then
    return (-1, [])
  else
    let ip ← liftFs (ilockPtr file.ip)
    let (r, bytes) ← liftFs (readi ip file.off n)
    if r > 0 then
      modify fun s => s.setFile f { s.ftable f with off := (s.ftable f).off + UInt32.ofNat r.toNat }
    else
      pure ()
    liftFs (iunlock ip)
    return (r, bytes)

def filewrite (f : Fin NFILE) (src : Bytes) (n : UInt32) : Prog Files Int := do
  let file ← gets fun s => s.ftable f
  if file.writable = false then
    return -1
  else
    let ip ← liftFs (ilockPtr file.ip)
    let r ← liftFs (writei ip src file.off n)
    if r > 0 then
      modify fun s => s.setFile f { s.ftable f with off := (s.ftable f).off + UInt32.ofNat r.toNat }
    else
      pure ()
    liftFs (iunlock ip)
    return r

end RiscvOsLab.Fs
