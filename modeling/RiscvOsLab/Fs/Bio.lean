import RiscvOsLab.Lib.Bytes
import RiscvOsLab.Lib.Prog
import RiscvOsLab.Lib.Ring

/-!
# The buffer cache (`kernel/fs/bio.c`)

`Dev` is what this layer owns: the disk as an array of blocks, the array `bcache.buf` and the links of
its LRU list. The link fields `prev`, `next` of `struct buf` are kept as functions on the nodes (the
buffers and `bcache.head`); the flag `disk` belongs to the driver and stays there.

`virtioDiskRw` is one faithful transfer of a block with a switch point before it.
-/

namespace RiscvOsLab.Fs

open Prog Function

/-- Slots of the buffer cache. -/
def NBUF : Nat := 30

/-- The device of the root file system. -/
def ROOTDEV : Nat := 1

/-- Bytes of a disk block. -/
def BSIZE : Nat := 1024

/-- The contents of a block: the bytes at offsets below `BSIZE`. -/
abbrev Block := Bytes

/-- A node of the LRU list. -/
inductive Node where
  | head
  | buf (b : Fin NBUF)
  deriving DecidableEq

/-- The buffer a node is, if any. -/
def Node.buf? : Node → Option (Fin NBUF)
  | .head => none
  | .buf b => some b

/-- `struct buf`, less its links. -/
structure Buf where
  valid : Bool
  dev : Nat
  blockno : Nat
  refcnt : UInt32
  data : Block

/-- The disk and the buffer cache over it. -/
structure Dev where
  disk : Nat → Block
  buf : Fin NBUF → Buf
  links : Links Node

namespace Dev

def setBuf (s : Dev) (b : Fin NBUF) (v : Buf) : Dev := { s with buf := update s.buf b v }

@[simp] theorem setBuf_disk (s : Dev) (b : Fin NBUF) (v : Buf) : (s.setBuf b v).disk = s.disk := rfl

@[simp] theorem setBuf_links (s : Dev) (b : Fin NBUF) (v : Buf) : (s.setBuf b v).links = s.links := rfl

@[simp] theorem setBuf_buf_self (s : Dev) (b : Fin NBUF) (v : Buf) : (s.setBuf b v).buf b = v :=
  update_self _ _ _

theorem setBuf_buf_of_ne {b c : Fin NBUF} (h : c ≠ b) (s : Dev) (v : Buf) :
    (s.setBuf b v).buf c = s.buf c := update_of_ne h _ _

/-- The walk of the LRU list in one direction, from `bcache.head` round to it: the first buffer that
passes the test. -/
def scan (s : Dev) (step : Node → Node) (test : Buf → Bool) : Option (Option (Fin NBUF)) :=
  (Links.walk step .head (fun n => n.buf?.any fun b => test (s.buf b)) (NBUF + 1) (step .head)).map
    (Option.bind · Node.buf?)

end Dev

/-- The links `binit` leaves: every buffer in turn is put behind `bcache.head`. -/
def initLinks (k : Links Node) : Links Node :=
  (List.finRange NBUF).foldl (fun k b => k.insertHead .head (.buf b))
    ⟨update k.next .head .head, update k.prev .head .head⟩

def binit : Prog Dev Unit := modify fun s => { s with links := initLinks s.links }

/-- One block between the disk and a buffer. -/
def virtioDiskRw (b : Fin NBUF) (write : Bool) : Prog Dev Unit := do
  pause
  modify fun s =>
    if write then { s with disk := update s.disk (s.buf b).blockno (s.buf b).data }
    else s.setBuf b { s.buf b with data := s.disk (s.buf b).blockno }

def bget (dev blockno : Nat) : Prog Dev (Fin NBUF) := do
  let s ← get
  match s.scan s.links.next fun v => v.dev == dev && v.blockno == blockno with
  | none => spin
  | some (some b) =>
      modify fun s => s.setBuf b { s.buf b with refcnt := (s.buf b).refcnt + 1 }
      return b
  | some none =>
      match s.scan s.links.prev fun v => v.refcnt == 0 with
      | none => spin
      | some (some b) =>
          modify fun s => s.setBuf b { s.buf b with dev, blockno, valid := false, refcnt := 1 }
          return b
      | some none => .panic "bget: no buffers"

def bread (dev blockno : Nat) : Prog Dev (Fin NBUF) := do
  let b ← bget dev blockno
  let valid ← gets fun s => (s.buf b).valid
  if valid then
    return b
  else
    virtioDiskRw b false
    modify fun s => s.setBuf b { s.buf b with valid := true }
    return b

def bwrite (b : Fin NBUF) : Prog Dev Unit := virtioDiskRw b true

def brelse (b : Fin NBUF) : Prog Dev Unit := do
  modify fun s => s.setBuf b { s.buf b with refcnt := (s.buf b).refcnt - 1 }
  let refcnt ← gets fun s => (s.buf b).refcnt
  if refcnt = 0 then
    modify fun s => { s with links := (s.links.unlink (.buf b)).insertHead .head (.buf b) }
  else
    return ()

/-! ## What a client does with `b->data` -/

def load (b : Fin NBUF) : Prog Dev Block := gets fun s => (s.buf b).data

def store (b : Fin NBUF) (f : Block → Block) : Prog Dev Unit :=
  modify fun s => s.setBuf b { s.buf b with data := f (s.buf b).data }

/-- The kernel's image of the cache before `binit`: zeroed memory over a disk. -/
def Dev.boot (disk : Nat → Block) : Dev where
  disk := disk
  buf := fun _ => { valid := false, dev := 0, blockno := 0, refcnt := 0, data := fun _ => 0 }
  links := ⟨fun _ => .head, fun _ => .head⟩

end RiscvOsLab.Fs
