import RiscvOsLab.Fs.Layout

/-!
# The image builder (`mkfs/mkfs.c`)

A host program: the image is a file of `len` blocks, read and written by `rsect` and `wsect`. A run that ends in
`exit(1)` or in a failed assertion is a `panic`, and leaves no image.
-/

namespace RiscvOsLab.Mkfs

open Prog Function Bytes
open RiscvOsLab.Fs

def NINODES : Nat := 200

/-- Block of the superblock. -/
def SBLOCK : Nat := 1

structure State where
  blocks : Nat → Block
  len : Nat
  sb : Superblock
  freeblock : Nat
  freeinode : Nat

def wsect (sec : Nat) (buf : Block) : Prog State Unit :=
  modify fun s => { s with blocks := update s.blocks sec buf, len := max s.len (sec + 1) }

def rsect (sec : Nat) : Prog State Block := do
  let s ← get
  if sec < s.len then
    return s.blocks sec
  else
    .panic "read"

/-- `buf[(b % (BSIZE * 8)) / 8] |= (1 << (b % 8))`. -/
def markBit (buf : Block) (b : Nat) : Block :=
  update buf (b % BPB / 8) (UInt8.ofNat ((buf (b % BPB / 8)).toNat ||| 1 <<< (b % 8)))

def ballocMark (blockno : Nat) : Prog State Unit := do
  let sb ← gets State.sb
  let buf ← rsect (sb.bmapstart + blockno / BPB)
  wsect (sb.bmapstart + blockno / BPB) (markBit buf blockno)

def nextBlock : Prog State Nat := do
  let b ← gets State.freeblock
  modify fun s => { s with freeblock := b + 1 }
  ballocMark b
  return b

def winode (inum : Nat) (ip : Dinode) : Prog State Unit := do
  let sb ← gets State.sb
  let buf ← rsect (sb.inodestart + inum / IPB)
  wsect (sb.inodestart + inum / IPB) (putDinode buf (inum % IPB) ip)

def rinode (inum : Nat) : Prog State Dinode := do
  let sb ← gets State.sb
  let buf ← rsect (sb.inodestart + inum / IPB)
  return dinodeAt buf (inum % IPB)

def ialloc (type : UInt16) : Prog State Nat := do
  let inum ← gets State.freeinode
  modify fun s => { s with freeinode := inum + 1 }
  winode inum { Dinode.zero with type, nlink := 1 }
  return inum

/-- The block of logical block `fbn`, allocated if there is none. -/
def blockOf (din : Dinode) (fbn : Nat) : Prog State (Dinode × Nat) := do
  if fbn < NDIRECT then
    if din.addr fbn = 0 then
      let b ← nextBlock
      return (din.setAddr fbn b, b)
    else
      return (din, din.addr fbn)
  else
    let din ← if din.addr NDIRECT = 0 then do
        let b ← nextBlock
        pure (din.setAddr NDIRECT b)
      else pure din
    let ibuf ← rsect (din.addr NDIRECT)
    if (u32At ibuf (4 * (fbn - NDIRECT))).toNat = 0 then
      let b ← nextBlock
      wsect (din.addr NDIRECT) (put32 ibuf (4 * (fbn - NDIRECT)) (UInt32.ofNat b))
      return (din, b)
    else
      return (din, (u32At ibuf (4 * (fbn - NDIRECT))).toNat)

/-- The loop of `iappend`: `n` bytes of `xp` from position `pos` on, to offset `off`. -/
def iappendLoop (din : Dinode) (xp : Bytes) (pos off n : Nat) : Prog State (Dinode × Nat) :=
  if 0 < n then do
    if off / BSIZE < NDIRECT + NINDIRECT then
      let (din, x) ← blockOf din (off / BSIZE)
      let buf ← rsect x
      wsect x (blit buf (off % BSIZE) (fun i => xp (pos + i)) (min (BSIZE - off % BSIZE) n))
      iappendLoop din xp (pos + min (BSIZE - off % BSIZE) n) (off + min (BSIZE - off % BSIZE) n)
        (n - min (BSIZE - off % BSIZE) n)
    else
      .panic "assert"
  else return (din, off)
termination_by n
decreasing_by
  have : off % BSIZE < BSIZE := Nat.mod_lt _ (by decide)
  omega

def iappend (inum : Nat) (xp : Bytes) (n : Nat) : Prog State Unit := do
  let din ← rinode inum
  let (din, off) ← iappendLoop din xp 0 din.size.toNat n
  winode inum { din with size := UInt32.ofNat off }

/-- Blocks of the inode area. -/
def inodeblocks : Nat := (NINODES + IPB - 1) / IPB

/-- Blocks of the bit map. -/
def nbitmap (total : Nat) : Nat := (total + BPB - 1) / BPB

/-- Blocks before the data area. -/
def nmeta (total : Nat) : Nat := 1 + 1 + inodeblocks + nbitmap total

def superblock (total : Nat) : Superblock where
  magic := FSMAGIC
  size := total
  nblocks := total - nmeta total
  ninodes := NINODES
  nlog := 0
  logstart := 0
  inodestart := 2
  bmapstart := 2 + inodeblocks

/-- `memcpy(sbuf, &sb, sizeof(sb))` over zeros. -/
def sbBytes (sb : Superblock) : Block :=
  blit (fun _ => 0) 0 (words32 fun i => UInt32.ofNat
    (match i with
      | 0 => sb.magic | 1 => sb.size | 2 => sb.nblocks | 3 => sb.ninodes
      | 4 => sb.nlog | 5 => sb.logstart | 6 => sb.inodestart | _ => sb.bmapstart)) 32

/-- The name field of a directory entry: the bytes of a short name, then zeros. -/
def nameBytes (name : List UInt8) : Bytes := fun i => name.getD i 0

/-- `main`, from the block count on. `total` is an `int`: a count for which `total + BSIZE*8 - 1` overflows
has no defined outcome, and no image here. -/
def main (total : Nat) : Prog State Unit := do
  if 2 ^ 31 ≤ total + BPB - 1 then
    .panic "overflow"
  else
    forN (fun i => wsect i fun _ => 0) total
    modify fun s => { s with sb := superblock total }
    wsect SBLOCK (sbBytes (superblock total))
    modify fun s => { s with freeblock := nmeta total }
    forN ballocMark (nmeta total)
    let rootino ← ialloc T_DIR
    if rootino = ROOTINO then
      iappend rootino (mkDirent (UInt16.ofNat rootino) (nameBytes [0x2e])) DIRENT
      iappend rootino (mkDirent (UInt16.ofNat rootino) (nameBytes [0x2e, 0x2e])) DIRENT
    else
      .panic "assert"

/-- The image file is created empty. -/
def boot : State where
  blocks := fun _ _ => 0
  len := 0
  sb := ⟨0, 0, 0, 0, 0, 0, 0, 0⟩
  freeblock := 0
  freeinode := 1

/-- The run of `mkfs` with this block count leaves the image `img`. -/
def Makes (total : Nat) (img : State) : Prop := (main total).run boot = .ok ((), img)

end RiscvOsLab.Mkfs
