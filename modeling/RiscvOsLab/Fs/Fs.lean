import RiscvOsLab.Fs.Layout

/-!
# The file system (`kernel/fs/fs.c`)

The functions of the source in its order. A `struct inode *` is a slot of `icache`; a path is the list of
its bytes before the NUL; a name is the 14-byte buffer `char name[DIRSIZ]` as a function.

The loops of `readi` and `writei` carry what is left to transfer, `n - tot` of the source. A transfer to or
from `dst` and `src` is a value: `readi` returns the bytes it delivers, `writei` takes the bytes as a function
of the position.
-/

namespace RiscvOsLab.Fs

open Prog Function Bytes

/-- Slots of the inode cache. -/
def NINODE : Nat := 50

/-- `struct inode`: the fields after `valid` are those of the dinode. -/
structure Inode where
  dev : Nat
  inum : Nat
  ref : Int
  valid : Bool
  din : Dinode

/-- The disk with its cache, the superblock in memory and the inode cache. -/
structure State where
  dev : Dev
  sb : Superblock
  icache : Fin NINODE → Inode

namespace State

def setInode (s : State) (ip : Fin NINODE) (v : Inode) : State := { s with icache := update s.icache ip v }

def setDin (s : State) (ip : Fin NINODE) (din : Dinode) : State :=
  s.setInode ip { s.icache ip with din := din }

@[simp] theorem setInode_dev (s : State) (ip : Fin NINODE) (v : Inode) : (s.setInode ip v).dev = s.dev := rfl
@[simp] theorem setInode_sb (s : State) (ip : Fin NINODE) (v : Inode) : (s.setInode ip v).sb = s.sb := rfl

@[simp] theorem setInode_self (s : State) (ip : Fin NINODE) (v : Inode) : (s.setInode ip v).icache ip = v :=
  update_self _ _ _

theorem setInode_of_ne {ip jp : Fin NINODE} (h : jp ≠ ip) (s : State) (v : Inode) :
    (s.setInode ip v).icache jp = s.icache jp := update_of_ne h _ _

end State

/-- Code of the buffer cache, run inside the file system. -/
def lift {α : Type} (p : Prog Dev α) : Prog State α := p.zoom State.dev fun d s => { s with dev := d }

@[simp] theorem wp_lift {α : Type} {Q : α → State → Prop} {E : Halt → Prop} {s : State} (p : Prog Dev α) :
    (lift p).wp Q E s ↔ p.wp (fun a d => Q a { s with dev := d }) E s.dev :=
  wp_zoom State.dev (fun d s => { s with dev := d }) (fun _ _ => rfl) (fun _ _ _ => rfl) (fun _ => rfl) p

/-! ## Superblock and blocks -/

def fsinit (dev : Nat) : Prog State Unit := do
  let bp ← lift (bread dev 1)
  let data ← lift (load bp)
  modify fun s => { s with sb := sbAt data }
  lift (brelse bp)
  let sb ← gets State.sb
  if sb.magic ≠ FSMAGIC then
    .panic "invalid file system"
  else
    modify fun s => { s with icache := fun i => { s.icache i with ref := 0, valid := false } }

def bzero (dev bno : Nat) : Prog State Unit := do
  let bp ← lift (bread dev bno)
  lift (store bp fun d => blit d 0 (fun _ => 0) BSIZE)
  lift (bwrite bp)
  lift (brelse bp)

/-- The two inner loops of `balloc` over the bit map block of the blocks from `b`: byte and bit of the first
clear bit, from byte `bi` on. -/
def scanMap (data : Block) (b size bi : Nat) : Option (Nat × Nat) :=
  if bi < BSIZE ∧ b + bi * 8 < size then
    let m := (data bi).toNat
    if m ≠ 0xff then
      match (List.range 8).find? fun bi2 => m &&& 1 <<< bi2 = 0 with
      | some bi2 => some (bi, bi2)
      | none => scanMap data b size (bi + 1)
    else scanMap data b size (bi + 1)
  else none
termination_by BSIZE - bi

/-- The outer loop of `balloc`, from the bit map block of the blocks from `b` on. -/
def ballocFrom (dev : Nat) (sb : Superblock) (b : Nat) : Prog State Nat :=
  if b < sb.size then do
    let bp ← lift (bread dev (sb.bmapstart + b / BPB))
    let data ← lift (load bp)
    match scanMap data b sb.size 0 with
    | some (bi, bi2) =>
        lift (store bp fun d => update d bi (UInt8.ofNat ((d bi).toNat ||| 1 <<< bi2)))
        lift (bwrite bp)
        lift (brelse bp)
        bzero dev (b + bi * 8 + bi2)
        return b + bi * 8 + bi2
    | none =>
        lift (brelse bp)
        ballocFrom dev sb (b + BPB)
  else .panic "balloc: out of blocks"
termination_by sb.size - b
decreasing_by simp only [BPB, BSIZE]; omega

def balloc (dev : Nat) : Prog State Nat := do
  let sb ← gets State.sb
  ballocFrom dev sb 0

/-! ## Inodes -/

/-- One pass over `icache.inode`: a live slot of the inode, else the first free one. -/
def iget (dev inum : Nat) : Prog State (Fin NINODE) := do
  let s ← get
  match (List.finRange NINODE).find? fun i =>
      (s.icache i).ref > 0 && (s.icache i).dev == dev && (s.icache i).inum == inum with
  | some ip =>
      modify fun s => s.setInode ip { s.icache ip with ref := (s.icache ip).ref + 1 }
      return ip
  | none =>
      match (List.finRange NINODE).find? fun i => (s.icache i).ref == 0 with
      | none => .panic "iget: no inodes"
      | some ip =>
          modify fun s => s.setInode ip { s.icache ip with dev, inum, ref := 1, valid := false }
          return ip

def ilock (ip : Fin NINODE) : Prog State Unit := do
  let s ← get
  let inode := s.icache ip
  if inode.ref < 1 then
    .panic "ilock"
  else if inode.valid then
    return ()
  else
    let bp ← lift (bread inode.dev (s.sb.inodestart + inode.inum / IPB))
    let data ← lift (load bp)
    modify fun s => s.setDin ip (dinodeAt data (inode.inum % IPB))
    lift (brelse bp)
    modify fun s => s.setInode ip { s.icache ip with valid := true }
    let type ← gets fun s => (s.icache ip).din.type
    if type = 0 then
      .panic "ilock: no type"
    else
      return ()

def iunlock (ip : Fin NINODE) : Prog State Unit := do
  let ref ← gets fun s => (s.icache ip).ref
  if ref < 1 then
    .panic "iunlock"
  else
    return ()

/-- The state after `iput`. -/
def iputState (s : State) (ip : Fin NINODE) : State :=
  let inode := s.icache ip
  let valid := if inode.ref = 1 ∧ inode.valid ∧ inode.din.nlink = 0 then false else inode.valid
  let ref := inode.ref - 1
  s.setInode ip { inode with ref, valid := if ref = 0 then false else valid }

def iput (ip : Fin NINODE) : Prog State Unit := modify fun s => iputState s ip

def iupdate (ip : Fin NINODE) : Prog State Unit := do
  let s ← get
  let inode := s.icache ip
  let bp ← lift (bread inode.dev (s.sb.inodestart + inode.inum / IPB))
  lift (store bp fun d => putDinode d (inode.inum % IPB) inode.din)
  lift (bwrite bp)
  lift (brelse bp)

/-- The loop of `ialloc`, from `inum` on. -/
def iallocFrom (dev : Nat) (type : UInt16) (sb : Superblock) (inum : Nat) : Prog State (Fin NINODE) :=
  if inum < sb.ninodes then do
    let bp ← lift (bread dev (sb.inodestart + inum / IPB))
    let data ← lift (load bp)
    if (dinodeAt data (inum % IPB)).type = 0 then
      lift (store bp fun d => putDinode d (inum % IPB) { Dinode.zero with type })
      lift (bwrite bp)
      lift (brelse bp)
      iget dev inum
    else
      lift (brelse bp)
      iallocFrom dev type sb (inum + 1)
  else .panic "ialloc: no inodes"
termination_by sb.ninodes - inum

def ialloc (dev : Nat) (type : UInt16) : Prog State (Fin NINODE) := do
  let sb ← gets State.sb
  iallocFrom dev type sb 1

/-! ## Contents of an inode -/

/-- The block number of slot `j` of `ip->addrs`, allocated if it is 0. -/
def addrOf (ip : Fin NINODE) (j : Nat) : Prog State Nat := do
  let inode ← gets fun s => s.icache ip
  if inode.din.addr j = 0 then
    let addr ← balloc inode.dev
    modify fun s => s.setDin ip ((s.icache ip).din.setAddr j addr)
    return addr
  else
    return inode.din.addr j

def bmap (ip : Fin NINODE) (bn : Nat) : Prog State Nat := do
  if bn < NDIRECT then
    addrOf ip bn
  else if bn - NDIRECT < NINDIRECT then
    let dev ← gets fun s => (s.icache ip).dev
    let addr ← addrOf ip NDIRECT
    let bp ← lift (bread dev addr)
    let a ← lift (load bp)
    if (u32At a (4 * (bn - NDIRECT))).toNat = 0 then
      let addr ← balloc dev
      lift (store bp fun a => put32 a (4 * (bn - NDIRECT)) (UInt32.ofNat addr))
      lift (bwrite bp)
      lift (brelse bp)
      return addr
    else
      lift (brelse bp)
      return (u32At a (4 * (bn - NDIRECT))).toNat
  else .panic "bmap: out of range"

/-- The loop of `readi`: `left` bytes from offset `off`. -/
def readiLoop (ip : Fin NINODE) (off left : Nat) : Prog State (List UInt8) :=
  if 0 < left then do
    let blockno ← bmap ip (off / BSIZE)
    let dev ← gets fun s => (s.icache ip).dev
    let bp ← lift (bread dev blockno)
    let data ← lift (load bp)
    lift (brelse bp)
    let rest ← readiLoop ip (off + min (BSIZE - off % BSIZE) left) (left - min (BSIZE - off % BSIZE) left)
    return (List.range (min (BSIZE - off % BSIZE) left)).map (fun i => data (off % BSIZE + i)) ++ rest
  else return []
termination_by left
decreasing_by
  have : off % BSIZE < BSIZE := Nat.mod_lt _ (by decide)
  omega

/-- The result of `readi`, and the bytes stored at `dst`. -/
def readi (ip : Fin NINODE) (off n : UInt32) : Prog State (Int × List UInt8) := do
  let size ← gets fun s => (s.icache ip).din.size
  if off > size ∨ off + n < off then
    return (0, [])
  else
    let n := if off + n > size then size - off else n
    let bytes ← readiLoop ip off.toNat n.toNat
    return (n.toInt32.toInt, bytes)

/-- The comparison loop of `dirlookup`, from byte `i` on with `k` bytes to go. -/
def nameMatch (de name : Bytes) : Nat → Nat → Bool
  | 0, _ => true
  | k + 1, i => if de i ≠ name i then false else if name i = 0 then true else nameMatch de name k (i + 1)

/-- The loop of `dirlookup`, from offset `off` on. The output `poff` is a null pointer at every call. -/
def dirlookupFrom (dp : Fin NINODE) (name : Bytes) (size off : Nat) : Prog State (Option (Fin NINODE)) :=
  if off < size then do
    let (r, bytes) ← readi dp (UInt32.ofNat off) (UInt32.ofNat DIRENT)
    if r ≠ DIRENT then
      .panic "dirlookup: read error"
    else
      let de : Bytes := fun i => bytes.getD i 0
      if deInum de = 0 then
        dirlookupFrom dp name size (off + DIRENT)
      else if nameMatch (deName de) name DIRSIZ 0 then
        let dev ← gets fun s => (s.icache dp).dev
        let ip ← iget dev (deInum de).toNat
        return some ip
      else
        dirlookupFrom dp name size (off + DIRENT)
  else return none
termination_by size - off
decreasing_by all_goals simp only [DIRENT]; omega

def dirlookup (dp : Fin NINODE) (name : Bytes) : Prog State (Option (Fin NINODE)) := do
  let size ← gets fun s => (s.icache dp).din.size
  dirlookupFrom dp name size.toNat 0

/-- The loop of `writei`: `left` bytes of `src` from position `pos` on, to offset `off`. -/
def writeiLoop (ip : Fin NINODE) (src : Bytes) (pos off left : Nat) : Prog State Unit :=
  if 0 < left then do
    let blockno ← bmap ip (off / BSIZE)
    let dev ← gets fun s => (s.icache ip).dev
    let bp ← lift (bread dev blockno)
    let m := min (BSIZE - off % BSIZE) left
    lift (store bp fun d => blit d (off % BSIZE) (fun i => src (pos + i)) m)
    lift (bwrite bp)
    lift (brelse bp)
    writeiLoop ip src (pos + min (BSIZE - off % BSIZE) left) (off + min (BSIZE - off % BSIZE) left)
      (left - min (BSIZE - off % BSIZE) left)
  else return ()
termination_by left
decreasing_by
  have : off % BSIZE < BSIZE := Nat.mod_lt _ (by decide)
  omega

def writei (ip : Fin NINODE) (src : Bytes) (off n : UInt32) : Prog State Int := do
  let size ← gets fun s => (s.icache ip).din.size
  if off > size ∨ off + n < off then
    return -1
  else if off + n > UInt32.ofNat ((NDIRECT + NINDIRECT) * BSIZE) then
    return -1
  else
    writeiLoop ip src 0 off.toNat n.toNat
    let size ← gets fun s => (s.icache ip).din.size
    if n > 0 ∧ off + n > size then
      modify fun s => s.setDin ip { (s.icache ip).din with size := off + n }
      iupdate ip
      return n.toInt32.toInt
    else
      return n.toInt32.toInt

/-! ## Directories and paths -/

/-- The loop of `dirlink`: the offset of the first free entry, or the end of the directory. -/
def freeEntryFrom (dp : Fin NINODE) (size off : Nat) : Prog State Nat :=
  if off < size then do
    let (r, bytes) ← readi dp (UInt32.ofNat off) (UInt32.ofNat DIRENT)
    if r ≠ DIRENT then
      .panic "dirlink read"
    else if deInum (fun i => bytes.getD i 0) = 0 then
      return off
    else
      freeEntryFrom dp size (off + DIRENT)
  else return off
termination_by size - off
decreasing_by simp only [DIRENT]; omega

def dirlink (dp : Fin NINODE) (name : Bytes) (inum : Nat) : Prog State Int := do
  match ← dirlookup dp name with
  | some ip =>
      iput ip
      return -1
  | none =>
      let size ← gets fun s => (s.icache dp).din.size
      let off ← freeEntryFrom dp size.toNat 0
      let r ← writei dp (mkDirent (UInt16.ofNat inum) name) (UInt32.ofNat off) (UInt32.ofNat DIRENT)
      if r ≠ DIRENT then
        .panic "dirlink write"
      else
        return 0

/-- `'/'`. -/
def slash : UInt8 := 0x2f

/-- The next component of the path, left in `name`, and the rest of the path. -/
def skipelem (path : List UInt8) (name : Bytes) : Option (List UInt8 × Bytes) :=
  let s := path.dropWhile (· == slash)
  if s = [] then none
  else
    let elem := s.takeWhile (· != slash)
    let name :=
      if DIRSIZ ≤ elem.length then blit name 0 (fun i => elem.getD i 0) DIRSIZ
      else update (blit name 0 (fun i => elem.getD i 0) elem.length) elem.length 0
    some ((s.dropWhile (· != slash)).dropWhile (· == slash), name)

theorem length_dropWhile_le (p : UInt8 → Bool) : ∀ l : List UInt8, (l.dropWhile p).length ≤ l.length
  | [] => Nat.le_refl 0
  | a :: l => by
      rw [List.dropWhile_cons]
      split
      · exact Nat.le_succ_of_le (length_dropWhile_le p l)
      · exact Nat.le_refl _

theorem skipelem_length {path rest : List UInt8} {name name' : Bytes}
    (h : skipelem path name = some (rest, name')) : rest.length < path.length := by
  unfold skipelem at h
  cases hs : path.dropWhile (· == slash) with
  | nil => simp [hs] at h
  | cons a s =>
      have ha : (a == slash) = false := by
        have := List.head_dropWhile_not (· == slash) (l := path) (by simp [hs])
        simpa [hs] using this
      simp only [hs, reduceCtorEq, if_false, Option.some.injEq, Prod.mk.injEq] at h
      have h1 := length_dropWhile_le (· == slash) path
      have h2 := length_dropWhile_le (· != slash) s
      have h3 := length_dropWhile_le (· == slash) (s.dropWhile (· != slash))
      rw [hs, List.length_cons] at h1
      rw [← h.1, List.dropWhile_cons_of_pos (by simpa using ha)]
      omega

/-- The loop of `namex`: `path` is still to be walked from `ip`. -/
def namexFrom (nameiparent : Bool) (ip : Fin NINODE) (path : List UInt8) (name : Bytes) :
    Prog State (Option (Fin NINODE) × Bytes) :=
  match _h : skipelem path name with
  | some (path', name') => do
      ilock ip
      let type ← gets fun s => (s.icache ip).din.type
      if type ≠ T_DIR then
        iunlock ip
        iput ip
        return (none, name')
      else if nameiparent ∧ path' = [] then
        iunlock ip
        return (some ip, name')
      else
        match ← dirlookup ip name' with
        | none =>
            iunlock ip
            iput ip
            return (none, name')
        | some next =>
            iunlock ip
            iput ip
            namexFrom nameiparent next path' name'
  | none =>
      if nameiparent then do
        iput ip
        return (none, name)
      else return (some ip, name)
termination_by path.length
decreasing_by exact skipelem_length _h

/-- Every path starts at the root. -/
def namex (path : List UInt8) (nameiparent : Bool) (name : Bytes) :
    Prog State (Option (Fin NINODE) × Bytes) := do
  let ip ← iget ROOTDEV ROOTINO
  namexFrom nameiparent ip path name

/-- The buffer `name` of the caller is uninitialised; `skipelem` fills it before it is read. -/
def namei (path : List UInt8) : Prog State (Option (Fin NINODE)) := do
  let (ip, _) ← namex path false fun _ => 0
  return ip

def nameiparent (path : List UInt8) (name : Bytes) : Prog State (Option (Fin NINODE) × Bytes) :=
  namex path true name

end RiscvOsLab.Fs
