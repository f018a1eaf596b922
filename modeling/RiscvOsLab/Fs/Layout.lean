import RiscvOsLab.Fs.Bio

/-!
# What is stored in a block (`kernel/include/fs.h`)

The structures of the disk image, as records and as bytes: the superblock, the dinodes (`IPB` to a block), the
words of an indirect block, the bit map, the directory entries.
-/

namespace RiscvOsLab.Fs

open Bytes Function

def NDIRECT : Nat := 12
def NINDIRECT : Nat := BSIZE / 4
def DIRSIZ : Nat := 14
def FSMAGIC : Nat := 0x10203040
def ROOTINO : Nat := 1
def T_FILE : UInt16 := 1
def T_DIR : UInt16 := 2
def T_DEVICE : UInt16 := 3

/-- Dinodes to a block. -/
def IPB : Nat := BSIZE / 64

/-- Blocks covered by one block of the bit map. -/
def BPB : Nat := BSIZE * 8

/-! ## The superblock -/

structure Superblock where
  magic : Nat
  size : Nat
  nblocks : Nat
  ninodes : Nat
  nlog : Nat
  logstart : Nat
  inodestart : Nat
  bmapstart : Nat

def sbAt (d : Block) : Superblock where
  magic := (u32At d 0).toNat
  size := (u32At d 4).toNat
  nblocks := (u32At d 8).toNat
  ninodes := (u32At d 12).toNat
  nlog := (u32At d 16).toNat
  logstart := (u32At d 20).toNat
  inodestart := (u32At d 24).toNat
  bmapstart := (u32At d 28).toNat

/-! ## Dinodes -/

@[ext]
structure Dinode where
  type : UInt16
  major : UInt16
  minor : UInt16
  nlink : UInt16
  size : UInt32
  addrs : Fin (NDIRECT + 1) → UInt32

/-- A dinode of zeros. -/
def Dinode.zero : Dinode := ⟨0, 0, 0, 0, 0, fun _ => 0⟩

/-- `addrs[j]`. -/
def Dinode.addr (din : Dinode) (j : Nat) : Nat :=
  if h : j < NDIRECT + 1 then (din.addrs ⟨j, h⟩).toNat else 0

/-- `addrs[j] = v`. -/
def Dinode.setAddr (din : Dinode) (j v : Nat) : Dinode :=
  { din with addrs := fun i => if i.val = j then UInt32.ofNat v else din.addrs i }

/-- Dinode `i` of a block of the inode area. -/
def dinodeAt (d : Block) (i : Nat) : Dinode where
  type := u16At d (64 * i)
  major := u16At d (64 * i + 2)
  minor := u16At d (64 * i + 4)
  nlink := u16At d (64 * i + 6)
  size := u32At d (64 * i + 8)
  addrs := fun j => u32At d (64 * i + 12 + 4 * j)

/-- Dinode `i` of the block is assigned, field by field. -/
def putDinode (d : Block) (i : Nat) (din : Dinode) : Block :=
  let d := put16 d (64 * i) din.type
  let d := put16 d (64 * i + 2) din.major
  let d := put16 d (64 * i + 4) din.minor
  let d := put16 d (64 * i + 6) din.nlink
  let d := put32 d (64 * i + 8) din.size
  blit d (64 * i + 12) (words32 fun j => if h : j < NDIRECT + 1 then din.addrs ⟨j, h⟩ else 0) 52

theorem dinodeAt_putDinode_self (d : Block) (i : Nat) (din : Dinode) :
    dinodeAt (putDinode d i din) i = din := by
  ext1
  · simp only [dinodeAt, putDinode]
    rw [u16At_blit_out (by omega), put32, u16At_blit_out (by omega), put16, u16At_blit_out (by omega), put16,
      u16At_blit_out (by omega), put16, u16At_blit_out (by omega), u16At_put16]
  · simp only [dinodeAt, putDinode]
    rw [u16At_blit_out (by omega), put32, u16At_blit_out (by omega), put16, u16At_blit_out (by omega), put16,
      u16At_blit_out (by omega), u16At_put16]
  · simp only [dinodeAt, putDinode]
    rw [u16At_blit_out (by omega), put32, u16At_blit_out (by omega), put16, u16At_blit_out (by omega),
      u16At_put16]
  · simp only [dinodeAt, putDinode]
    rw [u16At_blit_out (by omega), put32, u16At_blit_out (by omega), u16At_put16]
  · simp only [dinodeAt, putDinode]
    rw [u32At_blit_out (by omega), u32At_put32]
  · funext j
    have hj : j.val < 13 := j.isLt
    simp only [dinodeAt, putDinode]
    rw [u32At_blit_in (by omega), u32At_words32, dif_pos j.isLt]

/-- Outside its 64 bytes the assignment of a dinode changes nothing. -/
theorem putDinode_out {d : Block} {i : Nat} {din : Dinode} {o : Nat} (h : o < 64 * i ∨ 64 * i + 64 ≤ o) :
    putDinode d i din o = d o := by
  simp only [putDinode, put16, put32]
  rw [blit_out (by omega), blit_out (by omega), blit_out (by omega), blit_out (by omega), blit_out (by omega),
    blit_out (by omega)]

theorem dinodeAt_congr {d d' : Block} {i : Nat} (h : ∀ o, 64 * i ≤ o → o < 64 * i + 64 → d o = d' o) :
    dinodeAt d i = dinodeAt d' i := by
  ext1
  · exact u16At_congr fun k hk => h _ (by omega) (by omega)
  · exact u16At_congr fun k hk => h _ (by omega) (by omega)
  · exact u16At_congr fun k hk => h _ (by omega) (by omega)
  · exact u16At_congr fun k hk => h _ (by omega) (by omega)
  · exact u32At_congr fun k hk => h _ (by omega) (by omega)
  · funext j
    have hj : j.val < 13 := j.isLt
    exact u32At_congr fun k hk => h _ (by omega) (by omega)

theorem dinodeAt_putDinode_of_ne {d : Block} {i j : Nat} (h : j ≠ i) (din : Dinode) :
    dinodeAt (putDinode d i din) j = dinodeAt d j :=
  dinodeAt_congr fun o h₁ h₂ => putDinode_out (by omega)

/-- A dinode of zero bytes. -/
theorem dinodeAt_zero {d : Block} {i : Nat} (h : ∀ o, 64 * i ≤ o → o < 64 * i + 64 → d o = 0) :
    dinodeAt d i = Dinode.zero := by
  ext1
  · exact u16At_zero fun k hk => h _ (by omega) (by omega)
  · exact u16At_zero fun k hk => h _ (by omega) (by omega)
  · exact u16At_zero fun k hk => h _ (by omega) (by omega)
  · exact u16At_zero fun k hk => h _ (by omega) (by omega)
  · exact u32At_zero fun k hk => h _ (by omega) (by omega)
  · funext j
    have hj : j.val < 13 := j.isLt
    exact u32At_zero fun k hk => h _ (by omega) (by omega)

namespace Dinode

theorem addr_lt (din : Dinode) (j : Nat) : din.addr j < 2 ^ 32 := by
  unfold addr
  split
  · exact UInt32.toNat_lt _
  · decide

theorem addr_setAddr {j : Nat} (hj : j < NDIRECT + 1) (din : Dinode) {v : Nat} (hv : v < 2 ^ 32) (k : Nat) :
    (din.setAddr j v).addr k = if k = j then v else din.addr k := by
  unfold addr setAddr
  by_cases hk : k < NDIRECT + 1
  · rw [dif_pos hk, dif_pos hk]
    by_cases hkj : k = j
    · simpa [hkj] using hv
    · simp [hkj]
  · rw [dif_neg hk, dif_neg hk, if_neg (by omega)]

@[simp] theorem setAddr_type (din : Dinode) (j v : Nat) : (din.setAddr j v).type = din.type := rfl
@[simp] theorem setAddr_size (din : Dinode) (j v : Nat) : (din.setAddr j v).size = din.size := rfl

end Dinode

/-! ## Directory entries -/

/-- Bytes of a directory entry. -/
def DIRENT : Nat := 16

/-- The `inum` of an entry given by its bytes. -/
def deInum (de : Bytes) : UInt16 := u16At de 0

/-- The name field of an entry. -/
def deName (de : Bytes) : Bytes := fun i => de (2 + i)

/-- The entry `dirlink` fills in: the field is zeroed, then takes the bytes of the name before its NUL. -/
def mkDirent (inum : UInt16) (name : Bytes) : Bytes :=
  put16 (fun o => if 2 ≤ o ∧ o < 2 + DIRSIZ ∧ ∀ j ≤ o - 2, name j ≠ 0 then name (o - 2) else 0) 0 inum

theorem deInum_mkDirent (inum : UInt16) (name : Bytes) : deInum (mkDirent inum name) = inum :=
  u16At_put16 _ _ _

end RiscvOsLab.Fs
