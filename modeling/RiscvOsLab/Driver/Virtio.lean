import RiscvOsLab.Fs.Bio
import RiscvOsLab.Lib.Queue
import RiscvOsLab.Lib.Trans
import Mathlib.Data.Fintype.Card

/-!
# The disk driver and its device (`kernel/driver/virtio_disk.c`)

`Disk` is the memory the driver and the device share: the descriptor table, the two rings, the driver's own
fields of `disk`, and of each `struct buf` what they touch. The parts of `virtio_disk_rw` are

* `submit` : three descriptors are taken, the chain is filled and published;
* `drainOne` : a round of the inner loop, one completion;
* `freeChain` : after the outer loop.

Around them stand the device (`fetch`, `serve`) and any number of processes, each inside `virtio_disk_rw`
with one request or outside. `State.pending` is a history variable: the requests that are published and not
completed.
-/

namespace RiscvOsLab.Driver

open Prog Function
open RiscvOsLab.Fs

/-- Descriptors of the queue. -/
def NUM : Nat := 8

instance : NeZero NUM := ⟨by decide⟩

instance : NeZero NBUF := ⟨by decide⟩

def VRING_DESC_F_NEXT : UInt16 := 1
def VRING_DESC_F_WRITE : UInt16 := 2
def VIRTIO_BLK_T_IN : Nat := 0
def VIRTIO_BLK_T_OUT : Nat := 1

/-- What the address in a descriptor points to. -/
inductive Addr where
  | null
  | op (i : Fin NUM)
  | data (b : Fin NBUF)
  | status (i : Fin NUM)
  deriving DecidableEq

structure VirtqDesc where
  addr : Addr
  len : Nat
  flags : UInt16
  next : Fin NUM
  deriving DecidableEq

structure BlkReq where
  type : Nat
  sector : Nat

structure Info where
  b : Option (Fin NBUF)
  status : UInt8

/-- The fields of `struct buf` the driver and the device touch. -/
structure DiskBuf where
  disk : Bool
  blockno : Nat
  data : Block

structure Disk where
  desc : Fin NUM → VirtqDesc
  availRing : Fin NUM → Fin NUM
  availIdx : UInt16
  usedRing : Fin NUM → Fin NUM
  usedIdx : UInt16
  free : Fin NUM → Bool
  /-- `disk.used_idx`, up to which the driver has read the used ring. -/
  seenIdx : UInt16
  info : Fin NUM → Info
  ops : Fin NUM → BlkReq
  buf : Fin NBUF → DiskBuf
  blocks : Nat → Block

/-! ## The driver -/

def allocDesc : Prog Disk (Fin NUM) := do
  let s ← get
  match (List.finRange NUM).find? s.free with
  | some i =>
      modify fun s => { s with free := update s.free i false }
      return i
  | none => .panic "virtio: no desc"

/-- The chain is written and the buffer marked. -/
def fillChain (s : Disk) (b : Fin NBUF) (write : Bool) (i₀ i₁ i₂ : Fin NUM) : Disk :=
  let d₀ : VirtqDesc := ⟨.op i₀, 16, VRING_DESC_F_NEXT, i₁⟩
  let d₁ : VirtqDesc :=
    ⟨.data b, BSIZE, (if write then 0 else VRING_DESC_F_WRITE) ||| VRING_DESC_F_NEXT, i₂⟩
  let d₂ : VirtqDesc := ⟨.status i₀, 1, VRING_DESC_F_WRITE, 0⟩
  { s with
    ops := update s.ops i₀
      ⟨if write then VIRTIO_BLK_T_OUT else VIRTIO_BLK_T_IN, (s.buf b).blockno * (BSIZE / 512)⟩
    desc := update (update (update s.desc i₀ d₀) i₁ d₁) i₂ d₂
    info := update s.info i₀ ⟨some b, 0xff⟩
    buf := update s.buf b { s.buf b with disk := true } }

/-- The head of a chain goes into the available ring. -/
def publish (s : Disk) (i : Fin NUM) : Disk :=
  { s with availRing := update s.availRing (slot NUM s.availIdx) i, availIdx := s.availIdx + 1 }

def submit (b : Fin NBUF) (write : Bool) : Prog Disk (Fin NUM × Fin NUM × Fin NUM) := do
  let i₀ ← allocDesc
  let i₁ ← allocDesc
  let i₂ ← allocDesc
  modify fun s => publish (fillChain s b write i₀ i₁ i₂) i₀
  return (i₀, i₁, i₂)

def drainOne : Prog Disk Unit := do
  let s ← get
  let id := s.usedRing (slot NUM s.seenIdx)
  if (s.info id).status ≠ 0 then
    .panic "virtio_disk_rw: status error"
  else
    match (s.info id).b with
    | some b => modify fun s =>
        { s with buf := update s.buf b { s.buf b with disk := false }, seenIdx := s.seenIdx + 1 }
    | none => modify fun s => { s with seenIdx := s.seenIdx + 1 }

/-- The rounds of `free_chain` from descriptor `i` on. A descriptor loses its flags as it is freed, so that
no chain takes more than `NUM + 1` of them. -/
def freeChainLoop (s : Disk) (i : Fin NUM) : Nat → Disk
  | 0 => s
  | n + 1 =>
      let d := s.desc i
      let s := { s with free := update s.free i true, desc := update s.desc i { d with flags := 0 } }
      if d.flags &&& VRING_DESC_F_NEXT ≠ 0 then freeChainLoop s d.next n else s

def freeChain (s : Disk) (i : Fin NUM) : Disk := freeChainLoop s i (NUM + 1)

/-- The memory after `virtio_disk_init`. -/
def Disk.boot (buf : Fin NBUF → DiskBuf) (blocks : Nat → Block) : Disk where
  desc := fun _ => ⟨.null, 0, 0, 0⟩
  availRing := fun _ => 0
  availIdx := 0
  usedRing := fun _ => 0
  usedIdx := 0
  free := fun _ => true
  seenIdx := 0
  info := fun _ => ⟨none, 0⟩
  ops := fun _ => ⟨0, 0⟩
  buf := fun b => { buf b with disk := false }
  blocks := blocks

/-! ## The device -/

/-- A block is moved, as the first two descriptors say. -/
def transfer (s : Disk) (d₀ d₁ : VirtqDesc) : Disk :=
  match d₀.addr, d₁.addr with
  | .op i, .data b =>
      let k := (s.ops i).sector / (BSIZE / 512)
      if (s.ops i).type = VIRTIO_BLK_T_OUT then { s with blocks := update s.blocks k (s.buf b).data }
      else { s with buf := update s.buf b { s.buf b with data := s.blocks k } }
  | _, _ => s

def putStatus (s : Disk) (d₂ : VirtqDesc) : Disk :=
  match d₂.addr with
  | .status i => { s with info := update s.info i { s.info i with status := 0 } }
  | _ => s

/-- The device serves the chain at `h` and puts its head into the used ring. -/
def serve (s : Disk) (h : Fin NUM) : Disk :=
  let d₀ := s.desc h
  let d₁ := s.desc d₀.next
  let d₂ := s.desc d₁.next
  let t := putStatus (transfer s d₀ d₁) d₂
  { t with usedRing := update t.usedRing (slot NUM t.usedIdx) h, usedIdx := t.usedIdx + 1 }

/-! ## The system -/

/-- A call of `virtio_disk_rw` that has published its chain. -/
structure Req (P : Type) where
  owner : P
  i₀ : Fin NUM
  i₁ : Fin NUM
  i₂ : Fin NUM
  buf : Fin NBUF
  write : Bool
  deriving DecidableEq

structure State (P : Type) where
  disk : Disk
  /-- Up to where the device has read the available ring. -/
  lastAvail : UInt16
  /-- The heads the device has read and not completed. -/
  inflight : List (Fin NUM)
  proc : P → Option (Req P)
  pending : List (Req P)
  halted : Option Halt

variable {P : Type} [DecidableEq P]

/-- The steps, in any order. Those of interest may restrict when a request is submitted. A process drains as
long as the ring has an entry: the inner loop goes on when the flag of its own buffer is already clear. -/
inductive Step (ok : State P → Fin NBUF → Prop) : State P → State P → Prop
  | submit {s : State P} {p : P} {b : Fin NBUF} {write : Bool} {i₀ i₁ i₂ : Fin NUM} {d : Disk} :
      s.halted = none → s.proc p = none → ok s b → (submit b write).run s.disk = .ok ((i₀, i₁, i₂), d) →
      Step ok s { s with
        disk := d
        proc := update s.proc p (some ⟨p, i₀, i₁, i₂, b, write⟩)
        pending := s.pending ++ [⟨p, i₀, i₁, i₂, b, write⟩] }
  | noDesc {s : State P} {p : P} {b : Fin NBUF} {write : Bool} {h : Halt} :
      s.halted = none → s.proc p = none → ok s b → (submit b write).run s.disk = .error h →
      Step ok s { s with halted := some h }
  | fetch {s : State P} : s.halted = none → s.lastAvail ≠ s.disk.availIdx →
      Step ok s { s with
        lastAvail := s.lastAvail + 1
        inflight := s.inflight ++ [s.disk.availRing (slot NUM s.lastAvail)] }
  | complete {s : State P} {h : Fin NUM} : s.halted = none → h ∈ s.inflight →
      Step ok s { s with
        disk := serve s.disk h
        inflight := s.inflight.erase h
        pending := s.pending.eraseP fun r => r.i₀ = h }
  | drain {s : State P} {p : P} {r : Req P} {d : Disk} : s.halted = none → s.proc p = some r →
      s.disk.seenIdx ≠ s.disk.usedIdx → drainOne.run s.disk = .ok ((), d) →
      Step ok s { s with disk := d }
  | statusError {s : State P} {p : P} {r : Req P} {h : Halt} : s.halted = none → s.proc p = some r →
      s.disk.seenIdx ≠ s.disk.usedIdx → drainOne.run s.disk = .error h →
      Step ok s { s with halted := some h }
  | leave {s : State P} {p : P} {r : Req P} : s.halted = none → s.proc p = some r →
      (s.disk.buf r.buf).disk = false →
      Step ok s { s with disk := freeChain s.disk r.i₀, proc := update s.proc p none }

/-- Nobody is inside the driver. -/
def Init (s : State P) : Prop := ∃ buf blocks,
  s = { disk := .boot buf blocks, lastAvail := 0, inflight := [], proc := fun _ => none, pending := [],
        halted := none }

end RiscvOsLab.Driver
