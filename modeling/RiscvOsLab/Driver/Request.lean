import RiscvOsLab.Driver.Virtio

/-!
# A request in the words of the queue (`kernel/driver/virtio_disk.c`)

`Virtq.Mem` is the shared memory with the types of the source, so that a ring or a descriptor may hold anything
before a call. Around one caller of `virtio_disk_rw` stands a device that keeps to the rules: it takes the heads in
the order of the available ring, follows `next` as long as a descriptor says so, moves data between 512-byte
sectors and the buffers the descriptors name, writes the status and appends the head to the used ring.

* `Sys.driver` : the next round of one of the two waiting loops, or what follows them;
* `Sys.device` : the device serves one chain.

Whatever the order of their moves, a call goes through four memories, each a function of the first: `asked`,
`served`, `drained`, `freed`.
-/

namespace RiscvOsLab.Driver.Virtq

open Prog Function
open RiscvOsLab.Fs

instance : NeZero BSIZE := ⟨by decide⟩

structure Desc where
  addr : Addr
  len : UInt32
  flags : UInt16
  next : UInt16

structure UsedElem where
  id : UInt32
  len : UInt32

/-- `struct virtio_blk_req`. -/
structure BlkReq where
  type : UInt32
  reserved : UInt32
  sector : UInt64

/-- `struct buf`, as far as the driver and the device touch it. -/
structure Buf where
  disk : Int32
  blockno : UInt32
  data : Fin BSIZE → UInt8

structure Mem where
  desc : Fin NUM → Desc
  availRing : Fin NUM → UInt16
  availIdx : UInt16
  usedRing : Fin NUM → UsedElem
  usedIdx : UInt16
  free : Fin NUM → UInt8
  /-- `disk.used_idx`. -/
  seenIdx : UInt16
  info : Fin NUM → Info
  ops : Fin NUM → BlkReq
  buf : Fin NBUF → Buf

/-! ## The driver -/

/-- An index into an array of `NUM` elements; what is not one ends the run. -/
def index (i : Nat) : Prog Mem (Fin NUM) := if h : i < NUM then pure ⟨i, h⟩ else .panic "out of bounds"

def allocDesc : Prog Mem (Fin NUM) := do
  let m ← get
  match (List.finRange NUM).find? fun i => m.free i ≠ 0 with
  | some i =>
      modify fun m => { m with free := update m.free i 0 }
      return i
  | none => .panic "virtio: no desc"

/-- The chain of a request, and the buffer marked. -/
def fill (m : Mem) (b : Fin NBUF) (write : Bool) (i₀ i₁ i₂ : Fin NUM) : Mem :=
  let sector := (m.buf b).blockno.toUInt64 * 2
  let d₀ : Desc := ⟨.op i₀, 16, VRING_DESC_F_NEXT, UInt16.ofNat i₁⟩
  let d₁ : Desc :=
    ⟨.data b, 1024, (if write then 0 else VRING_DESC_F_WRITE) ||| VRING_DESC_F_NEXT, UInt16.ofNat i₂⟩
  let d₂ : Desc := ⟨.status i₀, 1, VRING_DESC_F_WRITE, 0⟩
  { m with
    ops := update m.ops i₀ ⟨if write then 1 else 0, 0, sector⟩
    desc := update (update (update m.desc i₀ d₀) i₁ d₁) i₂ d₂
    info := update m.info i₀ ⟨some b, 0xff⟩
    buf := update m.buf b { m.buf b with disk := 1 } }

/-- `disk.avail.ring[disk.avail.idx % NUM] = idx[0]; disk.avail.idx++`. -/
def publish (m : Mem) (i : Fin NUM) : Mem :=
  { m with availRing := update m.availRing (slot NUM m.availIdx) (UInt16.ofNat i), availIdx := m.availIdx + 1 }

/-- `virtio_disk_rw(b, write)` up to the waiting loop. -/
def submit (b : Fin NBUF) (write : Bool) : Prog Mem (Fin NUM) := do
  let i₀ ← allocDesc
  let i₁ ← allocDesc
  let i₂ ← allocDesc
  modify fun m => publish (fill m b write i₀ i₁ i₂) i₀
  return i₀

/-- The body of the inner loop: one completion. -/
def drainOne : Prog Mem Unit := do
  let m ← get
  let id ← index (m.usedRing (slot NUM m.seenIdx)).id.toNat
  if (m.info id).status ≠ 0 then
    .panic "virtio_disk_rw: status error"
  else
    match (m.info id).b with
    | some b =>
        modify fun m =>
          { m with buf := update m.buf b { m.buf b with disk := 0 }, seenIdx := m.seenIdx + 1 }
    | none => .panic "out of bounds"

/-- The rounds of `free_chain`. A descriptor loses its flags as it is freed, so that no chain takes more than
`NUM + 1` of them. -/
def freeChainLoop : Nat → Nat → Prog Mem Unit
  | 0, _ => spin
  | rounds + 1, i => do
      let i ← index i
      let d ← gets fun m => m.desc i
      modify fun m => { m with free := update m.free i 1, desc := update m.desc i { d with flags := 0 } }
      if d.flags &&& VRING_DESC_F_NEXT ≠ 0 then freeChainLoop rounds d.next.toNat else return ()

def freeChain (i : Fin NUM) : Prog Mem Unit := freeChainLoop (NUM + 1) i

/-- Where the caller is: outside, or at one of the two loops of a call for `b` with head `i₀`. -/
inductive Pc where
  | outside
  | outer (b : Fin NBUF) (i₀ : Fin NUM)
  | inner (b : Fin NBUF) (i₀ : Fin NUM)

structure Sys where
  mem : Mem
  sectors : Nat → Fin 512 → UInt8
  /-- Up to where the device has read the available ring. -/
  lastAvail : UInt16
  pc : Pc

namespace Sys

/-- A test of one of the loops, with what it leads to. -/
def driver (s : Sys) : Except Halt Sys :=
  match s.pc with
  | .outside => .ok s
  | .outer b i₀ =>
      if (s.mem.buf b).disk = 1 then .ok { s with pc := .inner b i₀ }
      else ((freeChain i₀).run s.mem).map fun r => { s with mem := r.2, pc := .outside }
  | .inner b i₀ =>
      if s.mem.seenIdx ≠ s.mem.usedIdx then (drainOne.run s.mem).map fun r => { s with mem := r.2 }
      else .ok { s with pc := .outer b i₀ }

end Sys

/-! ## The device -/

/-- The chain at a head, at most so many descriptors long. -/
def chain (m : Mem) : Nat → UInt16 → Option (List Desc)
  | 0, _ => none
  | n + 1, i =>
      if h : i.toNat < NUM then
        let d := m.desc ⟨i.toNat, h⟩
        if d.flags &&& VRING_DESC_F_NEXT ≠ 0 then (chain m n d.next).map (d :: ·) else some [d]
      else none

/-- Byte `n` of the disk from sector `sec` on. -/
def diskByte (sectors : Nat → Fin 512 → UInt8) (sec n : Nat) : UInt8 := sectors (sec + n / 512) (Fin.ofNat 512 n)

/-- The disk from byte `off` of sector `sec` on is read into the buffers the descriptors name. -/
def readInto (sectors : Nat → Fin 512 → UInt8) (sec : Nat) : Nat → List Desc → Mem → Option Mem
  | _, [], m => some m
  | off, d :: ds, m =>
      match d.addr with
      | .data b =>
          if d.flags &&& VRING_DESC_F_WRITE ≠ 0 ∧ d.len.toNat ≤ BSIZE then
            readInto sectors sec (off + d.len.toNat) ds { m with
              buf := update m.buf b { m.buf b with
                data := fun j =>
                  if j < d.len.toNat then diskByte sectors sec (off + j) else (m.buf b).data j } }
          else none
      | _ => none

/-- The buffers the descriptors name are written to the disk from byte `off` of sector `sec` on. -/
def writeFrom (m : Mem) (sec : Nat) : Nat → List Desc → (Nat → Fin 512 → UInt8) → Option (Nat → Fin 512 → UInt8)
  | _, [], sectors => some sectors
  | off, d :: ds, sectors =>
      match d.addr with
      | .data b =>
          if d.flags &&& VRING_DESC_F_WRITE = 0 ∧ d.len.toNat ≤ BSIZE then
            writeFrom m sec (off + d.len.toNat) ds fun t o =>
              if sec * 512 + off ≤ t * 512 + o ∧ t * 512 + o < sec * 512 + off + d.len.toNat then
                (m.buf b).data (Fin.ofNat BSIZE (t * 512 + o - (sec * 512 + off)))
              else sectors t o
          else none
      | _ => none

/-- The status byte is written and the head put into the used ring. -/
def finish (m : Mem) (j : Fin NUM) (head : UInt16) (len : Nat) : Mem :=
  { m with
    info := update m.info j { m.info j with status := 0 }
    usedRing := update m.usedRing (slot NUM m.usedIdx) ⟨head.toUInt32, UInt32.ofNat len⟩
    usedIdx := m.usedIdx + 1 }

/-- The request of the chain at `head`; nothing for what is no request. -/
def serve (s : Sys) (head : UInt16) : Option Sys := do
  let ds ← chain s.mem NUM head
  let hd ← ds.head?
  let st ← ds.tail.getLast?
  let segs := ds.tail.dropLast
  match hd.addr, st.addr with
  | .op i, .status j =>
      if hd.len = 16 ∧ hd.flags &&& VRING_DESC_F_WRITE = 0 ∧ st.len = 1 ∧ st.flags &&& VRING_DESC_F_WRITE ≠ 0 then
        let r := s.mem.ops i
        if r.type = 0 then
          let m ← readInto s.sectors r.sector.toNat 0 segs s.mem
          some { s with mem := finish m j head ((segs.map fun d => d.len.toNat).sum + 1) }
        else if r.type = 1 then
          let sectors ← writeFrom s.mem r.sector.toNat 0 segs s.sectors
          some { s with mem := finish s.mem j head 1, sectors }
        else none
      else none
  | _, _ => none

/-- The device takes the next head and serves its chain. -/
def Sys.device (s : Sys) : Option Sys :=
  if s.lastAvail ≠ s.mem.availIdx then
    serve { s with lastAvail := s.lastAvail + 1 } (s.mem.availRing (slot NUM s.lastAvail))
  else none

/-! ## The system -/

inductive Event where
  | call (b : Fin NBUF) (write : Bool)
  | client (buf : Fin NBUF → Buf)
  | driver
  | device

/-- Between two calls the buffers are their users'; in a call the driver and the device move in any order. -/
inductive Step : Sys → Event → Sys → Prop
  | call {s : Sys} {b : Fin NBUF} {write : Bool} {i₀ : Fin NUM} {m : Mem} : s.pc = .outside →
      (submit b write).run s.mem = .ok (i₀, m) → Step s (.call b write) { s with mem := m, pc := .outer b i₀ }
  | client {s : Sys} {buf : Fin NBUF → Buf} : s.pc = .outside →
      Step s (.client buf) { s with mem := { s.mem with buf } }
  | driver {s t : Sys} : s.pc ≠ .outside → s.driver = .ok t → Step s .driver t
  | device {s t : Sys} : s.device = some t → Step s .device t

/-- No call is in progress: every descriptor is free, and both sides have read all of their ring. -/
structure Rest (s : Sys) : Prop where
  outside : s.pc = .outside
  free : ∀ i, s.mem.free i ≠ 0
  seen : s.mem.seenIdx = s.mem.usedIdx
  taken : s.lastAvail = s.mem.availIdx

/-! ## The memories of a call -/

/-- The first three descriptors are taken and the chain is published. -/
def asked (m : Mem) (b : Fin NBUF) (write : Bool) : Mem :=
  publish (fill { m with free := update (update (update m.free 0 0) 1 0) 2 0 } b write 0 1 2) 0

/-- Block `k` of the disk. -/
def blockAt (sectors : Nat → Fin 512 → UInt8) (k : Nat) : Fin BSIZE → UInt8 := fun j => diskByte sectors (2 * k) j

/-- Block `k` of the disk is written. -/
def putBlock (sectors : Nat → Fin 512 → UInt8) (k : Nat) (data : Fin BSIZE → UInt8) : Nat → Fin 512 → UInt8 :=
  fun t o => if 2 * k * 512 ≤ t * 512 + o ∧ t * 512 + o < 2 * k * 512 + BSIZE then
    data (Fin.ofNat BSIZE (t * 512 + o - 2 * k * 512))
  else sectors t o

def setData (m : Mem) (b : Fin NBUF) (data : Fin BSIZE → UInt8) : Mem :=
  { m with buf := update m.buf b { m.buf b with data } }

/-- The device has moved the block and completed the request. -/
def served (s : Sys) (b : Fin NBUF) (write : Bool) : Sys :=
  let m := asked s.mem b write
  let k := (s.mem.buf b).blockno.toNat
  if write then
    { s with
      mem := finish m 0 0 1
      sectors := putBlock s.sectors k (s.mem.buf b).data
      lastAvail := s.lastAvail + 1 }
  else
    { s with
      mem := finish (setData m b (blockAt s.sectors k)) 0 0 (BSIZE + 1)
      lastAvail := s.lastAvail + 1 }

/-- The driver has seen the completion. -/
def drained (s : Sys) (b : Fin NBUF) (write : Bool) : Sys :=
  let t := served s b write
  { t with mem := { t.mem with
    buf := update t.mem.buf b { t.mem.buf b with disk := 0 }, seenIdx := t.mem.seenIdx + 1 } }

/-- A descriptor is freed. -/
def release (m : Mem) (i : Fin NUM) : Mem :=
  { m with free := update m.free i 1, desc := update m.desc i { m.desc i with flags := 0 } }

/-- The chain is freed. -/
def freed (s : Sys) (b : Fin NBUF) (write : Bool) : Sys :=
  let t := drained s b write
  { t with mem := release (release (release t.mem 0) 1) 2 }

/-! ## What each side does -/

theorem finRange_NUM : List.finRange NUM = [0, 1, 2, 3, 4, 5, 6, 7] := rfl

def take (m : Mem) (i : Fin NUM) : Mem := { m with free := update m.free i 0 }

theorem take_free_self (m : Mem) (i : Fin NUM) : (take m i).free i = 0 := update_self _ _ _

theorem take_free_of_ne {i j : Fin NUM} (h : j ≠ i) (m : Mem) : (take m i).free j = m.free j := update_of_ne h _ _

theorem allocDesc_run {m : Mem} {i : Fin NUM} (h : (List.finRange NUM).find? (fun i => m.free i ≠ 0) = some i) :
    allocDesc.run m = .ok (i, take m i) := by
  rw [allocDesc, run_bind]
  change (match (List.finRange NUM).find? fun i => m.free i ≠ 0 with
    | some i => (do
        modify fun m => { m with free := update m.free i 0 }
        return i : Prog Mem (Fin NUM))
    | none => .panic "virtio: no desc").run m = _
  rw [h]
  rfl

theorem submit_run {m : Mem} (hfree : ∀ i, m.free i ≠ 0) (b : Fin NBUF) (write : Bool) :
    (submit b write).run m = .ok (0, asked m b write) := by
  have f₁ : (take m 0).free 1 ≠ 0 := by
    rw [take_free_of_ne (by decide)]
    exact hfree 1
  have f₂ : (take (take m 0) 1).free 2 ≠ 0 := by
    rw [take_free_of_ne (by decide), take_free_of_ne (by decide)]
    exact hfree 2
  have f₀ : (take (take m 0) 1).free 0 = 0 := by
    rw [take_free_of_ne (by decide), take_free_self]
  have h₀ : allocDesc.run m = .ok (0, take m 0) := by
    apply allocDesc_run
    rw [finRange_NUM, List.find?_cons_of_pos (by simpa using hfree 0)]
  have h₁ : allocDesc.run (take m 0) = .ok (1, take (take m 0) 1) := by
    apply allocDesc_run
    rw [finRange_NUM, List.find?_cons_of_neg (by simp [take_free_self]), List.find?_cons_of_pos (by simpa using f₁)]
  have h₂ : allocDesc.run (take (take m 0) 1) = .ok (2, take (take (take m 0) 1) 2) := by
    apply allocDesc_run
    rw [finRange_NUM, List.find?_cons_of_neg (by simp [f₀]), List.find?_cons_of_neg (by simp [take_free_self]),
      List.find?_cons_of_pos (by simpa using f₂)]
  rw [submit, run_bind, h₀]
  simp only []
  rw [run_bind, h₁]
  simp only []
  rw [run_bind, h₂]
  rfl

theorem toNat_index (i : Fin NUM) : (UInt16.ofNat i).toNat = i := by
  have : i.val < 8 := i.isLt
  rw [UInt16.toNat_ofNat', Nat.mod_eq_of_lt (by omega)]

theorem chain_next {m : Mem} {i : Fin NUM} {n : Nat} (h : (m.desc i).flags &&& VRING_DESC_F_NEXT ≠ 0) :
    chain m (n + 1) (UInt16.ofNat i) = (chain m n (m.desc i).next).map (m.desc i :: ·) := by
  have hi : (UInt16.ofNat i).toNat < NUM := by
    rw [toNat_index]
    exact i.isLt
  have hfin : (⟨(UInt16.ofNat i).toNat, hi⟩ : Fin NUM) = i := Fin.ext (toNat_index i)
  rw [chain, dif_pos hi]
  simp only [hfin]
  rw [if_pos h]

theorem chain_last {m : Mem} {i : Fin NUM} {n : Nat} (h : (m.desc i).flags &&& VRING_DESC_F_NEXT = 0) :
    chain m (n + 1) (UInt16.ofNat i) = some [m.desc i] := by
  have hi : (UInt16.ofNat i).toNat < NUM := by
    rw [toNat_index]
    exact i.isLt
  have hfin : (⟨(UInt16.ofNat i).toNat, hi⟩ : Fin NUM) = i := Fin.ext (toNat_index i)
  rw [chain, dif_pos hi]
  simp only [hfin]
  rw [if_neg (not_not.2 h)]

/-- The flags of the data descriptor. -/
def dataFlags (write : Bool) : UInt16 := (if write then 0 else VRING_DESC_F_WRITE) ||| VRING_DESC_F_NEXT

section Three
variable {α : Type} (f : Fin NUM → α) (x y z : α)

theorem update₃_zero : update (update (update f 0 x) 1 y) 2 z 0 = x := by
  rw [update_of_ne (by decide), update_of_ne (by decide), update_self]

theorem update₃_one : update (update (update f 0 x) 1 y) 2 z 1 = y := by
  rw [update_of_ne (by decide), update_self]

theorem update₃_two : update (update (update f 0 x) 1 y) 2 z 2 = z := update_self _ _ _

end Three

section Asked
variable (m : Mem) (b : Fin NBUF) (write : Bool)

theorem asked_desc : (asked m b write).desc =
    update (update (update m.desc 0 ⟨.op 0, 16, VRING_DESC_F_NEXT, UInt16.ofNat (1 : Fin NUM)⟩) 1
      ⟨.data b, 1024, dataFlags write, UInt16.ofNat (2 : Fin NUM)⟩) 2 ⟨.status 0, 1, VRING_DESC_F_WRITE, 0⟩ := rfl

theorem asked_desc₀ : (asked m b write).desc 0 = ⟨.op 0, 16, VRING_DESC_F_NEXT, UInt16.ofNat (1 : Fin NUM)⟩ := by
  rw [asked_desc, update₃_zero]

theorem asked_desc₁ : (asked m b write).desc 1 = ⟨.data b, 1024, dataFlags write, UInt16.ofNat (2 : Fin NUM)⟩ := by
  rw [asked_desc, update₃_one]

theorem asked_desc₂ : (asked m b write).desc 2 = ⟨.status 0, 1, VRING_DESC_F_WRITE, 0⟩ := by
  rw [asked_desc, update₃_two]

theorem asked_ops : (asked m b write).ops 0 = ⟨if write then 1 else 0, 0, (m.buf b).blockno.toUInt64 * 2⟩ := by
  simp [asked, publish, fill]

theorem asked_head : (asked m b write).availRing (slot NUM m.availIdx) = UInt16.ofNat (0 : Fin NUM) := by
  simp [asked, publish, fill]

theorem asked_data (c : Fin NBUF) : ((asked m b write).buf c).data = (m.buf c).data := by
  rcases eq_or_ne c b with rfl | hc
  · simp [asked, publish, fill]
  · simp [asked, publish, fill, hc]

theorem chain_asked : chain (asked m b write) NUM (UInt16.ofNat (0 : Fin NUM)) = some
    [⟨.op 0, 16, VRING_DESC_F_NEXT, UInt16.ofNat (1 : Fin NUM)⟩,
      ⟨.data b, 1024, dataFlags write, UInt16.ofNat (2 : Fin NUM)⟩, ⟨.status 0, 1, VRING_DESC_F_WRITE, 0⟩] := by
  have h₀ : ((asked m b write).desc 0).flags &&& VRING_DESC_F_NEXT ≠ 0 := by
    rw [asked_desc₀]
    decide
  have h₁ : ((asked m b write).desc 1).flags &&& VRING_DESC_F_NEXT ≠ 0 := by
    rw [asked_desc₁]
    change dataFlags write &&& VRING_DESC_F_NEXT ≠ 0
    cases write <;> decide
  have h₂ : ((asked m b write).desc 2).flags &&& VRING_DESC_F_NEXT = 0 := by
    rw [asked_desc₂]
    decide
  change chain _ (7 + 1) _ = _
  rw [chain_next h₀, asked_desc₀, chain_next h₁, asked_desc₁, chain_last h₂, asked_desc₂]
  rfl

end Asked

theorem sector_toNat (n : UInt32) : (n.toUInt64 * 2).toNat = 2 * n.toNat := by
  have := n.toNat_lt
  rw [UInt64.toNat_mul, UInt32.toNat_toUInt64]
  change n.toNat * 2 % 2 ^ 64 = 2 * n.toNat
  omega

theorem readInto_block (m : Mem) (sectors : Nat → Fin 512 → UInt8) (k : Nat) (b : Fin NBUF) (next : UInt16) :
    readInto sectors (2 * k) 0 [⟨.data b, 1024, dataFlags false, next⟩] m =
      some (setData m b (blockAt sectors k)) := by
  have hflags : dataFlags false &&& VRING_DESC_F_WRITE ≠ 0 ∧ (1024 : UInt32).toNat ≤ BSIZE := by decide
  have hdata : (fun j : Fin BSIZE => if j < (1024 : UInt32).toNat then diskByte sectors (2 * k) (0 + j)
      else (m.buf b).data j) = blockAt sectors k := by
    funext j
    have hj : (j : Nat) < (1024 : UInt32).toNat := j.isLt
    rw [if_pos hj, Nat.zero_add]
    rfl
  rw [readInto]
  simp only []
  rw [if_pos hflags, readInto, hdata]
  rfl

theorem writeFrom_data {m : Mem} {sec off : Nat} {d : Desc} {b : Fin NBUF} (hd : d.addr = .data b)
    (hf : d.flags &&& VRING_DESC_F_WRITE = 0 ∧ d.len.toNat ≤ BSIZE) (sectors : Nat → Fin 512 → UInt8) :
    writeFrom m sec off [d] sectors = some fun t (o : Fin 512) =>
      if sec * 512 + off ≤ t * 512 + o ∧ t * 512 + o < sec * 512 + off + d.len.toNat then
        (m.buf b).data (Fin.ofNat BSIZE (t * 512 + o - (sec * 512 + off)))
      else sectors t o := by
  unfold writeFrom
  rw [hd]
  exact if_pos hf

theorem writeFrom_block (m : Mem) (sectors : Nat → Fin 512 → UInt8) (k : Nat) (b : Fin NBUF) (next : UInt16) :
    writeFrom m (2 * k) 0 [⟨.data b, 1024, dataFlags true, next⟩] sectors =
      some (putBlock sectors k (m.buf b).data) := by
  have hflags : dataFlags true &&& VRING_DESC_F_WRITE = 0 ∧ (1024 : UInt32).toNat ≤ BSIZE := by decide
  have hlen : (1024 : UInt32).toNat = BSIZE := by decide
  rw [writeFrom_data rfl hflags]
  apply congrArg some
  funext t o
  unfold putBlock
  rw [hlen, Nat.add_zero]

theorem idx_ne_succ (i : UInt16) : i ≠ i + 1 := by
  intro h
  have hnat := congrArg UInt16.toNat h
  rw [UInt16.toNat_add, show (1 : UInt16).toNat = 1 from rfl] at hnat
  have := i.toNat_lt
  omega

/-- The device serves the chain that has been published. -/
theorem device_asked {s : Sys} (htaken : s.lastAvail = s.mem.availIdx) (b : Fin NBUF) (write : Bool) (pc : Pc) :
    Sys.device { s with mem := asked s.mem b write, pc } = some { served s b write with pc } := by
  have hne : s.lastAvail ≠ (asked s.mem b write).availIdx := by
    rw [htaken]
    exact idx_ne_succ s.mem.availIdx
  unfold Sys.device
  rw [if_pos hne]
  simp only [htaken, asked_head]
  unfold serve
  simp only [chain_asked, Option.bind_eq_bind, Option.bind_some, List.head?_cons, List.tail_cons,
    List.getLast?_cons_cons, List.getLast?_singleton, List.dropLast_cons_cons, List.dropLast_singleton, asked_ops]
  have hhead : (UInt16.ofNat (0 : Fin NUM)) = 0 := rfl
  have hlen : (1024 : UInt32).toNat = BSIZE := by decide
  cases write with
  | true =>
      rw [if_pos (by decide), if_neg (by decide), if_pos (by decide), sector_toNat, writeFrom_block, Option.bind_some,
        asked_data, hhead, served]
      simp only [if_true, htaken]
  | false =>
      rw [if_pos (by decide), if_pos (by decide), sector_toNat, readInto_block, Option.bind_some, hhead, served]
      simp only [List.map_cons, List.map_nil, List.sum_cons, List.sum_nil, hlen, Nat.add_zero, Bool.false_eq_true,
        if_false, htaken]

/-! ## The moves of the driver -/

/-- While the device has not served the request, the two loops turn. -/
theorem driver_asked {s : Sys} (hseen : s.mem.seenIdx = s.mem.usedIdx) (b : Fin NBUF) (write : Bool) :
    Sys.driver { s with mem := asked s.mem b write, pc := .outer b 0 } =
      .ok { s with mem := asked s.mem b write, pc := .inner b 0 } ∧
    Sys.driver { s with mem := asked s.mem b write, pc := .inner b 0 } =
      .ok { s with mem := asked s.mem b write, pc := .outer b 0 } := by
  constructor
  · have hdisk : ((asked s.mem b write).buf b).disk = 1 := by
      simp [asked, publish, fill]
    exact if_pos hdisk
  · have hne : ¬ (asked s.mem b write).seenIdx ≠ (asked s.mem b write).usedIdx := not_not.2 hseen
    exact if_neg hne

theorem served_disk (s : Sys) (b : Fin NBUF) (write : Bool) : ((served s b write).mem.buf b).disk = 1 := by
  cases write <;> simp [served, finish, setData, asked, publish, fill]

section Served
variable (s : Sys) (b : Fin NBUF) (write : Bool)

theorem served_idx : (served s b write).mem.seenIdx = s.mem.seenIdx ∧
    (served s b write).mem.usedIdx = s.mem.usedIdx + 1 := by
  cases write <;> exact ⟨rfl, rfl⟩

theorem served_head : ((served s b write).mem.usedRing (slot NUM s.mem.usedIdx)).id = 0 := by
  cases write <;> simp [served, finish, setData, asked, publish, fill]

theorem served_info : (served s b write).mem.info 0 = ⟨some b, 0⟩ := by
  cases write <;> simp [served, finish, setData, asked, publish, fill]

theorem drained_desc : (drained s b write).mem.desc = (asked s.mem b write).desc := by
  cases write <;> rfl

end Served

theorem index_run (i : Fin NUM) (m : Mem) : (index i).run m = .ok (i, m) := by
  rw [index, dif_pos i.isLt]
  rfl

theorem drain_served {s : Sys} (hseen : s.mem.seenIdx = s.mem.usedIdx) (b : Fin NBUF) (write : Bool) :
    drainOne.run (served s b write).mem = .ok ((), (drained s b write).mem) := by
  obtain ⟨hidx, -⟩ := served_idx s b write
  have hid : ((served s b write).mem.usedRing (slot NUM (served s b write).mem.seenIdx)).id.toNat =
      ((0 : Fin NUM) : Nat) := by
    rw [hidx, hseen, served_head]
    rfl
  have hstatus : ¬ ((served s b write).mem.info 0).status ≠ 0 := by
    rw [served_info]
    exact not_not.2 rfl
  rw [drainOne, run_bind]
  change (index ((served s b write).mem.usedRing (slot NUM (served s b write).mem.seenIdx)).id.toNat >>= _).run _ = _
  rw [run_bind, hid, index_run]
  simp only []
  rw [if_neg hstatus, served_info]
  rfl

theorem driver_served {s : Sys} (hseen : s.mem.seenIdx = s.mem.usedIdx) (b : Fin NBUF) (write : Bool) :
    Sys.driver { served s b write with pc := .outer b 0 } = .ok { served s b write with pc := .inner b 0 } ∧
    Sys.driver { served s b write with pc := .inner b 0 } = .ok { drained s b write with pc := .inner b 0 } := by
  constructor
  · exact if_pos (served_disk s b write)
  · obtain ⟨hidx, hused⟩ := served_idx s b write
    have hne : (served s b write).mem.seenIdx ≠ (served s b write).mem.usedIdx := by
      rw [hidx, hused, hseen]
      exact idx_ne_succ s.mem.usedIdx
    have hrun := drain_served hseen b write
    unfold Sys.driver
    simp only []
    rw [if_pos hne, hrun]
    rfl

theorem freeChainLoop_next {m : Mem} {i : Fin NUM} {n : Nat} (h : (m.desc i).flags &&& VRING_DESC_F_NEXT ≠ 0) :
    (freeChainLoop (n + 1) i).run m = (freeChainLoop n (m.desc i).next.toNat).run (release m i) := by
  rw [freeChainLoop, run_bind, index_run]
  change (if (m.desc i).flags &&& VRING_DESC_F_NEXT ≠ 0 then freeChainLoop n (m.desc i).next.toNat
    else return ()).run (release m i) = _
  rw [if_pos h]

theorem freeChainLoop_last {m : Mem} {i : Fin NUM} {n : Nat} (h : (m.desc i).flags &&& VRING_DESC_F_NEXT = 0) :
    (freeChainLoop (n + 1) i).run m = .ok ((), release m i) := by
  rw [freeChainLoop, run_bind, index_run]
  change (if (m.desc i).flags &&& VRING_DESC_F_NEXT ≠ 0 then freeChainLoop n (m.desc i).next.toNat
    else return ()).run (release m i) = _
  rw [if_neg (not_not.2 h)]
  rfl

theorem release_desc_of_ne {i j : Fin NUM} (h : j ≠ i) (m : Mem) : (release m i).desc j = m.desc j := update_of_ne h _ _

/-- `free_chain` goes through the three descriptors of the request. -/
theorem free_drained (s : Sys) (b : Fin NBUF) (write : Bool) :
    (freeChain 0).run (drained s b write).mem = .ok ((), (freed s b write).mem) := by
  have d₀ : (drained s b write).mem.desc 0 = ⟨.op 0, 16, VRING_DESC_F_NEXT, UInt16.ofNat (1 : Fin NUM)⟩ := by
    rw [drained_desc, asked_desc₀]
  have d₁ : (release (drained s b write).mem 0).desc 1 =
      ⟨.data b, 1024, dataFlags write, UInt16.ofNat (2 : Fin NUM)⟩ := by
    rw [release_desc_of_ne (by decide), drained_desc, asked_desc₁]
  have d₂ : (release (release (drained s b write).mem 0) 1).desc 2 = ⟨.status 0, 1, VRING_DESC_F_WRITE, 0⟩ := by
    rw [release_desc_of_ne (by decide), release_desc_of_ne (by decide), drained_desc, asked_desc₂]
  have h₀ : ((drained s b write).mem.desc 0).flags &&& VRING_DESC_F_NEXT ≠ 0 := by
    rw [d₀]
    decide
  have h₁ : ((release (drained s b write).mem 0).desc 1).flags &&& VRING_DESC_F_NEXT ≠ 0 := by
    rw [d₁]
    change dataFlags write &&& VRING_DESC_F_NEXT ≠ 0
    cases write <;> decide
  have h₂ : ((release (release (drained s b write).mem 0) 1).desc 2).flags &&& VRING_DESC_F_NEXT = 0 := by
    rw [d₂]
    decide
  rw [freeChain, freeChainLoop_next h₀, d₀, toNat_index]
  change (freeChainLoop (7 + 1) ((1 : Fin NUM) : Nat)).run _ = _
  rw [freeChainLoop_next h₁, d₁, toNat_index, freeChainLoop_last h₂]
  rfl

theorem driver_drained {s : Sys} (hseen : s.mem.seenIdx = s.mem.usedIdx) (b : Fin NBUF) (write : Bool) :
    Sys.driver { drained s b write with pc := .inner b 0 } = .ok { drained s b write with pc := .outer b 0 } ∧
    Sys.driver { drained s b write with pc := .outer b 0 } = .ok { freed s b write with pc := .outside } := by
  constructor
  · obtain ⟨hidx, hused⟩ := served_idx s b write
    have heq : ¬ (drained s b write).mem.seenIdx ≠ (drained s b write).mem.usedIdx := by
      change ¬ (served s b write).mem.seenIdx + 1 ≠ (served s b write).mem.usedIdx
      rw [hidx, hused, hseen]
      exact not_not.2 rfl
    exact if_neg heq
  · have hdisk : ((drained s b write).mem.buf b).disk = 0 := by
      simp [drained]
    have hne : ¬ ((drained s b write).mem.buf b).disk = 1 := by
      rw [hdisk]
      decide
    unfold Sys.driver
    simp only []
    rw [if_neg hne, free_drained]
    rfl

/-! ## A call -/

/-- The caller is at one of the loops of its call. -/
def Looping (b : Fin NBUF) (pc : Pc) : Prop := pc = .outer b 0 ∨ pc = .inner b 0

/-- The states of a call for `b` from `s`. -/
inductive During (s : Sys) (b : Fin NBUF) (write : Bool) : Sys → Prop
  | asked {pc : Pc} : Looping b pc → During s b write { s with mem := Virtq.asked s.mem b write, pc }
  | served {pc : Pc} : Looping b pc → During s b write { Virtq.served s b write with pc }
  | drained {pc : Pc} : Looping b pc → During s b write { Virtq.drained s b write with pc }
  | freed : During s b write { Virtq.freed s b write with pc := .outside }

/-- The device has read the available ring. -/
theorem served_taken {s : Sys} (h : s.lastAvail = s.mem.availIdx) (b : Fin NBUF) (write : Bool) :
    (served s b write).lastAvail = (served s b write).mem.availIdx := by
  cases write <;> exact congrArg (· + 1) h

theorem device_idle {s : Sys} (h : s.lastAvail = s.mem.availIdx) : s.device = none := if_neg (not_not.2 h)

theorem Looping.ne_outside {b : Fin NBUF} {pc : Pc} (h : Looping b pc) : pc ≠ .outside := by
  rcases h with rfl | rfl <;> simp

namespace During
variable {s t u : Sys} {b : Fin NBUF} {write : Bool}

theorem driver (hs : Rest s) (ht : During s b write t) (hout : t.pc ≠ .outside) :
    ∃ u, t.driver = .ok u ∧ During s b write u := by
  cases ht with
  | asked hpc =>
      obtain ⟨hfirst, hin⟩ := driver_asked hs.seen b write
      rcases hpc with rfl | rfl
      · exact ⟨_, hfirst, .asked (.inr rfl)⟩
      · exact ⟨_, hin, .asked (.inl rfl)⟩
  | served hpc =>
      obtain ⟨hfirst, hin⟩ := driver_served hs.seen b write
      rcases hpc with rfl | rfl
      · exact ⟨_, hfirst, .served (.inr rfl)⟩
      · exact ⟨_, hin, .drained (.inr rfl)⟩
  | drained hpc =>
      obtain ⟨hin, hlast⟩ := driver_drained hs.seen b write
      rcases hpc with rfl | rfl
      · exact ⟨_, hlast, .freed⟩
      · exact ⟨_, hin, .drained (.inl rfl)⟩
  | freed => exact absurd rfl hout

theorem device (hs : Rest s) (ht : During s b write t) (hu : t.device = some u) : During s b write u := by
  cases ht with
  | asked hpc =>
      rw [device_asked hs.taken, Option.some_inj] at hu
      rw [← hu]
      exact .served hpc
  | served hpc =>
      have hidle := hu.symm.trans (device_idle (served_taken hs.taken b write))
      cases hidle
  | drained hpc =>
      have hidle := hu.symm.trans (device_idle (served_taken hs.taken b write))
      cases hidle
  | freed =>
      have hidle := hu.symm.trans (device_idle (served_taken hs.taken b write))
      cases hidle

/-- Neither side leaves the states of the call. -/
theorem step {e : Event} (hs : Rest s) (ht : During s b write t) (hst : Step t e u) (he : e = .driver ∨ e = .device) :
    During s b write u := by
  cases hst with
  | call _ _ => simp at he
  | client _ => simp at he
  | driver hout hu =>
      obtain ⟨v, hv, hd⟩ := ht.driver hs hout
      rw [hv, Except.ok.injEq] at hu
      rwa [← hu]
  | device hu => exact ht.device hs hu

end During

/-- The caller returns by at most `n` moves of its own. -/
def Returns (n : Nat) (s : Sys) : Prop :=
  ∃ k t, k ≤ n ∧ Trace Step s (List.replicate k .driver) t ∧ t.pc = .outside

theorem Returns.driver {s t : Sys} {n : Nat} (hout : s.pc ≠ .outside) (hst : s.driver = .ok t) (ht : Returns n t) :
    Returns (n + 1) s := by
  obtain ⟨k, u, hk, htr, hu⟩ := ht
  exact ⟨k + 1, u, Nat.succ_le_succ hk, .cons (.driver hout hst) htr, hu⟩

theorem Returns.mono {s : Sys} {m n : Nat} (h : Returns m s) (hmn : m ≤ n) : Returns n s := by
  obtain ⟨k, t, hk, htr, ht⟩ := h
  exact ⟨k, t, hk.trans hmn, htr, ht⟩

theorem returns_drained {s : Sys} (hs : Rest s) (b : Fin NBUF) (write : Bool) :
    Returns 1 { drained s b write with pc := .outer b 0 } ∧ Returns 2 { drained s b write with pc := .inner b 0 } := by
  obtain ⟨hin, hout⟩ := driver_drained hs.seen b write
  have h₀ : Returns 0 { freed s b write with pc := .outside } := ⟨0, _, le_rfl, .nil, rfl⟩
  have h₁ := Returns.driver (by simp) hout h₀
  exact ⟨h₁, .driver (by simp) hin h₁⟩

theorem returns_served {s : Sys} (hs : Rest s) (b : Fin NBUF) (write : Bool) :
    Returns 4 { served s b write with pc := .outer b 0 } ∧ Returns 3 { served s b write with pc := .inner b 0 } := by
  obtain ⟨hout, hin⟩ := driver_served hs.seen b write
  have h₃ := Returns.driver (by simp) hin (returns_drained hs b write).2
  exact ⟨.driver (by simp) hout h₃, h₃⟩

theorem returns_idle {t : Sys} {n : Nat} (hidle : t.lastAvail = t.mem.availIdx) (h : Returns n t) (hn : n ≤ 4) :
    Returns 4 (t.device.getD t) := by
  rw [device_idle hidle]
  exact h.mono hn

/-- Once the device has served what there is to serve, the call returns. -/
theorem During.returns {s t : Sys} {b : Fin NBUF} {write : Bool} (hs : Rest s) (ht : During s b write t) :
    Returns 4 (t.device.getD t) := by
  have htaken := served_taken hs.taken b write
  cases ht with
  | asked hpc =>
      obtain ⟨hout, hin⟩ := returns_served hs b write
      rw [device_asked hs.taken, Option.getD_some]
      rcases hpc with rfl | rfl
      · exact hout
      · exact hin.mono (by decide)
  | served hpc =>
      obtain ⟨hout, hin⟩ := returns_served hs b write
      rcases hpc with rfl | rfl
      · exact returns_idle htaken hout le_rfl
      · exact returns_idle htaken hin (by decide)
  | drained hpc =>
      obtain ⟨hout, hin⟩ := returns_drained hs b write
      rcases hpc with rfl | rfl
      · exact returns_idle htaken hout (by decide)
      · exact returns_idle htaken hin (by decide)
  | freed => exact returns_idle htaken ⟨0, _, le_rfl, .nil, rfl⟩ (Nat.zero_le _)

/-! ## What a call does -/

/-- The first sector of a block. -/
def lower (data : Fin BSIZE → UInt8) (o : Fin 512) : UInt8 := data (Fin.ofNat BSIZE o)

/-- The second sector of a block. -/
def upper (data : Fin BSIZE → UInt8) (o : Fin 512) : UInt8 := data (Fin.ofNat BSIZE (512 + o))

section Blocks
variable (sectors : Nat → Fin 512 → UInt8) (k : Nat) (data : Fin BSIZE → UInt8)

theorem val_ofNat_block {n : Nat} (h : n < 1024) : (Fin.ofNat BSIZE n : Nat) = n := Nat.mod_eq_of_lt h

theorem lower_blockAt : lower (blockAt sectors k) = sectors (2 * k) := by
  funext o
  have ho := o.isLt
  have hval : (Fin.ofNat BSIZE o : Nat) = o := val_ofNat_block (by omega)
  change sectors (2 * k + (Fin.ofNat BSIZE o : Nat) / 512) (Fin.ofNat 512 (Fin.ofNat BSIZE o : Nat)) = _
  rw [hval, Nat.div_eq_of_lt ho]
  apply congrArg
  apply Fin.ext
  exact Nat.mod_eq_of_lt ho

theorem upper_blockAt : upper (blockAt sectors k) = sectors (2 * k + 1) := by
  funext o
  have ho := o.isLt
  have hval : (Fin.ofNat BSIZE (512 + o) : Nat) = 512 + o := val_ofNat_block (by omega)
  change sectors (2 * k + (Fin.ofNat BSIZE (512 + o) : Nat) / 512)
    (Fin.ofNat 512 (Fin.ofNat BSIZE (512 + o) : Nat)) = _
  rw [hval, show (512 + (o : Nat)) / 512 = 1 by omega]
  apply congrArg
  apply Fin.ext
  rw [Fin.val_ofNat]
  omega

/-- A block lies in two sectors. -/
theorem putBlock_eq : putBlock sectors k data =
    update (update sectors (2 * k) (lower data)) (2 * k + 1) (upper data) := by
  funext n o
  have ho := o.isLt
  have hsize : BSIZE = 1024 := rfl
  rcases eq_or_ne n (2 * k + 1) with rfl | h₁
  · rw [update_self, putBlock, if_pos (by omega), upper]
    apply congrArg
    apply congrArg
    omega
  · rw [update_of_ne h₁]
    rcases eq_or_ne n (2 * k) with rfl | h₀
    · rw [update_self, putBlock, if_pos (by omega), lower]
      apply congrArg
      apply congrArg
      omega
    · rw [update_of_ne h₀, putBlock, if_neg (by omega)]

theorem blockAt_putBlock : blockAt (putBlock sectors k data) = update (blockAt sectors) k data := by
  funext n j
  have hj : (j : Nat) < 1024 := j.isLt
  have hsize : BSIZE = 1024 := rfl
  change putBlock sectors k data (2 * n + j / 512) (Fin.ofNat 512 j) = _
  have hval : (Fin.ofNat 512 (j : Nat) : Nat) = j % 512 := rfl
  rcases eq_or_ne n k with rfl | hn
  · rw [update_self, putBlock, if_pos (by omega)]
    apply congrArg
    apply Fin.ext
    rw [val_ofNat_block (by omega)]
    omega
  · rw [update_of_ne hn, putBlock, if_neg (by omega)]
    rfl

end Blocks

/-- The two sectors of the block, and nothing else, have been moved to or from the buffer. -/
inductive Transferred (s t : Sys) (b : Fin NBUF) : Bool → Prop
  | read {data : Fin BSIZE → UInt8} : t.sectors = s.sectors →
      lower data = s.sectors (2 * (s.mem.buf b).blockno.toNat) →
      upper data = s.sectors (2 * (s.mem.buf b).blockno.toNat + 1) →
      t.mem.buf = update s.mem.buf b { s.mem.buf b with data, disk := 0 } → Transferred s t b false
  | write : t.sectors = update (update s.sectors (2 * (s.mem.buf b).blockno.toNat) (lower (s.mem.buf b).data))
        (2 * (s.mem.buf b).blockno.toNat + 1) (upper (s.mem.buf b).data) →
      t.mem.buf = update s.mem.buf b { s.mem.buf b with disk := 0 } → Transferred s t b true

theorem freed_buf (s : Sys) (b : Fin NBUF) (write : Bool) : (freed s b write).mem.buf = update s.mem.buf b
    { s.mem.buf b with
      data := if write then (s.mem.buf b).data else blockAt s.sectors (s.mem.buf b).blockno.toNat
      disk := 0 } := by
  cases write <;> simp [freed, release, drained, served, finish, setData, asked, publish, fill]

theorem freed_sectors (s : Sys) (b : Fin NBUF) (write : Bool) : (freed s b write).sectors =
    if write then putBlock s.sectors (s.mem.buf b).blockno.toNat (s.mem.buf b).data else s.sectors := by
  cases write <;> rfl

theorem freed_free {s : Sys} (hs : Rest s) (b : Fin NBUF) (write : Bool) (i : Fin NUM) :
    (freed s b write).mem.free i ≠ 0 := by
  have hfree : (freed s b write).mem.free = update (update (update (asked s.mem b write).free 0 1) 1 1) 2 1 := by
    cases write <;> rfl
  have hasked : (asked s.mem b write).free = update (update (update s.mem.free 0 0) 1 0) 2 0 := rfl
  rw [hfree, hasked]
  by_cases h : i = 0 ∨ i = 1 ∨ i = 2
  · rcases h with rfl | rfl | rfl
    · rw [update₃_zero]
      decide
    · rw [update₃_one]
      decide
    · rw [update₃_two]
      decide
  · obtain ⟨h₀, h₁, h₂⟩ : i ≠ 0 ∧ i ≠ 1 ∧ i ≠ 2 := by simpa using h
    rw [update_of_ne h₂, update_of_ne h₁, update_of_ne h₀, update_of_ne h₂, update_of_ne h₁, update_of_ne h₀]
    exact hs.free i

/-- After a call both sides are where they were before it, one request on. -/
theorem freed_rest {s : Sys} (hs : Rest s) (b : Fin NBUF) (write : Bool) :
    Rest { freed s b write with pc := .outside } where
  outside := rfl
  free := freed_free hs b write
  seen := by
    obtain ⟨hseen, hused⟩ := served_idx s b write
    change (served s b write).mem.seenIdx + 1 = (served s b write).mem.usedIdx
    rw [hseen, hused, hs.seen]
  taken := served_taken hs.taken b write

theorem freed_transferred (s : Sys) (b : Fin NBUF) (write : Bool) :
    Transferred s { freed s b write with pc := .outside } b write := by
  cases write with
  | false =>
      exact .read (freed_sectors s b false) (lower_blockAt _ _) (upper_blockAt _ _) (freed_buf s b false)
  | true =>
      apply Transferred.write
      · rw [← putBlock_eq]
        exact freed_sectors s b true
      · exact freed_buf s b true

/-! ## An array of blocks -/

/-- The disk as its users see it, and their buffers. -/
structure Flat where
  block : Nat → Fin BSIZE → UInt8
  buf : Fin NBUF → Buf

/-- A call reads or writes its block; the moves inside a call are not seen. -/
def Flat.op (f : Flat) : Event → Flat
  | .call b true =>
      ⟨update f.block (f.buf b).blockno.toNat (f.buf b).data, update f.buf b { f.buf b with disk := 0 }⟩
  | .call b false =>
      ⟨f.block, update f.buf b { f.buf b with data := f.block (f.buf b).blockno.toNat, disk := 0 }⟩
  | .client buf => ⟨f.block, buf⟩
  | .driver => f
  | .device => f

def Sys.flat (s : Sys) : Flat := ⟨blockAt s.sectors, s.mem.buf⟩

theorem freed_flat (s : Sys) (b : Fin NBUF) (write : Bool) :
    Sys.flat { freed s b write with pc := .outside } = s.flat.op (.call b write) := by
  unfold Sys.flat
  rw [freed_buf, freed_sectors]
  cases write with
  | false => rfl
  | true =>
      rw [if_pos rfl, blockAt_putBlock]
      rfl

/-- At rest the array is `f`; in a call it is what the call will make of the array it began with. -/
def Between (f : Flat) (t : Sys) : Prop :=
  Rest t ∧ t.flat = f ∨ ∃ s b write, Rest s ∧ During s b write t ∧ f = s.flat.op (.call b write)

theorem Between.outside {f : Flat} {t : Sys} (h : Between f t) (hout : t.pc = .outside) : Rest t ∧ t.flat = f := by
  rcases h with h | ⟨s, b, write, hs, hd, hf⟩
  · exact h
  · cases hd with
    | asked hpc => exact absurd hout hpc.ne_outside
    | served hpc => exact absurd hout hpc.ne_outside
    | drained hpc => exact absurd hout hpc.ne_outside
    | freed => exact ⟨freed_rest hs b write, (freed_flat s b write).trans hf.symm⟩

theorem Between.inside {f : Flat} {t : Sys} (h : Between f t) (hin : t.pc ≠ .outside) :
    (∃ u, t.driver = .ok u) ∧ Returns 4 (t.device.getD t) := by
  rcases h with ⟨hrest, -⟩ | ⟨s, b, write, hs, hd, -⟩
  · exact absurd hrest.outside hin
  · obtain ⟨u, hu, -⟩ := hd.driver hs hin
    exact ⟨⟨u, hu⟩, hd.returns hs⟩

/-- A call goes from rest to the first state of the call. -/
theorem call_during {s t : Sys} {b : Fin NBUF} {write : Bool} (hs : Rest s) (hst : Step s (.call b write) t) :
    During s b write t := by
  cases hst with
  | call _ hrun =>
      rw [submit_run hs.free, Except.ok.injEq, Prod.mk.injEq] at hrun
      obtain ⟨rfl, rfl⟩ := hrun
      exact .asked (.inl rfl)

theorem Between.step {f : Flat} {s t : Sys} {e : Event} (h : Between f s) (hst : Step s e t) : Between (f.op e) t := by
  cases hst with
  | call hout hrun =>
      obtain ⟨hs, rfl⟩ := h.outside hout
      exact .inr ⟨s, _, _, hs, call_during hs (.call hout hrun), rfl⟩
  | client hout =>
      obtain ⟨hs, rfl⟩ := h.outside hout
      exact .inl ⟨⟨hout, hs.free, hs.seen, hs.taken⟩, rfl⟩
  | driver hin hrun =>
      rcases h with ⟨hrest, -⟩ | ⟨r, b, write, hr, hd, hf⟩
      · exact absurd hrest.outside hin
      · exact .inr ⟨r, b, write, hr, hd.step hr (.driver hin hrun) (.inl rfl), hf⟩
  | device hrun =>
      rcases h with ⟨hrest, -⟩ | ⟨r, b, write, hr, hd, hf⟩
      · rw [device_idle hrest.taken] at hrun
        cases hrun
      · exact .inr ⟨r, b, write, hr, hd.step hr (.device hrun) (.inr rfl), hf⟩

theorem Between.trace {s t : Sys} {es : List Event} (hs : Rest s) (h : Trace Step s es t) :
    Between (es.foldl Flat.op s.flat) t := by
  have hnil : Between (([] : List Event).foldr (fun e f => Flat.op f e) s.flat) s := .inl ⟨hs, rfl⟩
  have hall := h.history (fun past u => Between (past.foldr (fun e f => Flat.op f e) s.flat) u)
    (fun _ _ _ _ hu hst => hu.step hst) hnil
  rwa [List.append_nil, List.foldr_reverse] at hall

/-- What one call has done when it returns. -/
theorem During.trace {s t u : Sys} {b : Fin NBUF} {write : Bool} {es : List Event} (hs : Rest s)
    (ht : During s b write t) (h : Trace Step t es u) (hes : ∀ e ∈ es, e = .driver ∨ e = .device) :
    During s b write u := by
  induction h with
  | nil => exact ht
  | cons hst _ ih => exact ih (ht.step hs hst (hes _ (by simp))) fun e he => hes e (by simp [he])

theorem During.transferred {s t : Sys} {b : Fin NBUF} {write : Bool} (ht : During s b write t)
    (hout : t.pc = .outside) : Transferred s t b write := by
  cases ht with
  | asked hpc => exact absurd hout hpc.ne_outside
  | served hpc => exact absurd hout hpc.ne_outside
  | drained hpc => exact absurd hout hpc.ne_outside
  | freed => exact freed_transferred s b write

/-- A call whose request the device serves at once. -/
theorem call_trace {s : Sys} (hs : Rest s) (b : Fin NBUF) (write : Bool) :
    Trace Step s [.call b write, .device, .driver, .driver, .driver, .driver]
      { freed s b write with pc := .outside } := by
  obtain ⟨hout, hin⟩ := driver_served hs.seen b write
  obtain ⟨hseen, hlast⟩ := driver_drained hs.seen b write
  apply Trace.cons (.call hs.outside (submit_run hs.free b write))
  apply Trace.cons (.device (device_asked hs.taken b write _))
  apply Trace.cons (.driver (by simp) hout)
  apply Trace.cons (.driver (by simp) hin)
  apply Trace.cons (.driver (by simp) hseen)
  exact .cons (.driver (by simp) hlast) .nil

/-- From any memory at rest, whatever the rings and the descriptors hold and in whatever order the two sides move:
every call finds its descriptors; inside a call the driver can always move, and returns by four moves of its own
once the device has served the request; then both rings are read, every descriptor is free, and the two sectors of
the block have been moved. Any number of calls act on an array of blocks. -/
theorem requests_flat {s t : Sys} {es : List Event} (hs : Rest s) (h : Trace Step s es t) :
    (t.pc = .outside → Rest t ∧ t.flat = es.foldl Flat.op s.flat ∧
      ∀ b write, ∃ r, (submit b write).run t.mem = .ok r) ∧
    (t.pc ≠ .outside → (∃ u, t.driver = .ok u) ∧ Returns 4 (t.device.getD t)) ∧
    ∀ b write es', es = .call b write :: es' → (∀ e ∈ es', e = .driver ∨ e = .device) → t.pc = .outside →
      Transferred s t b write := by
  have hall := Between.trace hs h
  refine ⟨fun hout => ?_, hall.inside, fun b write es' he hes hout => ?_⟩
  · obtain ⟨hrest, hflat⟩ := hall.outside hout
    exact ⟨hrest, hflat, fun b write => ⟨_, submit_run hrest.free b write⟩⟩
  · subst he
    cases h with
    | cons hcall hrest => exact ((call_during hs hcall).trace hs hrest hes).transferred hout

/-- Both rings are about to wrap, and every descriptor is left with a link to itself. -/
def worn : Sys where
  mem := {
    desc := fun i => ⟨.null, 0, VRING_DESC_F_NEXT, UInt16.ofNat i⟩
    availRing := fun _ => 7
    availIdx := 65535
    usedRing := fun _ => ⟨7, 0⟩
    usedIdx := 65535
    free := fun _ => 1
    seenIdx := 65535
    info := fun _ => ⟨none, 0xff⟩
    ops := fun _ => ⟨0, 0, 0⟩
    buf := fun _ => ⟨0, 0xffffffff, fun _ => 1⟩ }
  sectors := fun _ _ => 0
  lastAvail := 65535
  pc := .outside

theorem worn_rest : Rest worn where
  outside := rfl
  free _ := show (1 : UInt8) ≠ 0 by decide
  seen := rfl
  taken := rfl

theorem requests_flat_worn : Rest { freed worn 3 true with pc := .outside } ∧
    Transferred worn { freed worn 3 true with pc := .outside } 3 true := by
  obtain ⟨hrest, -, hone⟩ := requests_flat worn_rest (call_trace worn_rest 3 true)
  exact ⟨(hrest rfl).1, hone 3 true _ rfl (by simp) rfl⟩

end RiscvOsLab.Driver.Virtq
