import RiscvOsLab.Fs.Alloc
import RiscvOsLab.Mkfs.Mkfs

/-!
# The bit of a block (`balloc`, `bfree`, and `balloc_mark` of `mkfs`)

`bitPos sb b` is the place of the bit of block `b`: a block of the bit map, a byte of it and a bit of this byte.

* `ballocMark_run` : `mkfs` sets this bit;
* `wp_bfree` : `bfree` tests and clears it;
* `balloc_run` : `balloc` returns the first block whose bit is clear, and sets it.

`balloc` then zeroes the block it returns. A map that gives away one of its own blocks is therefore lost
(`bitmap_fails`), and `bfree` undoes `balloc` for every other block.

The places are sums and quotients of `uint` and `int`; `scanPos_eq` compares them in these types.
-/

namespace RiscvOsLab.Fs

open Prog Bytes Function

structure BitPos where
  block : Nat
  byte : Nat
  bit : Nat
  deriving DecidableEq

/-- `sb.bmapstart + b/(BSIZE*8)`, `(b % (BSIZE*8)) / 8`, `b % 8`. -/
def bitPos (sb : Superblock) (b : Nat) : BitPos := ⟨sb.bmapstart + b / BPB, b % BPB / 8, b % 8⟩

namespace BitPos

def test (p : BitPos) (D : Nat → Block) : Bool := (D p.block p.byte).toNat.testBit p.bit

/-- `data[byte] |= 1 << bit`. -/
def set (p : BitPos) (D : Nat → Block) : Nat → Block :=
  update D p.block (update (D p.block) p.byte (UInt8.ofNat ((D p.block p.byte).toNat ||| 1 <<< p.bit)))

/-- `data[byte] &= ~(1 << bit)`. -/
def clear (p : BitPos) (D : Nat → Block) : Nat → Block :=
  update D p.block (update (D p.block) p.byte (D p.block p.byte &&& ~~~ UInt8.ofNat (1 <<< p.bit)))

end BitPos

def bfree (dev b : Nat) : Prog State Unit := do
  let sb ← gets State.sb
  let bp ← lift (bread dev (sb.bmapstart + b / BPB))
  let data ← lift (load bp)
  let bi := b % BPB / 8
  let m := 1 <<< (b % 8)
  if (data bi).toNat &&& m = 0 then
    .panic "freeing free block"
  else
    lift (store bp fun d => update d bi (d bi &&& ~~~ UInt8.ofNat m))
    lift (bwrite bp)
    lift (brelse bp)

/-! ## Places -/

theorem mod_BPB_mod (b : Nat) : b % BPB % 8 = b % 8 := Nat.mod_mod_of_dvd b (by decide)

theorem test_bitPos (sb : Superblock) (D : Nat → Block) (b : Nat) : (bitPos sb b).test D = marked sb D b := by
  unfold marked bitAt
  rw [mod_BPB_mod]
  rfl

theorem set_bitPos (sb : Superblock) (D : Nat → Block) (b : Nat) :
    (bitPos sb b).set D = update D (mapBlock sb b) (setBit (D (mapBlock sb b)) (b % BPB)) := by
  unfold setBit
  rw [mod_BPB_mod]
  rfl

/-- Distinct blocks have distinct bits. -/
theorem bitPos_inj {sb : Superblock} {b c : Nat} (h : bitPos sb b = bitPos sb c) : b = c := by
  obtain ⟨hblock, hbyte, hbit⟩ := BitPos.mk.inj h
  unfold BPB BSIZE at hblock hbyte
  omega

/-- The bit is set by `|=` and clear again after `&= ~`. -/
theorem byte_restored {x : UInt8} {i : Nat} (h : x.toNat.testBit i = false) :
    UInt8.ofNat (x.toNat ||| 1 <<< i) &&& ~~~ UInt8.ofNat (1 <<< i) = x := by
  apply UInt8.toBitVec_inj.1
  apply BitVec.eq_of_getLsbD_eq
  intro j hj
  have hx : x.toNat.testBit j = x.toBitVec.getLsbD j := rfl
  simp only [UInt8.toBitVec_and, UInt8.toBitVec_not, UInt8.toBitVec_ofNat', BitVec.getLsbD_and, BitVec.getLsbD_not,
    BitVec.getLsbD_ofNat, Nat.testBit_or, Nat.one_shiftLeft, Nat.testBit_two_pow, hx]
  rcases eq_or_ne i j with rfl | hne
  · rw [← hx, h]
    simp
  · simp [hne, hj]

theorem BitPos.clear_set {p : BitPos} {D : Nat → Block} (h : p.test D = false) : p.clear (p.set D) = D := by
  unfold clear set
  rw [update_self, update_self, update_idem, update_idem, byte_restored h, update_eq_self, update_eq_self]

/-- Clearing a bit of one block is a matter of this block alone. -/
theorem BitPos.clear_congr {p : BitPos} {D D' : Nat → Block} {k : Nat} (hp : D' p.block = D p.block)
    (hk : D' k = D k) : p.clear D' k = p.clear D k := by
  unfold clear
  rcases eq_or_ne k p.block with rfl | hne
  · rw [update_self, update_self, hp]
  · rw [update_of_ne hne, update_of_ne hne, hk]

/-- The blocks of the bit map. -/
def IsMap (sb : Superblock) (k : Nat) : Prop := sb.bmapstart ≤ k ∧ k < nmeta sb

theorem isMap_bitPos {sb : Superblock} {b : Nat} (h : b < mapSize sb.size) : IsMap sb (bitPos sb b).block :=
  ⟨Nat.le_add_right _ _, mapBlock_lt h⟩

/-! ## The three functions -/

theorem ballocMark_run {s : Mkfs.State} {b : Nat} (h : (bitPos s.sb b).block < s.len) :
    (Mkfs.ballocMark b).run s = .ok ((), { s with blocks := (bitPos s.sb b).set s.blocks }) := by
  have hlen : max s.len ((bitPos s.sb b).block + 1) = s.len := Nat.max_eq_left h
  have hread : (Mkfs.rsect (bitPos s.sb b).block).run s = .ok (s.blocks (bitPos s.sb b).block, s) := by
    rw [Mkfs.rsect, run_bind]
    change (if (bitPos s.sb b).block < s.len then pure (s.blocks (bitPos s.sb b).block)
      else Prog.panic "read" : Prog Mkfs.State Block).run s = _
    rw [if_pos h]
    rfl
  rw [Mkfs.ballocMark, run_bind]
  change (Mkfs.rsect (bitPos s.sb b).block >>=
    fun buf => Mkfs.wsect (bitPos s.sb b).block (Mkfs.markBit buf b)).run s = _
  rw [run_bind, hread]
  change Except.ok ((), { s with
    blocks := (bitPos s.sb b).set s.blocks
    len := max s.len ((bitPos s.sb b).block + 1) }) = _
  rw [hlen]

section Kernel
variable {s : State} {held : List Hold}

theorem wp_bfree (h : Idle s.dev held) (hroom : held.length < NBUF) {b : Nat} {Q : Unit → State → Prop}
    {E : Halt → Prop}
    (hQ : (bitPos s.sb b).test s.dev.disk = true → ∀ t, Idle t held →
      t.disk = (bitPos s.sb b).clear s.dev.disk → Q () { s with dev := t })
    (hE : (bitPos s.sb b).test s.dev.disk = false → E (.panic "freeing free block")) :
    (bfree ROOTDEV b).wp Q E s := by
  unfold bfree
  simp only [wp_bind, wp_gets, wp_lift]
  apply h.wp_bread hroom
  intro bp t ht hdisk
  apply ht.wp_load
  rw [hdisk]
  by_cases hclear : (s.dev.disk (s.sb.bmapstart + b / BPB) (b % BPB / 8)).toNat &&& 1 <<< (b % 8) = 0
  · rw [if_pos hclear]
    exact hE ((and_shift_eq_zero _ _).1 hclear)
  · rw [if_neg hclear]
    simp only [wp_bind, wp_lift]
    apply ht.wp_storeWrite
    intro u hu hdisk'
    apply hu.wp_brelse
    intro v hv hdisk''
    apply hQ
    · exact Bool.not_eq_false _ ▸ fun e => hclear ((and_shift_eq_zero _ _).2 e)
    · exact hv
    · rw [hdisk'', hdisk', hdisk]
      rfl

/-- `bfree` panics exactly on a clear bit. -/
theorem bfree_panics_iff (h : Idle s.dev held) (hroom : held.length < NBUF) (b : Nat) :
    (bfree ROOTDEV b).run s = .error (.panic "freeing free block") ↔
      (bitPos s.sb b).test s.dev.disk = false := by
  constructor
  · intro hrun
    by_contra hset
    have hwp : (bfree ROOTDEV b).wp (fun _ _ => True) (fun _ => False) s :=
      wp_bfree h hroom (fun _ _ _ _ => trivial) fun hc => hset hc
    obtain ⟨a, t, hok, -⟩ := wp_total hwp
    rw [hrun] at hok
    cases hok
  · intro hc
    apply wp_stuck
    exact wp_bfree h hroom (fun hs => by rw [hc] at hs; cases hs) fun _ => rfl

theorem bfree_run (h : Idle s.dev held) (hroom : held.length < NBUF) {b : Nat}
    (hset : (bitPos s.sb b).test s.dev.disk = true) :
    ∃ t, (bfree ROOTDEV b).run s = .ok ((), { s with dev := t }) ∧ Idle t held ∧
      t.disk = (bitPos s.sb b).clear s.dev.disk := by
  have hwp : (bfree ROOTDEV b).wp (fun _ s' => ∃ t, s' = { s with dev := t } ∧ Idle t held ∧
      t.disk = (bitPos s.sb b).clear s.dev.disk) (fun _ => False) s :=
    wp_bfree h hroom (fun _ t ht hd => ⟨t, rfl, ht, hd⟩) fun hc => by rw [hset] at hc; cases hc
  obtain ⟨⟨⟩, s', hrun, t, rfl, ht, hd⟩ := wp_total hwp
  exact ⟨t, hrun, ht, hd⟩

/-- A block of zeros. -/
def zeroed (D : Nat → Block) (b : Nat) : Nat → Block := update D b (blit (D b) 0 (fun _ => 0) BSIZE)

theorem allocated_eq (sb : Superblock) (D : Nat → Block) (b : Nat) :
    allocated sb D b = zeroed ((bitPos sb b).set D) b := by
  unfold allocated zeroed
  rw [set_bitPos]

/-- `balloc` returns the first block whose bit is clear, sets the bit and zeroes the block. -/
theorem balloc_run (h : Idle s.dev held) (hroom : held.length < NBUF)
    (hfree : ∃ b < s.sb.size, (bitPos s.sb b).test s.dev.disk = false) :
    ∃ b t, (balloc ROOTDEV).run s = .ok (b, { s with dev := t }) ∧ b < s.sb.size ∧
      (bitPos s.sb b).test s.dev.disk = false ∧ (∀ c < b, (bitPos s.sb c).test s.dev.disk = true) ∧
      Idle t held ∧ t.disk = zeroed ((bitPos s.sb b).set s.dev.disk) b := by
  obtain ⟨c, hc, hclear⟩ := hfree
  have hwp : (balloc ROOTDEV).wp (fun b s' => ∃ t, s' = { s with dev := t } ∧ b < s.sb.size ∧
      (bitPos s.sb b).test s.dev.disk = false ∧ (∀ c < b, (bitPos s.sb c).test s.dev.disk = true) ∧
      Idle t held ∧ t.disk = zeroed ((bitPos s.sb b).set s.dev.disk) b) (fun _ => False) s := by
    apply wp_balloc_first h hroom
    · intro b t _ hb hleast ht hd
      have hle : b ≤ c := by
        by_contra hlt
        have hmarked := hleast c (Nat.not_le.1 hlt)
        rw [← test_bitPos, hclear] at hmarked
        cases hmarked
      refine ⟨t, rfl, Nat.lt_of_le_of_lt hle hc, ?_, ?_, ht, ?_⟩
      · rwa [test_bitPos]
      · intro e he
        rw [test_bitPos]
        exact hleast e he
      · rw [hd, allocated_eq]
    · intro hfull
      have hmarked := hfull c (Nat.lt_of_lt_of_le hc (le_mapSize _))
      rw [← test_bitPos, hclear] at hmarked
      cases hmarked
  obtain ⟨b, s', hrun, t, rfl, hb, hrest⟩ := wp_total hwp
  exact ⟨b, t, hrun, hb, hrest⟩

/-- `bfree` undoes the change `balloc` has made to the bit map, unless the block is one of its own. -/
theorem bfree_balloc {t : Dev} {b : Nat} (hroom : held.length < NBUF) (ht : Idle t held)
    (hb : b < s.sb.size) (hclear : (bitPos s.sb b).test s.dev.disk = false)
    (hdisk : t.disk = zeroed ((bitPos s.sb b).set s.dev.disk) b) (hown : ¬ IsMap s.sb b) :
    ∃ u, (bfree ROOTDEV b).run { s with dev := t } = .ok ((), { s with dev := u }) ∧
      ∀ k, IsMap s.sb k → u.disk k = s.dev.disk k := by
  have hmap := isMap_bitPos (Nat.lt_of_lt_of_le hb (le_mapSize s.sb.size))
  have hkeep : ∀ k, IsMap s.sb k → t.disk k = (bitPos s.sb b).set s.dev.disk k := by
    intro k hk
    have hne : k ≠ b := fun e => hown (e ▸ hk)
    rw [hdisk, zeroed, update_of_ne hne]
  have hset : (bitPos s.sb b).test t.disk = true := by
    have : (bitPos s.sb b).test t.disk = (bitPos s.sb b).test ((bitPos s.sb b).set s.dev.disk) := by
      unfold BitPos.test
      rw [hkeep _ hmap]
    rw [this, set_bitPos, test_bitPos, marked, update_self, bitAt_setBit, decide_eq_true rfl, Bool.true_or]
  obtain ⟨u, hrun, -, hu⟩ := bfree_run (s := { s with dev := t }) ht hroom hset
  refine ⟨u, hrun, ?_⟩
  intro k hk
  rw [hu, BitPos.clear_congr (hkeep _ hmap) (hkeep k hk), BitPos.clear_set hclear]

end Kernel

/-! ## In the types of the source -/

/-- The place of the bit of block `b`, a `uint`, in `balloc_mark` and in `bfree`. -/
def uintPos (bmapstart b : UInt32) : UInt32 × UInt32 × UInt32 := (bmapstart + b / 8192, b % 8192 / 8, b % 8)

/-- The place of the bit that `balloc` looks at with the loop counters `b`, `bi` and `bi2`. -/
def scanPos (bmapstart : UInt32) (b bi bi2 : Int32) : UInt32 × UInt32 × UInt32 :=
  (bmapstart + (b / 8192).toUInt32, bi.toUInt32, bi2.toUInt32)

/-- The counters after `x`, `y` and `z` rounds give the bit of the block that is returned. -/
theorem scanPos_eq (bmapstart : UInt32) {x y z : Nat} (hy : y < BSIZE) (hz : z < 8)
    (hsize : x * BPB + y * 8 < 2 ^ 30) :
    scanPos bmapstart (Int32.ofNat (x * BPB)) (Int32.ofNat y) (Int32.ofNat z) =
      uintPos bmapstart (Int32.ofNat (x * BPB) + Int32.ofNat y * 8 + Int32.ofNat z).toUInt32 := by
  have hx : Int32.ofNat (x * BPB) / 8192 = Int32.ofNat x := by
    have hdiv := Int32.ofNat_div (a := x * BPB) (b := 8192) (by omega) (by decide)
    rw [show x * BPB / 8192 = x from Nat.mul_div_cancel x (by decide)] at hdiv
    exact hdiv.symm
  have hsum : Int32.ofNat (x * BPB) + Int32.ofNat y * 8 + Int32.ofNat z = Int32.ofNat (x * BPB + y * 8 + z) := by
    rw [Int32.ofNat_add, Int32.ofNat_add, Int32.ofNat_mul y 8]
    rfl
  have hnat : (UInt32.ofNat (x * BPB + y * 8 + z)).toNat = x * BPB + y * 8 + z := by
    rw [UInt32.toNat_ofNat', Nat.mod_eq_of_lt (by omega)]
  have hsmall : ∀ n, n < 2 ^ 30 → (UInt32.ofNat n).toNat = n := by
    intro n hn
    rw [UInt32.toNat_ofNat', Nat.mod_eq_of_lt (by omega)]
  unfold scanPos uintPos
  rw [hx, hsum, Int32.toUInt32_ofNat', Int32.toUInt32_ofNat', Int32.toUInt32_ofNat', Int32.toUInt32_ofNat']
  have hblock : UInt32.ofNat (x * BPB + y * 8 + z) / 8192 = UInt32.ofNat x := by
    apply UInt32.toNat_inj.1
    unfold BPB BSIZE at *
    rw [UInt32.toNat_div, hnat, hsmall x (by omega)]
    change (x * (1024 * 8) + y * 8 + z) / 8192 = x
    omega
  have hbyte : UInt32.ofNat (x * BPB + y * 8 + z) % 8192 / 8 = UInt32.ofNat y := by
    apply UInt32.toNat_inj.1
    unfold BPB BSIZE at *
    rw [UInt32.toNat_div, UInt32.toNat_mod, hnat, hsmall y (by omega)]
    change (x * (1024 * 8) + y * 8 + z) % 8192 / 8 = y
    omega
  have hbit : UInt32.ofNat (x * BPB + y * 8 + z) % 8 = UInt32.ofNat z := by
    apply UInt32.toNat_inj.1
    unfold BPB BSIZE at *
    rw [UInt32.toNat_mod, hnat, hsmall z (by omega)]
    change (x * (1024 * 8) + y * 8 + z) % 8 = z
    omega
  rw [hblock, hbyte, hbit]

/-- Distinct numbers have distinct places, also where `sb.bmapstart + b/(BSIZE*8)` wraps. -/
theorem uintPos_inj {bmapstart b c : UInt32} (h : uintPos bmapstart b = uintPos bmapstart c) : b = c := by
  obtain ⟨hblock, hrest⟩ := Prod.mk.inj h
  obtain ⟨hbyte, hbit⟩ := Prod.mk.inj hrest
  have hblock := congrArg UInt32.toNat ((UInt32.add_right_inj bmapstart).1 hblock)
  have hbyte := congrArg UInt32.toNat hbyte
  have hbit := congrArg UInt32.toNat hbit
  rw [UInt32.toNat_div, UInt32.toNat_div] at hblock
  rw [UInt32.toNat_div, UInt32.toNat_div, UInt32.toNat_mod, UInt32.toNat_mod] at hbyte
  rw [UInt32.toNat_mod, UInt32.toNat_mod] at hbit
  change b.toNat / 8192 = c.toNat / 8192 at hblock
  change b.toNat % 8192 / 8 = c.toNat % 8192 / 8 at hbyte
  change b.toNat % 8 = c.toNat % 8 at hbit
  apply UInt32.toNat_inj.1
  omega

/-! ## The law of the bit map -/

structure BitmapLaw (sb : Superblock) : Prop where
  /-- `mkfs` sets the bit. -/
  mark : ∀ (s : Mkfs.State) (b : Nat), s.sb = sb → b < sb.size → (bitPos sb b).block < s.len →
    (Mkfs.ballocMark b).run s = .ok ((), { s with blocks := (bitPos sb b).set s.blocks })
  /-- `bfree` tests and clears it. -/
  free : ∀ (s : State) (held : List Hold) (b : Nat), Idle s.dev held → held.length < NBUF → s.sb = sb →
    b < sb.size → (bitPos sb b).test s.dev.disk = true →
    ∃ t, (bfree ROOTDEV b).run s = .ok ((), { s with dev := t }) ∧ t.disk = (bitPos sb b).clear s.dev.disk
  freePanics : ∀ (s : State) (held : List Hold) (b : Nat), Idle s.dev held → held.length < NBUF → s.sb = sb →
    b < sb.size →
    ((bfree ROOTDEV b).run s = .error (.panic "freeing free block") ↔ (bitPos sb b).test s.dev.disk = false)
  /-- `balloc` returns the first block whose bit is clear and sets the bit; `bfree` undoes this. -/
  alloc : ∀ (s : State) (held : List Hold), Idle s.dev held → held.length < NBUF → s.sb = sb →
    (∃ b < sb.size, (bitPos sb b).test s.dev.disk = false) →
    ∃ b t, (balloc ROOTDEV).run s = .ok (b, { s with dev := t }) ∧ b < sb.size ∧
      (bitPos sb b).test s.dev.disk = false ∧ (∀ c < b, (bitPos sb c).test s.dev.disk = true) ∧
      t.disk = zeroed ((bitPos sb b).set s.dev.disk) b ∧
      (¬ IsMap sb b → ∃ u, (bfree ROOTDEV b).run { s with dev := t } = .ok ((), { s with dev := u }) ∧
        ∀ k, IsMap sb k → u.disk k = s.dev.disk k)
  distinct : ∀ b c, bitPos sb b = bitPos sb c → b = c
  scan : ∀ (bmapstart : UInt32) (x y z : Nat), y < BSIZE → z < 8 → x * BPB + y * 8 < sb.size →
    scanPos bmapstart (Int32.ofNat (x * BPB)) (Int32.ofNat y) (Int32.ofNat z) =
      uintPos bmapstart (Int32.ofNat (x * BPB) + Int32.ofNat y * 8 + Int32.ofNat z).toUInt32
  distinctUint : ∀ bmapstart b c : UInt32, uintPos bmapstart b = uintPos bmapstart c → b = c

/-- The three functions agree on the bit of a block. -/
theorem bitmap_agrees (sb : Superblock) (hsize : sb.size < 2 ^ 30) : BitmapLaw sb where
  mark := by
    intro s b hs _ hlen
    subst hs
    exact ballocMark_run hlen
  free := by
    intro s held b hidle hroom hs _ hset
    subst hs
    obtain ⟨t, hrun, -, hdisk⟩ := bfree_run hidle hroom hset
    exact ⟨t, hrun, hdisk⟩
  freePanics := by
    intro s held b hidle hroom hs _
    subst hs
    exact bfree_panics_iff hidle hroom b
  alloc := by
    intro s held hidle hroom hs hfree
    subst hs
    obtain ⟨b, t, hrun, hb, hclear, hleast, ht, hdisk⟩ := balloc_run hidle hroom hfree
    exact ⟨b, t, hrun, hb, hclear, hleast, hdisk, bfree_balloc hroom ht hb hclear hdisk⟩
  distinct := fun _ _ => bitPos_inj
  scan := fun bmapstart _ _ _ hy hz hin => scanPos_eq bmapstart hy hz (Nat.lt_trans hin hsize)
  distinctUint := fun _ _ _ => uintPos_inj

/-- A superblock of sixteen blocks, with the bit map in block 3. -/
def smallSb : Superblock where
  magic := FSMAGIC
  size := 16
  nblocks := 12
  ninodes := 8
  nlog := 0
  logstart := 2
  inodestart := 2
  bmapstart := 3

theorem bitmap_agrees_small : BitmapLaw smallSb := bitmap_agrees smallSb (by decide)

/-- The blocks before the bit map are marked, the bit map is not. -/
def ownClear : Nat → Block := fun k j => if k = 3 ∧ j = 0 then 7 else 0

/-- A map that gives away its own block loses the bit `balloc` has set: `bfree` of the block panics. -/
theorem bitmap_fails : ∃ (s : State) (t : Dev), Idle s.dev [] ∧ s.sb = smallSb ∧ s.dev.disk = ownClear ∧
    (balloc ROOTDEV).run s = .ok (3, { s with dev := t }) ∧
    (bfree ROOTDEV 3).run { s with dev := t } = .error (.panic "freeing free block") := by
  obtain ⟨d, -, hdisk, hidle⟩ := idle_binit ownClear
  have hclear : (bitPos smallSb 3).test ownClear = false := by decide
  have hroom : ([] : List Hold).length < NBUF := by decide
  obtain ⟨b, t, hrun, -, hbit, hleast, ht, hd⟩ :=
    balloc_run (s := ⟨d, smallSb, fun _ => ⟨0, 0, 0, false, Dinode.zero⟩⟩) hidle hroom
      ⟨3, (by decide : 3 < smallSb.size), by rw [hdisk]; exact hclear⟩
  rw [hdisk] at hbit hleast hd
  have hb : b = 3 := by
    rcases Nat.lt_trichotomy b 3 with hlt | heq | hgt
    · have hset : ∀ c < 3, (bitPos smallSb c).test ownClear = true := by decide
      rw [hset b hlt] at hbit
      cases hbit
    · exact heq
    · rw [hleast 3 hgt] at hclear
      cases hclear
  subst hb
  refine ⟨_, t, hidle, rfl, hdisk, hrun, ?_⟩
  apply (bfree_panics_iff ht hroom 3).2
  rw [hd]
  change (bitPos smallSb 3).test (zeroed ((bitPos smallSb 3).set ownClear) 3) = false
  decide

end RiscvOsLab.Fs
