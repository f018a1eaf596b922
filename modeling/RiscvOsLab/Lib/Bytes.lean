import Mathlib.Data.Nat.Bitwise
import Mathlib.Logic.Function.Basic
import Mathlib.Tactic.Ring

/-!
# Byte stores: little-endian words, records of words, bit maps

A byte store is a function from offsets to bytes.

* `blit` : copying bytes into a store; `leRead`, `leByte` : little-endian numbers;
* `u16At`, `u32At`, `put16`, `put32`, `words32` : words of a store, with the read-over-write lemmas;
* `bitAt`, `setBit` : a store read as a bit map, and the C expressions for a test and a set.
-/

namespace RiscvOsLab

open Function

/-- A store of bytes addressed from 0. -/
abbrev Bytes := Nat → UInt8

namespace Bytes

/-- `m` bytes of `src` are copied to offset `o`. -/
def blit (d : Bytes) (o : Nat) (src : Bytes) (m : Nat) : Bytes :=
  fun j => if o ≤ j ∧ j < o + m then src (j - o) else d j

theorem blit_in {d src : Bytes} {o m j : Nat} (h₁ : o ≤ j) (h₂ : j < o + m) :
    blit d o src m j = src (j - o) := if_pos ⟨h₁, h₂⟩

theorem blit_out {d src : Bytes} {o m j : Nat} (h : j < o ∨ o + m ≤ j) :
    blit d o src m j = d j := if_neg (by omega)

/-! ## Little-endian numbers -/

/-- The number stored in the `n` bytes from offset `o`. -/
def leRead (d : Bytes) (o : Nat) : Nat → Nat
  | 0 => 0
  | n + 1 => (d o).toNat + 256 * leRead d (o + 1) n

/-- Byte `i` of the number `v`. -/
def leByte (v : Nat) : Bytes := fun i => UInt8.ofNat (v / 256 ^ i)

theorem leRead_congr {d d' : Bytes} : ∀ (n o o' : Nat), (∀ i < n, d (o + i) = d' (o' + i)) →
    leRead d o n = leRead d' o' n
  | 0, _, _, _ => rfl
  | n + 1, o, o', h => by
      rw [leRead, leRead, leRead_congr n (o + 1) (o' + 1) fun i hi => ?_,
        show d o = d' o' from h 0 (by omega)]
      simpa [Nat.add_assoc, Nat.add_comm 1 i] using h (i + 1) (by omega)

theorem leRead_lt (d : Bytes) : ∀ (n o : Nat), leRead d o n < 256 ^ n
  | 0, _ => by simp [leRead]
  | n + 1, o => by
      have := leRead_lt d n (o + 1)
      have := (d o).toNat_lt
      rw [leRead, pow_succ]
      omega

theorem leRead_leByte (v : Nat) : ∀ n o : Nat, leRead (leByte v) o n = v / 256 ^ o % 256 ^ n
  | 0, _ => by simp [leRead, Nat.mod_one]
  | n + 1, o => by
      rw [leRead, leRead_leByte v n (o + 1), pow_succ 256 o, ← Nat.div_div_eq_div_mul, pow_succ' 256 n,
        Nat.mod_mul]
      simp [leByte]

theorem leRead_blit_out {d src : Bytes} {o m o' n : Nat} (h : o' + n ≤ o ∨ o + m ≤ o') :
    leRead (blit d o src m) o' n = leRead d o' n :=
  leRead_congr n o' o' fun i hi => blit_out (by omega)

theorem leRead_blit_in {d src : Bytes} {o m q n : Nat} (h : q + n ≤ m) :
    leRead (blit d o src m) (o + q) n = leRead src q n :=
  leRead_congr n (o + q) q fun i hi => by
    rw [blit_in (by omega) (by omega)]
    congr 1
    omega

theorem leRead_blit_self {d src : Bytes} {o n : Nat} : leRead (blit d o src n) o n = leRead src 0 n :=
  leRead_blit_in (q := 0) (by omega)

/-! ## Words -/

def u16At (d : Bytes) (o : Nat) : UInt16 := UInt16.ofNat (leRead d o 2)

def u32At (d : Bytes) (o : Nat) : UInt32 := UInt32.ofNat (leRead d o 4)

def put16 (d : Bytes) (o : Nat) (v : UInt16) : Bytes := blit d o (leByte v.toNat) 2

def put32 (d : Bytes) (o : Nat) (v : UInt32) : Bytes := blit d o (leByte v.toNat) 4

/-- The bytes of an array of 32-bit words. -/
def words32 (f : Nat → UInt32) : Bytes := fun j => leByte (f (j / 4)).toNat (j % 4)

theorem u16At_congr {d d' : Bytes} {o o' : Nat} (h : ∀ i < 2, d (o + i) = d' (o' + i)) :
    u16At d o = u16At d' o' := by
  rw [u16At, u16At, leRead_congr 2 o o' h]

theorem u32At_congr {d d' : Bytes} {o o' : Nat} (h : ∀ i < 4, d (o + i) = d' (o' + i)) :
    u32At d o = u32At d' o' := by
  rw [u32At, u32At, leRead_congr 4 o o' h]

theorem u16At_blit_out {d src : Bytes} {o m o' : Nat} (h : o' + 2 ≤ o ∨ o + m ≤ o') :
    u16At (blit d o src m) o' = u16At d o' :=
  u16At_congr fun i hi => blit_out (by omega)

theorem u32At_blit_out {d src : Bytes} {o m o' : Nat} (h : o' + 4 ≤ o ∨ o + m ≤ o') :
    u32At (blit d o src m) o' = u32At d o' :=
  u32At_congr fun i hi => blit_out (by omega)

theorem u32At_blit_in {d src : Bytes} {o m q : Nat} (h : q + 4 ≤ m) :
    u32At (blit d o src m) (o + q) = u32At src q := by
  rw [u32At, leRead_blit_in h, u32At]

theorem u16At_put16 (d : Bytes) (o : Nat) (v : UInt16) : u16At (put16 d o v) o = v := by
  rw [u16At, put16, leRead_blit_self, leRead_leByte]
  have := v.toNat_lt
  simp [Nat.mod_eq_of_lt this]

theorem u32At_put32 (d : Bytes) (o : Nat) (v : UInt32) : u32At (put32 d o v) o = v := by
  rw [u32At, put32, leRead_blit_self, leRead_leByte]
  have := v.toNat_lt
  simp [Nat.mod_eq_of_lt this]

theorem u32At_words32 (f : Nat → UInt32) (k : Nat) : u32At (words32 f) (4 * k) = f k := by
  have hread : leRead (words32 f) (4 * k) 4 = leRead (leByte (f k).toNat) 0 4 :=
    leRead_congr 4 (4 * k) 0 fun i hi => by
      rw [words32, show (4 * k + i) / 4 = k by omega, show (4 * k + i) % 4 = 0 + i by omega]
  rw [u32At, hread, leRead_leByte]
  have := (f k).toNat_lt
  simp [Nat.mod_eq_of_lt this]

/-- Zeros read as zero. -/
theorem u32At_zero {d : Bytes} {o : Nat} (h : ∀ i < 4, d (o + i) = 0) : u32At d o = 0 := by
  have : u32At d o = u32At (fun _ => 0) 0 := u32At_congr h
  rw [this]
  decide

theorem u16At_zero {d : Bytes} {o : Nat} (h : ∀ i < 2, d (o + i) = 0) : u16At d o = 0 := by
  have : u16At d o = u16At (fun _ => 0) 0 := u16At_congr h
  rw [this]
  decide

/-! ## Bit maps -/

/-- Bit `b` of the map. -/
def bitAt (d : Bytes) (b : Nat) : Bool := (d (b / 8)).toNat.testBit (b % 8)

/-- `d[b / 8] |= 1 << (b % 8)`. -/
def setBit (d : Bytes) (b : Nat) : Bytes :=
  update d (b / 8) (UInt8.ofNat ((d (b / 8)).toNat ||| 1 <<< (b % 8)))

/-- `(m & (1 << i)) == 0` tests bit `i`. -/
theorem and_shift_eq_zero (m i : Nat) : m &&& 1 <<< i = 0 ↔ m.testBit i = false := by
  rw [Nat.one_shiftLeft, Nat.and_two_pow]
  cases m.testBit i <;> simp

/-- A byte that is not `0xff` has a clear bit. -/
theorem exists_clear_bit {m : Nat} (hm : m < 256) (h : m ≠ 255) : ∃ i < 8, m.testBit i = false := by
  by_contra hall
  refine h (Nat.eq_of_testBit_eq fun i => ?_)
  rw [show (255 : Nat) = 2 ^ 8 - 1 from rfl, Nat.testBit_two_pow_sub_one]
  by_cases hi : i < 8
  · simpa [hi] using fun e => hall ⟨i, hi, e⟩
  · simp [hi, Nat.testBit_lt_two_pow (show m < 2 ^ i from
      lt_of_lt_of_le hm (Nat.pow_le_pow_right (n := 2) (by decide) (show 8 ≤ i by omega)))]

theorem bitAt_setBit (d : Bytes) (b c : Nat) : bitAt (setBit d b) c = (decide (c = b) || bitAt d c) := by
  have hlt : (d (b / 8)).toNat ||| 1 <<< (b % 8) < 256 := by
    rw [Nat.one_shiftLeft]
    refine Nat.or_lt_two_pow (n := 8) (d (b / 8)).toNat_lt ?_
    exact Nat.pow_lt_pow_right (by decide) (Nat.mod_lt _ (by decide))
  by_cases hbyte : c / 8 = b / 8
  · have hval : (setBit d b (c / 8)).toNat = (d (b / 8)).toNat ||| 1 <<< (b % 8) := by
      rw [setBit, hbyte, update_self, UInt8.toNat_ofNat', Nat.mod_eq_of_lt hlt]
    rw [bitAt, hval, Nat.testBit_or, Nat.one_shiftLeft, Nat.testBit_two_pow, bitAt, hbyte, Bool.or_comm]
    congr 1
    simp only [decide_eq_decide]
    omega
  · rw [bitAt, setBit, update_of_ne hbyte, bitAt]
    have : c ≠ b := fun e => hbyte (e ▸ rfl)
    simp [this]

end Bytes

end RiscvOsLab
