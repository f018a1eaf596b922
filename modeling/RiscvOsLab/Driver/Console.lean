import RiscvOsLab.Lib.Numeral

/-!
# The kernel's printf (`kernel/driver/console.c`)

Code runs over a `Console`: the characters sent to the UART and the arguments `va_arg` has not fetched. What C
leaves undefined stops it with a `Fault`: a write outside a local buffer, a read of an element never written, a
read past the end of a string, an argument that is missing or of another type.

* `printint`, `printlong` : digits go into a local buffer in reverse (`digitLoop`), then out (`emit`);
* `printf` : `fmt` is read at an index that moves in three places.

Both number printers send the numeral of their value (`printint_run`, `printlong_run`); `Shows` is what a text
has to satisfy to be the numeral of a value, said without the digits.
-/

namespace RiscvOsLab.Driver

/-- A character constant. -/
def ch (c : Char) : UInt8 := UInt8.ofNat c.toNat

/-- A string up to its terminating NUL. -/
structure CStr where
  chars : List UInt8
  noNul : ∀ c ∈ chars, c ≠ 0

/-- An argument as `va_arg` finds it: 32 bits, 64 bits, or a pointer to a string (`none` for null). -/
inductive Arg where
  | int (v : Int32)
  | long (v : UInt64)
  | str (s : Option CStr)

inductive Fault where
  | bufWrite (i : Nat)
  | bufRead (i : Nat)
  | digit (d : Nat)
  | strRead (i : Nat)
  | arg
  | fuel
  deriving DecidableEq

structure Console where
  out : List UInt8
  args : List Arg

abbrev Uart := StateT Console (Except Fault)

def fault {α : Type} (f : Fault) : Uart α := throw f

/-- `uart_putc(c)`, once the UART takes the character. -/
def uartPutc (c : UInt8) : Uart Unit := modify fun s => { s with out := s.out ++ [c] }

/-! ## Numbers -/

/-- The array `digits`, with its terminator. -/
def digits : List UInt8 :=
  ['0', '1', '2', '3', '4', '5', '6', '7', '8', '9', 'a', 'b', 'c', 'd', 'e', 'f', '\x00'].map ch

/-- `char buf[n]`; `none` for an element never written. -/
abbrev Buf (n : Nat) := Vector (Option UInt8) n

/-- `buf[i++] = c`. -/
def push {n : Nat} (buf : Buf n) (i : Nat) (c : UInt8) : Uart (Buf n × Nat) :=
  if h : i < n then pure (buf.set i (some c), i + 1) else fault (.bufWrite i)

/-- `do { buf[i++] = digits[x % base]; x /= base; } while (x != 0);`, with a bound on the rounds: no buffer takes
more than `n` of them. `%` and `/` of the two unsigned types are those of `Nat`. -/
def digitLoop {n : Nat} (base : Nat) : Nat → Nat → Buf n → Nat → Uart (Buf n × Nat)
  | 0, _, _, _ => fault .fuel
  | rounds + 1, x, buf, i => do
      match digits[x % base]? with
      | none => fault (.digit (x % base))
      | some c =>
          let (buf, i) ← push buf i c
          let x := x / base
          if x ≠ 0 then digitLoop base rounds x buf i else return (buf, i)

/-- `while (--i >= 0) uart_putc(buf[i]);` -/
def emit {n : Nat} (buf : Buf n) : Nat → Uart Unit
  | 0 => return ()
  | i + 1 => do
      match (buf.toList[i]?).join with
      | none => fault (.bufRead i)
      | some c =>
          uartPutc c
          emit buf i

/-- The part of `printint` and `printlong` after the sign is known. -/
def printDigits (n : Nat) (x base : Nat) (sign : Bool) : Uart Unit := do
  let (buf, i) ← digitLoop base (n + 1) x (Vector.replicate n none : Buf n) 0
  if sign then
    let (buf, i) ← push buf i (ch '-')
    emit buf i
  else
    emit buf i

def printint (xx : Int32) (base sign : Int32) : Uart Unit :=
  if sign ≠ 0 ∧ xx < 0 then printDigits 16 (-xx).toUInt32.toNat base.toUInt32.toNat true
  else printDigits 16 xx.toUInt32.toNat base.toUInt32.toNat false

def printlong (xx : Int64) (base sign : Int32) : Uart Unit :=
  if sign ≠ 0 ∧ xx < 0 then printDigits 20 (-xx).toUInt64.toNat base.toInt64.toUInt64.toNat true
  else printDigits 20 xx.toUInt64.toNat base.toInt64.toUInt64.toNat false

/-! ## printf -/

/-- `consputc(c)`: the low byte of `c` is sent. -/
def consputc (c : Int32) : Uart Unit := uartPutc c.toUInt32.toUInt8

/-- `fmt[i] & 0xff`. -/
def CStr.read (s : CStr) (i : Nat) : Uart UInt8 :=
  if h : i < s.chars.length then pure s.chars[i]
  else if i = s.chars.length then pure 0
  else fault (.strRead i)

def vaInt : Uart Int32 := do
  match (← get).args with
  | .int v :: args =>
      modify fun s => { s with args := args }
      return v
  | _ => fault .arg

/-- `va_arg(ap, unsigned long)`, or `va_arg(ap, long)`. -/
def vaLong : Uart UInt64 := do
  match (← get).args with
  | .long v :: args =>
      modify fun s => { s with args := args }
      return v
  | _ => fault .arg

def vaStr : Uart (Option CStr) := do
  match (← get).args with
  | .str v :: args =>
      modify fun s => { s with args := args }
      return v
  | _ => fault .arg

/-- `for (; *s; s++) consputc(*s);` -/
def consputs : List UInt8 → Uart Unit
  | [] => return ()
  | c :: s => do
      uartPutc c
      consputs s

/-- The string literal printed for a null pointer. -/
def nullText : List UInt8 := ['(', 'n', 'u', 'l', 'l', ')'].map ch

/-- The `switch`, but for its case `'l'`. -/
def convert (c : UInt8) : Uart Unit := do
  if c = ch 'd' then printint (← vaInt) 10 1
  else if c = ch 'x' then printint (← vaInt) 16 0
  else if c = ch 'p' then printlong (← vaLong).toInt64 16 0
  else if c = ch 's' then
    match ← vaStr with
    | none => consputs nullText
    | some s => consputs s.chars
  else if c = ch 'c' then consputc (← vaInt)
  else if c = ch '%' then uartPutc (ch '%')
  else
    uartPutc (ch '%')
    uartPutc c

/-- The case `'l'`, with the character after it. -/
def convertLong (c : UInt8) : Uart Unit := do
  if c = ch 'd' then printlong (← vaLong).toInt64 10 1
  else if c = ch 'u' then printlong (← vaLong).toInt64 10 0
  else if c = ch 'x' then printlong (← vaLong).toInt64 16 0
  else
    uartPutc (ch '%')
    uartPutc (ch 'l')
    if c ≠ 0 then uartPutc c

/-- The rounds of the `for` loop from index `i` on. -/
def printfLoop (fmt : CStr) : Nat → Nat → Uart Unit
  | 0, _ => fault .fuel
  | rounds + 1, i => do
      let c ← fmt.read i
      if c = 0 then
        return ()
      else if c ≠ ch '%' then
        uartPutc c
        printfLoop fmt rounds (i + 1)
      else
        let c ← fmt.read (i + 1)
        if c = 0 then
          return ()
        else if c = ch 'l' then
          let c ← fmt.read (i + 2)
          convertLong c
          printfLoop fmt rounds (i + 2 + 1)
        else
          convert c
          printfLoop fmt rounds (i + 1 + 1)

/-- `printf(fmt, ...)`; a round moves the index, so that the round after `strlen(fmt) + 1` others reads past the
terminator. -/
def printf : Option CStr → Uart Unit
  | none => return ()
  | some fmt => printfLoop fmt (fmt.chars.length + 2) 0

/-! ## Numerals -/

/-- The characters of `digits`, as far as they stand for digits. -/
def alphabet : Alphabet UInt8 16 where
  char := fun d => digits.getD d 0
  value := fun c => (digits.take 16).idxOf? c
  minus := ch '-'
  value_char := by decide
  value_minus := by decide

theorem digits_get {d : Nat} (h : d < 16) : digits[d]? = some (alphabet.char d) := by
  have hlen : d < digits.length := Nat.lt_of_lt_of_le h (by decide)
  rw [List.getElem?_eq_getElem hlen]
  simp only [alphabet, List.getD_eq_getElem?_getD, List.getElem?_eq_getElem hlen, Option.getD_some]

theorem run_seq {α β : Type} {m : Uart α} {f : α → Uart β} {c c' : Console} {a : α} (h : m.run c = .ok (a, c')) :
    (m >>= f).run c = (f a).run c' := by
  rw [StateT.run_bind, h]
  rfl

/-- More characters are sent. -/
def Console.put (c : Console) (t : List UInt8) : Console := { c with out := c.out ++ t }

@[simp] theorem Console.put_nil (c : Console) : c.put [] = c := by
  rw [put, List.append_nil]

@[simp] theorem Console.put_put (c : Console) (t u : List UInt8) : (c.put t).put u = c.put (t ++ u) := by
  rw [put, put, put, List.append_assoc]

@[simp] theorem Console.put_args (c : Console) (t : List UInt8) : (c.put t).args = c.args := rfl

theorem uartPutc_run (a : UInt8) (c : Console) : (uartPutc a).run c = .ok ((), c.put [a]) := rfl

/-- What is in the buffer below its index. -/
def Holds {n : Nat} (buf : Buf n) (i : Nat) (t : List UInt8) : Prop := buf.toList.take i = t.map some

theorem holds_new (n : Nat) : Holds (Vector.replicate n none : Buf n) 0 [] := rfl

theorem push_run {n : Nat} {buf : Buf n} {i : Nat} {t : List UInt8} (h : Holds buf i t) (hi : i < n) (a : UInt8)
    (c : Console) : ∃ buf', (push buf i a).run c = .ok ((buf', i + 1), c) ∧ Holds buf' (i + 1) (t ++ [a]) := by
  refine ⟨buf.set i (some a), ?_, ?_⟩
  · rw [push, dif_pos hi]
    rfl
  · have hlen : i < (buf.toList.set i (some a)).length := by simpa using hi
    rw [Holds, Vector.toList_set, List.take_succ_eq_append_getElem hlen, List.take_set_of_le (Nat.le_refl i),
      List.getElem_set_self, List.map_append, show buf.toList.take i = t.map some from h]
    rfl

theorem digitLoop_run {n base : Nat} (hb : 1 < base) (h16 : base ≤ 16) (c : Console) :
    ∀ {r x i : Nat} {buf : Buf n} {t : List UInt8}, Holds buf i t → (lowDigits base x).length ≤ r →
      i + (lowDigits base x).length ≤ n →
      ∃ buf', (digitLoop base r x buf i).run c = .ok ((buf', i + (lowDigits base x).length), c) ∧
        Holds buf' (i + (lowDigits base x).length) (t ++ (lowDigits base x).map alphabet.char) := by
  intro r
  induction r with
  | zero =>
      intro x i buf t _ hr
      exact absurd (List.length_eq_zero_iff.1 (Nat.le_zero.1 hr)) (lowDigits_ne_nil hb x)
  | succ r ih =>
      intro x i buf t ht hr hn
      rw [lowDigits_step hb, List.length_cons] at hr hn
      have hi : i < n := by omega
      obtain ⟨buf₁, hpush, hbuf₁⟩ := push_run ht hi (alphabet.char (x % base)) c
      rw [digitLoop, digits_get (Nat.lt_of_lt_of_le (Nat.mod_lt x (by omega)) h16), lowDigits_step hb x]
      simp only []
      rw [run_seq hpush]
      by_cases hq : x / base = 0
      · rw [if_neg (not_not.2 hq), if_pos hq]
        exact ⟨buf₁, rfl, hbuf₁⟩
      · rw [if_neg hq] at hr hn
        rw [if_pos hq, if_neg hq]
        obtain ⟨buf₂, hloop, hbuf₂⟩ := ih (x := x / base) hbuf₁ (by omega) (by omega)
        refine ⟨buf₂, ?_, ?_⟩
        · rw [hloop, List.length_cons]
          congr 3
          omega
        · rw [List.length_cons, List.map_cons]
          rw [List.append_assoc, List.singleton_append] at hbuf₂
          convert hbuf₂ using 1
          omega

theorem emit_run {n : Nat} {buf : Buf n} : ∀ {i : Nat} {t : List UInt8} (c : Console), Holds buf i t → i ≤ n →
    (emit buf i).run c = .ok ((), c.put t.reverse) := by
  intro i
  induction i with
  | zero =>
      intro t c ht _
      obtain rfl : t = [] := by simpa [Holds] using ht.symm
      simp [emit]
      rfl
  | succ i ih =>
      intro t c ht hi
      have hlen : i < buf.toList.length := by simpa using hi
      rw [Holds, List.take_succ_eq_append_getElem hlen] at ht
      obtain ⟨t₁, t₂, rfl, h₁, h₂⟩ := List.append_eq_map_iff.1 ht
      obtain ⟨a, rfl, ha⟩ := List.map_eq_singleton_iff.1 h₂
      rw [emit, List.getElem?_eq_getElem hlen, ← ha, Option.join_some]
      simp only []
      rw [run_seq (uartPutc_run a c), ih _ h₁.symm (by omega), Console.put_put, List.reverse_append]
      rfl

theorem printDigits_run {n x base : Nat} (hb : 1 < base) (h16 : base ≤ 16) (sign : Bool)
    (hn : (lowDigits base x).length + (if sign then 1 else 0) ≤ n) (c : Console) :
    (printDigits n x base sign).run c = .ok ((), c.put
      (if sign then ch '-' :: alphabet.natText base x else alphabet.natText base x)) := by
  obtain ⟨buf, hloop, hbuf⟩ := digitLoop_run hb h16 c (holds_new n) (x := x) (r := n + 1) (by omega) (by omega)
  rw [Nat.zero_add, List.nil_append] at hbuf
  rw [printDigits, run_seq hloop]
  simp only [Nat.zero_add]
  cases sign with
  | false => exact emit_run c hbuf hn
  | true =>
      obtain ⟨buf', hpush, hbuf'⟩ := push_run hbuf hn (ch '-') c
      simp only [if_true]
      rw [run_seq hpush, emit_run c hbuf' hn, List.reverse_append]
      rfl

/-- The value that is printed: the signed one when `sign` is set. -/
def shown (signed : Int) (unsigned : Nat) (sign : Int32) : Int := if sign ≠ 0 then signed else unsigned

/-- Negation before the cast gives the absolute value, that of the least number included. -/
theorem toNat_neg_eq_natAbs {w : Nat} {x : BitVec w} (h : x.toInt < 0) : (-x).toNat = x.toInt.natAbs := by
  have hlt := x.isLt
  rw [BitVec.toInt_eq_toNat_cond] at h ⊢
  rw [BitVec.toNat_neg]
  split at h
  · omega
  · rename_i hx
    rw [if_neg hx, Nat.mod_eq_of_lt (by omega)]
    omega

/-- A word of `w` bits in a buffer that takes one digit more than a negative one has. -/
theorem printWord_run {w n k base : Nat} (x : BitVec w) (sign : Int32) (hb : 10 ≤ base) (h16 : base ≤ 16)
    (hk : 0 < k) (hn : k + 1 ≤ n) (hneg : 2 ^ w < 2 * 10 ^ k) (hpos : 2 ^ w ≤ 10 ^ (k + 1)) (c : Console) :
    (if sign ≠ 0 ∧ x.toInt < 0 then printDigits n (-x).toNat base true
      else printDigits n x.toNat base false).run c =
      .ok ((), c.put (alphabet.intText base (shown x.toInt x.toNat sign))) := by
  have hpow : ∀ e, 10 ^ e ≤ base ^ e := fun e => Nat.pow_le_pow_left hb e
  split
  · rename_i h
    have hle := BitVec.le_two_mul_toInt (x := x)
    have hcast : ((2 ^ w : Nat) : Int) = 2 ^ w := Nat.cast_pow 2 w
    have hlt : x.toInt.natAbs < base ^ k := by
      have := hpow k
      omega
    have hlen := length_lowDigits_le (by omega) hk hlt
    rw [toNat_neg_eq_natAbs h.2, printDigits_run (by omega) h16 true (by simp only [if_true]; omega),
      Alphabet.intText, shown, if_pos h.1, if_pos h.2]
    rfl
  · rename_i h
    have hlt : x.toNat < base ^ (k + 1) := by
      have := hpow (k + 1)
      have := x.isLt
      omega
    have hlen := length_lowDigits_le (by omega) (Nat.succ_pos k) hlt
    have hshown : shown x.toInt x.toNat sign = x.toNat := by
      unfold shown
      split
      · rename_i hs
        have hle := not_and.1 h hs
        have hlt := x.isLt
        rw [BitVec.toInt_eq_toNat_cond] at hle ⊢
        split at hle <;> omega
      · rfl
    rw [hshown, printDigits_run (by omega) h16 false (by simpa using Nat.le_trans hlen hn), Alphabet.intText,
      if_neg (Int.not_lt.2 (Int.natCast_nonneg _))]
    rfl

theorem radix_bounds {base : Int32} (hb : base = 10 ∨ base = 16) :
    10 ≤ base.toUInt32.toNat ∧ base.toUInt32.toNat ≤ 16 := by
  rcases hb with rfl | rfl <;> decide

theorem printint_run {base : Int32} (hb : base = 10 ∨ base = 16) (xx sign : Int32) (c : Console) :
    (printint xx base sign).run c = .ok ((), c.put
      (alphabet.intText base.toUInt32.toNat (shown xx.toInt xx.toUInt32.toNat sign))) := by
  obtain ⟨h10, h16⟩ := radix_bounds hb
  unfold printint
  simp only [Int32.lt_iff_toInt_lt]
  exact printWord_run (k := 10) xx.toBitVec sign h10 h16 (by decide) (by decide) (by decide) (by decide) c

theorem printlong_run {base : Int32} (hb : base = 10 ∨ base = 16) (xx : Int64) (sign : Int32) (c : Console) :
    (printlong xx base sign).run c = .ok ((), c.put
      (alphabet.intText base.toUInt32.toNat (shown xx.toInt xx.toUInt64.toNat sign))) := by
  obtain ⟨h10, h16⟩ := radix_bounds hb
  have hbase : base.toInt64.toUInt64.toNat = base.toUInt32.toNat := by
    rcases hb with rfl | rfl <;> rfl
  unfold printlong
  rw [hbase]
  simp only [Int64.lt_iff_toInt_lt]
  exact printWord_run (k := 19) xx.toBitVec sign h10 h16 (by decide) (by decide) (by decide) (by decide) c

/-! ## What a text has to satisfy -/

/-- `t` read in base `b` is `v`; the sign is there exactly for a negative `v`; a leading zero stands alone. -/
structure Shows (b : Nat) (v : Int) (t : List UInt8) : Prop where
  reads : alphabet.readInt b t = some v
  minus : t.head? = some (ch '-') ↔ v < 0
  leading : (alphabet.unsigned t).head? = some (ch '0') → alphabet.unsigned t = [ch '0']

theorem shows_intText {b : Nat} (hb : 1 < b) (h16 : b ≤ 16) (v : Int) : Shows b v (alphabet.intText b v) where
  reads := Alphabet.readInt_intText hb h16 v
  minus := Alphabet.head_intText hb h16 v
  leading := by
    rw [Alphabet.unsigned_intText hb h16]
    exact Alphabet.head_natText hb h16

/-- Every number is printed, within its buffer, as a text that reads back as its value. -/
theorem numbers_shown {base : Int32} (hb : base = 10 ∨ base = 16) (sign : Int32) (c : Console) :
    (∀ xx : Int32, ∃ t, (printint xx base sign).run c = .ok ((), c.put t) ∧
      Shows base.toUInt32.toNat (if sign ≠ 0 then xx.toInt else xx.toUInt32.toNat) t) ∧
    ∀ xx : Int64, ∃ t, (printlong xx base sign).run c = .ok ((), c.put t) ∧
      Shows base.toUInt32.toNat (if sign ≠ 0 then xx.toInt else xx.toUInt64.toNat) t := by
  obtain ⟨h10, h16⟩ := radix_bounds hb
  constructor
  · intro xx
    exact ⟨_, printint_run hb xx sign c, shows_intText (by omega) h16 _⟩
  · intro xx
    exact ⟨_, printlong_run hb xx sign c, shows_intText (by omega) h16 _⟩

/-- The most negative numbers, in base 10. -/
theorem numbers_shown_least :
    (∃ t, (printint (-2147483648) 10 1).run ⟨[], []⟩ = .ok ((), ⟨t, []⟩) ∧ Shows 10 (-2147483648) t) ∧
    ∃ t, (printlong (-9223372036854775808) 10 1).run ⟨[], []⟩ = .ok ((), ⟨t, []⟩) ∧
      Shows 10 (-9223372036854775808) t := by
  have h := numbers_shown (.inl rfl : (10 : Int32) = 10 ∨ (10 : Int32) = 16) 1 ⟨[], []⟩
  exact ⟨h.1 (-2147483648), h.2 (-9223372036854775808)⟩

end RiscvOsLab.Driver
