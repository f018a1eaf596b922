import RiscvOsLab.Trap.Timer

/-!
# From reset to `start_main` (`kernel/boot/start.c`)

`start`, with `timerinit`, one statement after the other. The last statement of `timerinit` turns on interrupts while the
hart is still in machine mode, so that the handler may come before the `mret`, and its own trap and `mret` write to
`mepc` and to `mstatus.MPP`.

* `Stmt.exec` : the statements;
* `Stmt.Done` : what a statement leaves for the rest of the boot, kept by all that come after it;
* `start_reaches` : where the `mret` leads.
-/

namespace RiscvOsLab.Trap.Start

open Function Riscv
open Timer (Mode timervec)

def NCPU : Nat := 1

def CLINT : Word := 0x2000000
def CLINT_MTIMECMP (hartid : Nat) : Word := CLINT + 0x4000 + 8 * BitVec.ofNat 64 hartid

def MSTATUS_MPP_MASK : Word := 3 <<< 11
def MSTATUS_MPP_M : Word := 3 <<< 11
def MSTATUS_MPP_S : Word := 1 <<< 11
def MSTATUS_MPIE : Word := 1 <<< 7
def MSTATUS_MIE : Word := 1 <<< 3
def MIE_MTIE : Word := 1 <<< 7
def SIE_SEIE : Word := 1 <<< 9
def SIE_STIE : Word := 1 <<< 5
def SIE_SSIE : Word := 1 <<< 1

/-- The bits of `mideleg` that can be set: no interrupt of machine mode is delegated. -/
def delegable : Word := SIE_SEIE ||| SIE_STIE ||| SIE_SSIE

/-- What the linker fixes: `start_main`, `timervec`, `timer_scratch`, and where the code of `start` is when so many
statements are left. -/
structure Addresses where
  hartid : Nat
  startMain : Word
  timervec : Word
  timerScratch : Word
  code : Nat → Word
  hart : hartid < NCPU
  main : ∀ n < 2, code n ≠ startMain
  apart : ∀ x, Area (timerScratch + BitVec.ofNat 64 (Timer.scratchSize * hartid)) Timer.scratchSize x →
    ¬ Area (CLINT_MTIMECMP hartid) 8 x

/-- `&timer_scratch[hartid][0]`, the compare register and `interval`. -/
def Addresses.timer (A : Addresses) : Timer.Layout :=
  ⟨A.timerScratch + BitVec.ofNat 64 (Timer.scratchSize * A.hartid), CLINT_MTIMECMP A.hartid, 1000000, A.apart⟩

/-! ## `mstatus` -/

def mie (x : Word) : Bool := x.getLsbD 3

def mpp (x : Word) : Mode :=
  match x.getLsbD 12, x.getLsbD 11 with
  | true, _ => .machine
  | false, true => .supervisor
  | false, false => .user

/-- A trap from machine mode. -/
def trapStatus (x : Word) : Word :=
  x &&& ~~~(MSTATUS_MPP_MASK ||| MSTATUS_MPIE ||| MSTATUS_MIE) ||| MSTATUS_MPP_M ||| if mie x then MSTATUS_MPIE else 0

def mretStatus (x : Word) : Word :=
  x &&& ~~~(MSTATUS_MPP_MASK ||| MSTATUS_MIE) ||| MSTATUS_MPIE ||| if x.getLsbD 7 then MSTATUS_MIE else 0

/-! ## The statements -/

inductive Stmt where
  | mpp | mepc | medeleg | mideleg | sie | pmpaddr0 | pmpcfg0 | satp
  | mtimecmp | address | interval | mscratch | mtvec | mtie | mie
  | tp
  deriving DecidableEq

/-- `start()` up to the `mret`, with `timerinit()` in place of its call. -/
def start : List Stmt := [
  .mpp, .mepc, .medeleg, .mideleg, .sie, .pmpaddr0, .pmpcfg0, .satp,
  .mtimecmp, .address, .interval, .mscratch, .mtvec, .mtie, .mie,
  .tp]

structure Boot extends Cpu Reg Timer.Csr where
  pc : Word
  mode : Mode
  mstatus : Word
  mepc : Word
  medeleg : Word
  mideleg : Word
  /-- `sie` is the part of it that is delegated. -/
  mie : Word
  pmpaddr0 : Word
  pmpcfg0 : Word
  satp : Word
  mtvec : Word
  mtime : Nat
  rest : List Stmt

section
variable (A : Addresses)

def Stmt.exec (b : Boot) : Stmt → Boot
  | .mpp => { b with mstatus := b.mstatus &&& ~~~MSTATUS_MPP_MASK ||| MSTATUS_MPP_S }
  | .mepc => { b with mepc := A.startMain }
  | .medeleg => { b with medeleg := 0xffff }
  | .mideleg => { b with mideleg := 0xffff &&& delegable }
  | .sie =>
      let sie := b.mie &&& b.mideleg ||| SIE_SEIE ||| SIE_STIE ||| SIE_SSIE
      { b with mie := b.mie &&& ~~~b.mideleg ||| sie &&& b.mideleg }
  | .pmpaddr0 => { b with pmpaddr0 := 0x3fffffffffffff }
  | .pmpcfg0 => { b with pmpcfg0 := 0xf }
  | .satp => { b with satp := 0 }
  | .mtimecmp => { b with mem := store b.mem A.timer.mtimecmp (BitVec.ofNat 64 b.mtime + A.timer.interval) }
  | .address => { b with mem := store b.mem (A.timer.scratch + BitVec.ofNat 64 24) A.timer.mtimecmp }
  | .interval => { b with mem := store b.mem (A.timer.scratch + BitVec.ofNat 64 32) A.timer.interval }
  | .mscratch => { b with csr := update b.csr .mscratch A.timer.scratch }
  | .mtvec => { b with mtvec := A.timervec }
  | .mtie => { b with mie := b.mie ||| MIE_MTIE }
  | .mie => { b with mstatus := b.mstatus ||| MSTATUS_MIE }
  | .tp => { b with reg := update b.reg .tp (BitVec.ofNat 64 A.hartid) }

def Boot.mtimecmp (b : Boot) : Word := load b.mem A.timer.mtimecmp

structure Boot.Enabled (b : Boot) : Prop where
  mie : Start.mie b.mstatus = true
  mtie : b.mie.getLsbD 7 = true
  due : (b.mtimecmp A).toNat ≤ b.mtime

/-- The trap, the handler at `mtvec`, and its `mret`. -/
def Boot.interrupt (b : Boot) : Boot :=
  { b with
    toCpu := Timer.exec timervec b.toCpu
    mepc := A.code b.rest.length
    mstatus := mretStatus (trapStatus b.mstatus) }

def Boot.mret (b : Boot) : Boot :=
  { b with pc := b.mepc, mode := Start.mpp b.mstatus, mstatus := mretStatus b.mstatus }

inductive Event where
  | stmt (i : Stmt)
  | interrupt
  | clock
  deriving DecidableEq

/-- The compiled code of a statement uses registers and its stack. -/
inductive Step (b : Boot) : Event → Boot → Prop
  | stmt {i : Stmt} {p : List Stmt} {reg : Reg → Word} {mem : Memory} : b.rest = i :: p →
      (∀ x, Timer.Words A.timer x → mem x = b.mem x) →
      Step b (.stmt i) { i.exec A { b with reg, mem } with rest := p }
  | interrupt : b.Enabled A → b.mtvec = A.timervec → Step b .interrupt (b.interrupt A)
  | clock {n : Nat} : b.mtime ≤ n → Step b .clock { b with mtime := n }

/-- At reset: machine mode, its interrupts off. -/
structure Reset (b : Boot) : Prop where
  mode : b.mode = .machine
  mie : mie b.mstatus = false
  rest : b.rest = start

/-- What a statement leaves. -/
def Stmt.Done (b : Boot) : Stmt → Prop
  | .mpp => Start.mpp b.mstatus = .supervisor
  | .mepc => b.mepc = A.startMain
  | .medeleg => b.medeleg = 0xffff
  | .mideleg => b.mideleg = delegable
  | .sie => ∀ k ∈ [1, 5, 9], b.mie.getLsbD k = true
  | .pmpaddr0 => b.pmpaddr0 = 0x3fffffffffffff
  | .pmpcfg0 => b.pmpcfg0 = 0xf
  | .satp => b.satp = 0
  | .mtimecmp => True
  | .address => load b.mem (A.timer.scratch + BitVec.ofNat 64 24) = A.timer.mtimecmp
  | .interval => load b.mem (A.timer.scratch + BitVec.ofNat 64 32) = A.timer.interval
  | .mscratch => b.csr .mscratch = A.timer.scratch
  | .mtvec => b.mtvec = A.timervec
  | .mtie => b.mie.getLsbD 7 = true
  | .mie => Start.mie b.mstatus = true
  | .tp => b.reg .tp = BitVec.ofNat 64 A.hartid

variable {A} {b b' : Boot}

/-! ## Bits -/

theorem mpp_start (x : Word) : mpp (x &&& ~~~MSTATUS_MPP_MASK ||| MSTATUS_MPP_S) = .supervisor := by
  simp [mpp, MSTATUS_MPP_MASK, MSTATUS_MPP_S]

theorem mie_start (x : Word) : mie (x &&& ~~~MSTATUS_MPP_MASK ||| MSTATUS_MPP_S) = mie x := by
  simp [mie, MSTATUS_MPP_MASK, MSTATUS_MPP_S]

theorem mpp_enable (x : Word) : mpp (x ||| MSTATUS_MIE) = mpp x := by
  simp [mpp, MSTATUS_MIE]

theorem mie_enable (x : Word) : mie (x ||| MSTATUS_MIE) = true := by
  simp [mie, MSTATUS_MIE]

/-- After an `mret`, the previous mode is user mode. -/
theorem mpp_mret (x : Word) : mpp (mretStatus x) = .user := by
  unfold mretStatus
  split <;> simp [mpp, MSTATUS_MPP_MASK, MSTATUS_MIE, MSTATUS_MPIE]

/-- The handler leaves interrupts on. -/
theorem mie_interrupt (x : Word) (h : mie x = true) : mie (mretStatus (trapStatus x)) = true := by
  unfold mretStatus trapStatus
  rw [h]
  simp [mie, MSTATUS_MPP_MASK, MSTATUS_MPP_M, MSTATUS_MIE, MSTATUS_MPIE]

theorem mideleg_eq : (0xffff : Word) &&& delegable = delegable := by decide

/-! ## The statements -/

theorem Stmt.done_exec (i : Stmt) (hsie : i = .sie → b.mideleg = delegable) : i.Done A (i.exec A b) := by
  cases i with
  | mpp => exact mpp_start _
  | mideleg => exact mideleg_eq
  | sie =>
      have hdel := hsie rfl
      intro k hk
      show (b.mie &&& ~~~b.mideleg |||
        (b.mie &&& b.mideleg ||| SIE_SEIE ||| SIE_STIE ||| SIE_SSIE) &&& b.mideleg).getLsbD k = true
      rw [hdel]
      simp only [List.mem_cons, List.not_mem_nil, or_false] at hk
      rcases hk with rfl | rfl | rfl <;> simp [delegable, SIE_SEIE, SIE_STIE, SIE_SSIE]
  | mtimecmp => trivial
  | address => exact load_store _ _ _
  | interval => exact load_store _ _ _
  | mscratch =>
      show update b.csr .mscratch A.timer.scratch .mscratch = A.timer.scratch
      rw [update_self]
  | mtie =>
      show (b.mie ||| MIE_MTIE).getLsbD 7 = true
      simp [MIE_MTIE]
  | mie => exact mie_enable _
  | tp =>
      show update b.reg .tp (BitVec.ofNat 64 A.hartid) .tp = BitVec.ofNat 64 A.hartid
      rw [update_self]
  | _ => rfl

/-- The compiled code of a statement keeps what earlier ones have left, but for registers. -/
theorem Stmt.Done.local {j : Stmt} (h : j.Done A b) (hj : j ≠ .tp) {reg : Reg → Word} {mem : Memory}
    (hmem : ∀ x, Timer.Words A.timer x → mem x = b.mem x) : j.Done A { b with reg, mem } := by
  have hload {o : Nat} (ho : o + 8 ≤ Timer.scratchSize) :
      load mem (A.timer.scratch + BitVec.ofNat 64 o) = load b.mem (A.timer.scratch + BitVec.ofNat 64 o) :=
    load_frame fun x hx => hmem x (.inl (hx.offset ho))
  cases j with
  | address => exact (hload (by decide)).trans h
  | interval => exact (hload (by decide)).trans h
  | tp => exact absurd rfl hj
  | _ => exact h

/-- A statement keeps what the others have left. -/
theorem Stmt.Done.exec {i j : Stmt} (h : j.Done A b) (hij : i ≠ j) : j.Done A (i.exec A b) := by
  cases j with
  | mpp =>
      cases i with
      | mpp => exact absurd rfl hij
      | mie => exact (mpp_enable _).trans h
      | _ => exact h
  | mie =>
      cases i with
      | mpp => exact (mie_start _).trans h
      | mie => exact absurd rfl hij
      | _ => exact h
  | sie =>
      cases i with
      | sie => exact absurd rfl hij
      | mtie =>
          intro k hk
          show (b.mie ||| MIE_MTIE).getLsbD k = true
          rw [BitVec.getLsbD_or, h k hk, Bool.true_or]
      | _ => exact h
  | mtie =>
      cases i with
      | sie =>
          have hbit : b.mie.getLsbD 7 = true := h
          show (b.mie &&& ~~~b.mideleg |||
            (b.mie &&& b.mideleg ||| SIE_SEIE ||| SIE_STIE ||| SIE_SSIE) &&& b.mideleg).getLsbD 7 = true
          simp [hbit, SIE_SEIE, SIE_STIE, SIE_SSIE]
      | mtie => exact absurd rfl hij
      | _ => exact h
  | address =>
      cases i with
      | mtimecmp => exact (Timer.load_scratch (by decide) _ _).trans h
      | address => exact absurd rfl hij
      | interval => exact (Timer.load_scratch_other (.inr (by decide)) (by decide) (by decide) _ _).trans h
      | _ => exact h
  | interval =>
      cases i with
      | mtimecmp => exact (Timer.load_scratch (by decide) _ _).trans h
      | address => exact (Timer.load_scratch_other (.inl (by decide)) (by decide) (by decide) _ _).trans h
      | interval => exact absurd rfl hij
      | _ => exact h
  | _ =>
      cases i with
      | _ => first | exact h | exact absurd rfl hij

/-- The handler keeps what the statements have left, but for `mepc` and `MPP`. -/
theorem Stmt.Done.interrupt {j : Stmt} (h : j.Done A b) (ha : Timer.Armed A.timer b.toCpu) (hj : j ≠ .mpp) (hj' : j ≠ .mepc) :
    j.Done A (b.interrupt A) := by
  have hcpu := Timer.timervec_run ha
  have ha' := ha.served
  rw [← hcpu] at ha'
  cases j with
  | mpp => exact absurd rfl hj
  | mepc => exact absurd rfl hj'
  | address => exact ha'.address
  | interval => exact ha'.interval
  | mscratch => exact ha'.mscratch
  | mie => exact mie_interrupt _ h
  | tp =>
      show (Timer.exec timervec b.toCpu).reg .tp = _
      rw [hcpu]
      exact h
  | _ => exact h

/-! ## Runs -/

/-- Positions in `start`. -/
theorem rest_cases {l : List Stmt} (h : l <:+ start) (hmie : .mie ∉ l) : l = [.tp] ∨ l = [] := by
  have hall : ∀ l ∈ start.tails, .mie ∉ l → l = [.tp] ∨ l = [] := by decide
  exact hall l ((List.mem_tails _ _).2 h) hmie

theorem tp_mem {i : Stmt} {p : List Stmt} (h : i :: p <:+ start) : .tp ∈ i :: p := by
  have hall : ∀ l ∈ start.tails, l ≠ [] → .tp ∈ l := by decide
  exact hall _ ((List.mem_tails _ _).2 h) (by simp)

/-- What is still to come comes once. -/
theorem notMem_tail {i : Stmt} {p : List Stmt} (h : i :: p <:+ start) : i ∉ p := by
  have hnodup : start.Nodup := by decide
  exact (List.nodup_cons.1 (hnodup.sublist h.sublist)).1

structure Inv (A : Addresses) (b : Boot) (past : List Event) (b' : Boot) : Prop where
  suffix : b'.rest <:+ start
  mode : b'.mode = .machine
  off : .mie ∈ b'.rest → mie b'.mstatus = false
  /-- `mepc` and `MPP` are as set, as long as no interrupt is taken. -/
  done : ∀ i ∈ start, i ∉ b'.rest → past.count .interrupt = 0 ∨ i ≠ .mpp ∧ i ≠ .mepc → i.Done A b'
  hit : 0 < past.count .interrupt → .mie ∉ b'.rest ∧ mpp b'.mstatus = .user ∧ ∃ n < 2, b'.mepc = A.code n
  mono : b.mtime ≤ b'.mtime
  timed : past.count .interrupt = 0 → .mtimecmp ∉ b'.rest →
    ∃ t, b.mtime ≤ t ∧ t ≤ b'.mtime ∧ b'.mtimecmp A = BitVec.ofNat 64 t + A.timer.interval
  late : 0 < past.count .interrupt → b'.mtime + 1000000 < 2 ^ 64 → b.mtime + 1000000 ≤ b'.mtime

theorem Inv.start (h : Reset b) : Inv A b [] b := by
  obtain ⟨hmode, hmie, hrest⟩ := h
  refine ⟨hrest ▸ List.suffix_refl _, hmode, fun _ => hmie, fun i hi hno => ?_, fun hpos => ?_, Nat.le_refl _,
    fun _ hno => ?_, fun hpos => ?_⟩
  · exact absurd (hrest ▸ hi) hno
  · exact absurd hpos (by simp)
  · rw [hrest] at hno
    exact absurd (by decide) hno
  · exact absurd hpos (by simp)

/-- Interrupts are only on once the handler can run. -/
theorem Inv.armed {b₀ : Boot} {past : List Event} (hi : Inv A b₀ past b) (hmie : .mie ∉ b.rest) :
    Timer.Armed A.timer b.toCpu := by
  have hdone (i : Stmt) (hi₁ : i ∈ Start.start) (hi₂ : i ≠ .tp) (hi₃ : i ≠ .mpp ∧ i ≠ .mepc) : i.Done A b := by
    refine hi.done i hi₁ ?_ (.inr hi₃)
    rcases rest_cases hi.suffix hmie with hr | hr
    · rw [hr]
      simpa using hi₂
    · rw [hr]
      exact List.not_mem_nil
  exact ⟨hdone .mscratch (by decide) (by decide) (by decide), hdone .address (by decide) (by decide) (by decide),
    hdone .interval (by decide) (by decide) (by decide)⟩

theorem Inv.enabled {b₀ : Boot} {past : List Event} (hi : Inv A b₀ past b) (he : b.Enabled A) : .mie ∉ b.rest := by
  intro hin
  have hoff := hi.off hin
  rw [he.mie] at hoff
  cases hoff

theorem Stmt.exec_mtime (i : Stmt) (b : Boot) : (i.exec A b).mtime = b.mtime := by cases i <;> rfl

theorem Stmt.exec_mode (i : Stmt) (b : Boot) : (i.exec A b).mode = b.mode := by cases i <;> rfl

theorem Stmt.exec_mie {i : Stmt} (hi : i ≠ .mie) (b : Boot) : Start.mie (i.exec A b).mstatus = Start.mie b.mstatus := by
  cases i with
  | mpp => exact mie_start _
  | mie => exact absurd rfl hi
  | _ => rfl

theorem Stmt.exec_mtimecmp {i : Stmt} (hi : i ≠ .mtimecmp) (b : Boot) : (i.exec A b).mtimecmp A = b.mtimecmp A := by
  cases i with
  | mtimecmp => exact absurd rfl hi
  | address => exact Timer.load_mtimecmp (by decide) _ _
  | interval => exact Timer.load_mtimecmp (by decide) _ _
  | _ => rfl

theorem Inv.stmt {b₀ : Boot} {past : List Event} {i : Stmt} {p : List Stmt} {reg : Reg → Word} {mem : Memory}
    (hi : Inv A b₀ past b) (hr : b.rest = i :: p) (hmem : ∀ x, Timer.Words A.timer x → mem x = b.mem x) :
    Inv A b₀ (.stmt i :: past) { i.exec A { b with reg, mem } with rest := p } := by
  have hcount : (Event.stmt i :: past).count .interrupt = past.count .interrupt := List.count_cons_of_ne (by simp)
  obtain ⟨hsuffix, hmode, hoff, hdone, hhit, hmono, htimed, hlate⟩ := hi
  rw [hr] at hsuffix hoff hdone hhit htimed
  have hnew := notMem_tail hsuffix
  have hmono' : b₀.mtime ≤ (i.exec A { b with reg, mem }).mtime := by
    rw [Stmt.exec_mtime]
    exact hmono
  refine ⟨(List.suffix_cons i p).trans hsuffix, ?_, fun hin => ?_, fun j hj hno hor => ?_, fun hpos => ?_, hmono',
    fun hzero hno => ?_, fun hpos hlt => ?_⟩
  · exact (Stmt.exec_mode i _).trans hmode
  · have hne : i ≠ .mie := fun heq => hnew (heq ▸ hin)
    exact (Stmt.exec_mie hne _).trans (hoff (List.mem_cons_of_mem _ hin))
  · rw [hcount] at hor
    suffices h : j.Done A (i.exec A { b with reg, mem }) by
      cases j <;> exact h
    by_cases hij : i = j
    · rw [← hij]
      apply Stmt.done_exec
      rintro rfl
      have hbefore : ∀ l ∈ Start.start.tails, l.head? = some .sie → .mideleg ∉ l := by decide
      have hmideleg := hbefore _ ((List.mem_tails _ _).2 hsuffix) rfl
      exact hdone .mideleg (by decide) hmideleg (.inr (by decide))
    · have hno' : j ∉ i :: p := by
        rw [List.mem_cons, not_or]
        exact ⟨Ne.symm hij, hno⟩
      have htp : j ≠ .tp := by
        rintro rfl
        exact hno' (tp_mem hsuffix)
      exact ((hdone j hj hno' hor).local htp hmem).exec hij
  · rw [hcount] at hpos
    obtain ⟨hmie, hmpp, hmepc⟩ := hhit hpos
    obtain ⟨rfl, rfl⟩ : i = .tp ∧ p = [] := by
      rcases rest_cases hsuffix hmie with hr | hr
      · exact List.cons.inj hr
      · cases hr
    exact ⟨List.not_mem_nil, hmpp, hmepc⟩
  · rw [hcount] at hzero
    by_cases hcmp : i = .mtimecmp
    · rw [hcmp]
      exact ⟨b.mtime, hmono, Nat.le_refl _, load_store _ _ _⟩
    · have hno' : .mtimecmp ∉ i :: p := by
        rw [List.mem_cons, not_or]
        exact ⟨Ne.symm hcmp, hno⟩
      obtain ⟨t, ht, ht', heq⟩ := htimed hzero hno'
      refine ⟨t, ht, ?_, ?_⟩
      · show t ≤ (i.exec A { b with reg, mem }).mtime
        rw [Stmt.exec_mtime]
        exact ht'
      · rw [← heq]
        refine (Stmt.exec_mtimecmp hcmp _).trans ?_
        exact load_frame fun x hx => hmem x (.inr hx)
  · rw [hcount] at hpos
    have hsame : (i.exec A { b with reg, mem }).mtime = b.mtime := Stmt.exec_mtime i _
    show b₀.mtime + 1000000 ≤ (i.exec A { b with reg, mem }).mtime
    rw [hsame]
    apply hlate hpos
    rw [← hsame]
    exact hlt

theorem Inv.interrupt {b₀ : Boot} {past : List Event} (hi : Inv A b₀ past b) (he : b.Enabled A) :
    Inv A b₀ (.interrupt :: past) (b.interrupt A) := by
  have hmie := hi.enabled he
  have ha := hi.armed hmie
  have hcount : (Event.interrupt :: past).count .interrupt = past.count .interrupt + 1 := List.count_cons_self
  have hcmp : .mtimecmp ∉ b.rest ∧ b.rest.length < 2 := by
    rcases rest_cases hi.suffix hmie with hr | hr <;> rw [hr] <;> decide
  refine ⟨hi.suffix, hi.mode, fun hin => absurd hin hmie, fun i hi₁ hi₂ hor => ?_, fun _ => ⟨hmie, mpp_mret _, _, hcmp.2, rfl⟩,
    hi.mono, fun hzero => ?_, fun _ hlt => ?_⟩
  · rcases hor with hzero | ⟨hne, hne'⟩
    · rw [hcount] at hzero
      cases hzero
    · exact (hi.done i hi₁ hi₂ (.inr ⟨hne, hne'⟩)).interrupt ha hne hne'
  · rw [hcount] at hzero
    cases hzero
  · have hlt : b.mtime + 1000000 < 2 ^ 64 := hlt
    rcases Nat.eq_zero_or_pos (past.count .interrupt) with hzero | hpos
    · obtain ⟨t, ht, ht', heq⟩ := hi.timed hzero hcmp.1
      have hdue := he.due
      have hint : A.timer.interval.toNat = 1000000 := rfl
      rw [heq, BitVec.toNat_add, BitVec.toNat_ofNat, hint] at hdue
      show b₀.mtime + 1000000 ≤ b.mtime
      omega
    · exact hi.late hpos hlt

theorem Inv.step {b₀ : Boot} {past : List Event} {e : Event} (hi : Inv A b₀ past b) (hst : Step A b e b') :
    Inv A b₀ (e :: past) b' := by
  cases hst with
  | stmt hr hmem => exact hi.stmt hr hmem
  | interrupt he => exact hi.interrupt he
  | clock hle =>
      have hcount : (Event.clock :: past).count .interrupt = past.count .interrupt := List.count_cons_of_ne (by simp)
      obtain ⟨hsuffix, hmode, hoff, hdone, hhit, hmono, htimed, hlate⟩ := hi
      refine ⟨hsuffix, hmode, hoff, ?_, ?_, hmono.trans hle, ?_, ?_⟩
      · rw [hcount]
        intro i hi₁ hi₂ hor
        have h := hdone i hi₁ hi₂ hor
        cases i <;> exact h
      · rw [hcount]
        exact hhit
      · rw [hcount]
        intro hzero hno
        obtain ⟨t, ht, ht', heq⟩ := htimed hzero hno
        exact ⟨t, ht, ht'.trans hle, heq⟩
      · rw [hcount]
        intro hpos hlt
        exact (hlate hpos (Nat.lt_of_le_of_lt (Nat.add_le_add_right hle _) hlt)).trans hle

/-- The hart, with what it has besides. -/
def Boot.hart {σ : Type} (b : Boot) (other : σ) : Timer.Hart σ where
  toCpu := b.toCpu
  pc := b.pc
  mode := b.mode
  other := other
  mstatus := ⟨Start.mie b.mstatus, b.mstatus.getLsbD 7, mpp b.mstatus⟩
  mepc := b.mepc
  mtie := b.mie.getLsbD 7
  mtime := b.mtime
  taken := false
  rest := none

/-- Where the `mret` of `start` leads, and with what. -/
structure Started (A : Addresses) (b : Boot) (es : List Event) (b' : Boot) : Prop where
  main : b'.mret.mode = .supervisor ∧ b'.mret.pc = A.startMain ↔ es.count .interrupt = 0
  /-- Else it leads back into `start`, in user mode. -/
  back : 0 < es.count .interrupt → b'.mret.mode = .user ∧ ∃ n < 2, b'.mret.pc = A.code n
  /-- No interrupt comes before one interval has passed. -/
  early : b'.mtime < b.mtime + 1000000 → b'.mtime + 1000000 < 2 ^ 64 → es.count .interrupt = 0
  done : ∀ i ∈ start, i ∉ [.mpp, .mepc, .mie] → i.Done A b'.mret
  ready : ∀ (σ : Type) (other : σ), Timer.Ready A.timer (b'.mret.hart other)

theorem Inv.started {b₀ : Boot} {es : List Event} (hi : Inv A b₀ es b) (hr : b.rest = []) : Started A b₀ es b := by
  have hnotin (i : Stmt) : i ∉ b.rest := by
    rw [hr]
    exact List.not_mem_nil
  have hback : 0 < es.count .interrupt → b.mret.mode = .user ∧ ∃ n < 2, b.mret.pc = A.code n := fun hpos =>
    (hi.hit hpos).2
  have hmain : es.count .interrupt = 0 → b.mret.mode = .supervisor ∧ b.mret.pc = A.startMain := fun hzero =>
    ⟨hi.done .mpp (by decide) (hnotin _) (.inl hzero), hi.done .mepc (by decide) (hnotin _) (.inl hzero)⟩
  have hlower : b.mret.mode ≠ .machine := by
    rcases Nat.eq_zero_or_pos (es.count .interrupt) with hzero | hpos
    · rw [(hmain hzero).1]
      simp
    · rw [(hback hpos).1]
      simp
  refine ⟨⟨fun h => ?_, hmain⟩, hback, fun hearly hlt => ?_, fun i hmem hi₃ => ?_, fun σ other => ?_⟩
  · by_contra hne
    obtain ⟨hmode, -⟩ := hback (Nat.pos_of_ne_zero hne)
    rw [h.1] at hmode
    cases hmode
  · by_contra hne
    have hlate := hi.late (Nat.pos_of_ne_zero hne) hlt
    omega
  · simp only [List.mem_cons, List.not_mem_nil, or_false, not_or] at hi₃
    obtain ⟨hmpp, hmepc, hmie⟩ := hi₃
    have h := hi.done i hmem (hnotin _) (.inr ⟨hmpp, hmepc⟩)
    cases i with
    | mpp => exact absurd rfl hmpp
    | mie => exact absurd rfl hmie
    | _ => exact h
  · exact ⟨hi.armed (hnotin _), hlower, rfl⟩

/-- **`start` reaches `start_main` in supervisor mode exactly when no timer interrupt comes between the end of `timerinit`
and the `mret`**, with the handler armed and everything else set up. -/
theorem start_reaches {es : List Event} (h : Reset b) (htr : Trace (Step A) b es b') (hr : b'.rest = []) :
    Started A b es b' := by
  have hi := htr.history (Inv A b) (fun _ _ _ _ hi hst => hi.step hst) (Inv.start h)
  have hs := hi.started hr
  rw [List.append_nil] at hs
  obtain ⟨hmain, hback, hearly, hdone, hready⟩ := hs
  rw [List.count_reverse] at hmain hback hearly
  exact ⟨hmain, hback, hearly, hdone, hready⟩

/-- One statement after the other. -/
theorem exists_trace (A : Addresses) : ∀ (p : List Stmt) (b : Boot), b.rest = p →
    ∃ b', Trace (Step A) b (p.map .stmt) b' ∧ b'.rest = []
  | [], b, hr => ⟨b, .nil, hr⟩
  | i :: p, b, hr => by
      have hst : Step A b (.stmt i) { i.exec A { b with reg := b.reg, mem := b.mem } with rest := p } := .stmt hr fun _ _ => rfl
      obtain ⟨b', htr, hr'⟩ := exists_trace A p { i.exec A { b with reg := b.reg, mem := b.mem } with rest := p } rfl
      exact ⟨b', .cons hst htr, hr'⟩

end

theorem sample_main : ∀ n < 2, (0x80000100 : Word) - 4 * BitVec.ofNat 64 n ≠ 0x80001000 := by decide

theorem sample_apart (x : Word) (h : Area (0x80010000 + BitVec.ofNat 64 (Timer.scratchSize * 0)) Timer.scratchSize x) :
    ¬ Area (CLINT_MTIMECMP 0) 8 x := by
  have hscratch : (0x80010000 : Word) + BitVec.ofNat 64 (Timer.scratchSize * 0) = BitVec.ofNat 64 0x80010000 := by decide
  have hcmp : CLINT_MTIMECMP 0 = BitVec.ofNat 64 0x2004000 := by decide
  intro h'
  rw [hscratch] at h
  rw [hcmp] at h'
  simp only [Area, Timer.scratchSize, BitVec.toNat_sub, BitVec.toNat_ofNat] at h h'
  omega

theorem ncpu_pos : 0 < NCPU := Nat.one_pos

def sampleAddresses : Addresses where
  hartid := 0
  startMain := 0x80001000
  timervec := 0x80002000
  timerScratch := 0x80010000
  code n := 0x80000100 - 4 * BitVec.ofNat 64 n
  hart := ncpu_pos
  main := sample_main
  apart := sample_apart

def sampleBoot : Boot where
  reg _ := 0
  csr _ := 0
  mem _ := 0
  pc := 0x80000000
  mode := .machine
  mstatus := 0
  mepc := 0
  medeleg := 0
  mideleg := 0
  mie := 0
  pmpaddr0 := 0
  pmpcfg0 := 0
  satp := 0
  mtvec := 0
  mtime := 0
  rest := start

/-- With no interrupt, `start_main` is reached. -/
theorem start_reaches_sample : ∃ b', b'.mret.mode = .supervisor ∧ b'.mret.pc = 0x80001000 ∧
    Started sampleAddresses sampleBoot (start.map .stmt) b' := by
  obtain ⟨b', htr, hr⟩ := exists_trace sampleAddresses start sampleBoot rfl
  have hs := start_reaches ⟨rfl, by decide, rfl⟩ htr hr
  obtain ⟨hmode, hpc⟩ := hs.main.2 (by decide)
  exact ⟨b', hmode, hpc, hs⟩

end RiscvOsLab.Trap.Start
