import RiscvOsLab.Lib.Trans
import RiscvOsLab.Trap.Entry

/-!
# The timer interrupt (`timervec` of `kernel/trap/kernelvec.S`)

The machine-mode handler may come between any two instructions of the kernel and of user programs.

* `timervec_run` : what the handler leaves;
* `Hart`, `Step` : a hart that executes other code, or takes the interrupt, or an instruction of the handler;
* `finish` : the hart at the end of the handler it is in;
* `timer_transparent` : to other code the interrupt is nothing but a bit of `sip` that is set.
-/

namespace RiscvOsLab.Trap.Timer

open Function Riscv

inductive Csr where
  | mscratch
  | sip
  deriving DecidableEq

inductive Instr where
  | base (i : Riscv.Instr Reg Csr)
  | add (rd rs rs' : Reg)
  | li (rd : Reg) (imm : Word)

def Instr.exec (c : Cpu Reg Csr) : Instr → Cpu Reg Csr
  | .base i => i.exec c
  | .add rd rs rs' => { c with reg := update c.reg rd (c.reg rs + c.reg rs') }
  | .li rd imm => { c with reg := update c.reg rd imm }

def exec (p : List Instr) (c : Cpu Reg Csr) : Cpu Reg Csr := p.foldl Instr.exec c

/-- Up to the `mret`. -/
def timervec : List Instr := [
  .base (.csrrw .a0 .mscratch .a0),
  .base (.sd .a1 8 .a0),
  .base (.sd .a2 16 .a0),
  .base (.ld .a1 24 .a0),
  .base (.ld .a2 32 .a0),
  .base (.ld .a1 0 .a1),
  .add .a1 .a1 .a2,
  .base (.ld .a2 24 .a0),
  .base (.sd .a1 0 .a2),
  .li .a1 2,
  .base (.csrw .sip .a1),
  .base (.ld .a2 16 .a0),
  .base (.ld .a1 8 .a0),
  .base (.csrrw .a0 .mscratch .a0)]

/-- `sizeof(timer_scratch[hartid])`. -/
def scratchSize : Nat := 40

/-- `&timer_scratch[hartid][0]`, `CLINT_MTIMECMP(hartid)` and `interval`. -/
structure Layout where
  scratch : Word
  mtimecmp : Word
  interval : Word
  apart : ∀ x, Area scratch scratchSize x → ¬ Area mtimecmp 8 x

/-- What `timerinit` has stored for the handler. -/
structure Armed (L : Layout) (c : Cpu Reg Csr) : Prop where
  mscratch : c.csr .mscratch = L.scratch
  address : load c.mem (L.scratch + BitVec.ofNat 64 24) = L.mtimecmp
  interval : load c.mem (L.scratch + BitVec.ofNat 64 32) = L.interval

/-- The memory that the handler writes. -/
def Words (L : Layout) (x : Word) : Prop := Area L.scratch scratchSize x ∨ Area L.mtimecmp 8 x

instance (L : Layout) : DecidablePred (Words L) := fun x =>
  inferInstanceAs (Decidable (Area L.scratch scratchSize x ∨ Area L.mtimecmp 8 x))

section
variable {L : Layout} {c : Cpu Reg Csr}

/-- The memory after the handler. -/
def served (L : Layout) (c : Cpu Reg Csr) : Memory :=
  store (store (store c.mem (L.scratch + BitVec.ofNat 64 8) (c.reg .a1)) (L.scratch + BitVec.ofNat 64 16) (c.reg .a2))
    L.mtimecmp (load c.mem L.mtimecmp + L.interval)

/-- A double word of the scratch area is not in `mtimecmp`, nor in another one. -/
theorem load_scratch {o : Nat} (ho : o + 8 ≤ scratchSize) (m : Memory) (v : Word) :
    load (store m L.mtimecmp v) (L.scratch + BitVec.ofNat 64 o) = load m (L.scratch + BitVec.ofNat 64 o) :=
  load_store_out fun _ hx => L.apart _ (hx.offset ho)

theorem load_scratch_other {o o' : Nat} (h : o' + 8 ≤ o ∨ o + 8 ≤ o') (ho : o + 8 ≤ scratchSize) (ho' : o' + 8 ≤ scratchSize)
    (m : Memory) (v : Word) :
    load (store m (L.scratch + BitVec.ofNat 64 o') v) (L.scratch + BitVec.ofNat 64 o) =
      load m (L.scratch + BitVec.ofNat 64 o) := by
  apply load_store_out
  intro x hx
  have hsize : scratchSize ≤ 2 ^ 64 := by decide
  exact hx.apart h.symm (ho.trans hsize) (ho'.trans hsize)

theorem load_mtimecmp {o : Nat} (ho : o + 8 ≤ scratchSize) (m : Memory) (v : Word) :
    load (store m (L.scratch + BitVec.ofNat 64 o) v) L.mtimecmp = load m L.mtimecmp :=
  load_store_out fun _ hx hx' => L.apart _ (hx'.offset ho) hx

/-- **The handler** leaves every register as it was. -/
theorem timervec_run (h : Armed L c) :
    exec timervec c = { c with csr := update c.csr .sip 2, mem := served L c } := by
  obtain ⟨hscratch, haddr, hint⟩ := h
  -- the memory after two stores, and after three
  generalize hm : store (store c.mem (L.scratch + BitVec.ofNat 64 8) (c.reg .a1)) (L.scratch + BitVec.ofNat 64 16)
    (c.reg .a2) = m
  have hkept {o : Nat} (ho : 24 ≤ o) (ho' : o + 8 ≤ scratchSize) :
      load m (L.scratch + BitVec.ofNat 64 o) = load c.mem (L.scratch + BitVec.ofNat 64 o) := by
    rw [← hm, load_scratch_other (.inl ho) ho' (by decide), load_scratch_other (.inl (by omega)) ho' (by decide)]
  have haddr' : load m (L.scratch + 24#64) = L.mtimecmp := (hkept (Nat.le_refl _) (by decide)).trans haddr
  have hint' : load m (L.scratch + 32#64) = L.interval := (hkept (by decide) (by decide)).trans hint
  have hcmp : load m L.mtimecmp = load c.mem L.mtimecmp := by
    rw [← hm, load_mtimecmp (by decide), load_mtimecmp (by decide)]
  have hserved : store m L.mtimecmp (load c.mem L.mtimecmp + L.interval) = served L c := by rw [served, hm]
  have ha1 : load (served L c) (L.scratch + 8#64) = c.reg .a1 := by
    rw [served, load_scratch (by decide), load_scratch_other (.inr (by decide)) (by decide) (by decide), load_store]
  have ha2 : load (served L c) (L.scratch + 16#64) = c.reg .a2 := by
    rw [served, load_scratch (by decide), load_store]
  simp only [exec, timervec, List.foldl_cons, List.foldl_nil, Instr.exec, Riscv.Instr.exec, update_self, update_of_ne,
    ne_eq, reduceCtorEq, not_false_eq_true, hscratch, hm, haddr', hint', BitVec.add_zero, hcmp, hserved, ha1, ha2]
  congr 1
  · funext r
    cases r <;> simp [update_of_ne]
  · funext r
    cases r <;> simp [update_of_ne, hscratch]

/-- The handler is armed for the next interrupt. -/
theorem Armed.served (h : Armed L c) : Armed L { c with csr := update c.csr .sip 2, mem := served L c } := by
  have hkept {o : Nat} (ho : 24 ≤ o) (ho' : o + 8 ≤ scratchSize) :
      load (Timer.served L c) (L.scratch + BitVec.ofNat 64 o) = load c.mem (L.scratch + BitVec.ofNat 64 o) := by
    rw [Timer.served, load_scratch ho', load_scratch_other (.inl ho) ho' (by decide),
      load_scratch_other (.inl (by omega)) ho' (by decide)]
  refine ⟨?_, ?_, ?_⟩
  · show update c.csr .sip 2 .mscratch = _
    rw [update_of_ne (by simp), h.mscratch]
  · exact (hkept (Nat.le_refl _) (by decide)).trans h.address
  · exact (hkept (by decide) (by decide)).trans h.interval

theorem load_served (L : Layout) (c : Cpu Reg Csr) : load (served L c) L.mtimecmp = load c.mem L.mtimecmp + L.interval :=
  load_store _ _ _

theorem served_out {x : Word} (hx : ¬ Words L x) : served L c x = c.mem x := by
  have hoff {o : Nat} (ho : o + 8 ≤ scratchSize) : ¬ Area (L.scratch + BitVec.ofNat 64 o) 8 x := fun h =>
    hx (.inl (h.offset ho))
  rw [served, store_out fun h => hx (.inr h), store_out (hoff (by decide)), store_out (hoff (by decide))]

end

/-! ## A hart -/

inductive Mode where
  | user
  | supervisor
  | machine
  deriving DecidableEq

structure Mstatus where
  mie : Bool
  mpie : Bool
  mpp : Mode

/-- The hart; `σ` is what the lower modes have besides. -/
structure Hart (σ : Type) extends Cpu Reg Csr where
  pc : Word
  mode : Mode
  other : σ
  mstatus : Mstatus
  mepc : Word
  /-- `mie.MTIE`. -/
  mtie : Bool
  mtime : Nat
  /-- A software interrupt was taken, and `sip` not yet cleared. -/
  taken : Bool
  /-- What is left of the handler, in place of the pc. -/
  rest : Option (List Instr)

/-- What code in the lower modes sees. -/
structure View (L : Layout) (σ : Type) where
  reg : Reg → Word
  pc : Word
  mode : Mode
  mem : { x // ¬ Words L x } → UInt8
  other : σ

/-- What such code does. -/
inductive Act where
  | instr
  /-- The trap for a software interrupt. -/
  | take
  /-- `w_sip(r_sip() & ~2)`. -/
  | clear
  deriving DecidableEq

/-- Interrupts are off between the trap and the write. -/
def Act.Allowed : Act → Bool → Bool → Prop
  | .instr, _, _ => True
  | .take, pending, taken => pending = true ∧ taken = false
  | .clear, _, taken => taken = true

def Act.taken : Act → Bool → Bool
  | .instr, b => b
  | .take, _ => true
  | .clear, _ => false

def Act.sip : Act → Word → Word
  | .clear, x => x &&& ~~~2
  | _, x => x

def Act.pending : Act → Bool → Bool
  | .clear, _ => false
  | _, b => b

/-- `SSIP`. -/
def pendingBit (x : Word) : Bool := decide (x &&& 2 ≠ 0)

theorem pendingBit_sip (a : Act) (x : Word) : pendingBit (a.sip x) = a.pending (pendingBit x) := by
  cases a with
  | clear =>
      have hzero : x &&& ~~~2 &&& 2 = 0 := by
        rw [BitVec.and_assoc]
        simp
      show decide _ = false
      rw [decide_eq_false_iff_not, not_not]
      exact hzero
  | instr => rfl
  | take => rfl

section
variable {σ : Type} (L : Layout)

namespace Hart

def mtimecmp (h : Hart σ) : Word := load h.mem L.mtimecmp

def pending (h : Hart σ) : Bool := pendingBit (h.csr .sip)

/-- `mip.MTIP` and what enables it. -/
structure Enabled (h : Hart σ) : Prop where
  mie : h.mode ≠ .machine ∨ h.mstatus.mie = true
  mtie : h.mtie = true
  due : (h.mtimecmp L).toNat ≤ h.mtime

def interrupt (h : Hart σ) : Hart σ :=
  { h with mepc := h.pc, mstatus := ⟨false, h.mstatus.mie, h.mode⟩, mode := .machine, rest := some timervec }

def mret (h : Hart σ) : Hart σ :=
  { h with pc := h.mepc, mode := h.mstatus.mpp, mstatus := ⟨h.mstatus.mpie, true, .user⟩, rest := none }

/-- The hart at the end of the handler, if it is in it. -/
def finish (h : Hart σ) : Hart σ :=
  match h.rest with
  | none => h
  | some p => { h with toCpu := exec p h.toCpu }.mret

def view (h : Hart σ) : View L σ := ⟨h.reg, h.pc, h.mode, fun x => h.mem x.1, h.other⟩

/-- After an act of other code. -/
def resume (h : Hart σ) (a : Act) (v : View L σ) : Hart σ :=
  { h with
    reg := v.reg
    csr := update h.csr .sip (a.sip (h.csr .sip))
    mem := fun x => if hx : Words L x then h.mem x else v.mem ⟨x, hx⟩
    pc := v.pc
    mode := v.mode
    other := v.other
    taken := a.taken h.taken }

end Hart

inductive Event where
  | act (a : Act)
  | interrupt
  | instr
  | mret
  | clock
  deriving DecidableEq

variable (code : View L σ → Act → View L σ → Prop)

inductive Step (h : Hart σ) : Event → Hart σ → Prop
  | act {a : Act} {v : View L σ} : h.rest = none → h.mode ≠ .machine → a.Allowed h.pending h.taken →
      code (h.view L) a v → v.mode ≠ .machine → Step h (.act a) (h.resume L a v)
  | interrupt : h.Enabled L → Step h .interrupt h.interrupt
  | instr {i : Instr} {p : List Instr} : h.rest = some (i :: p) →
      Step h .instr { h with toCpu := i.exec h.toCpu, rest := some p }
  | mret : h.rest = some [] → Step h .mret h.mret
  | clock {n : Nat} : h.mtime ≤ n → Step h .clock { h with mtime := n }

/-! ## Without the handler -/

/-- The same machine, as other code sees it. -/
structure Seen (L : Layout) (σ : Type) where
  view : View L σ
  pending : Bool
  taken : Bool

inductive SeenEvent where
  | act (a : Act)
  /-- Somebody sets the bit of `sip`. -/
  | post
  deriving DecidableEq

inductive SeenStep (s : Seen L σ) : SeenEvent → Seen L σ → Prop
  | act {a : Act} {v : View L σ} : s.view.mode ≠ .machine → a.Allowed s.pending s.taken → code s.view a v →
      v.mode ≠ .machine → SeenStep s (.act a) ⟨v, a.pending s.pending, a.taken s.taken⟩
  | post : SeenStep s .post { s with pending := true }

/-- What is seen of an event. -/
def Event.seen : Event → Option SeenEvent
  | .act a => some (.act a)
  | .interrupt => some .post
  | _ => none

def Hart.seen (h : Hart σ) : Seen L σ := ⟨h.finish.view L, h.finish.pending, h.finish.taken⟩

/-! ## Runs -/

/-- The hart executes other code, or goes back to it, with everything that `timerinit` has set up. -/
structure Inv (h : Hart σ) : Prop where
  armed : Armed L h.finish.toCpu
  lower : h.finish.mode ≠ .machine
  /-- No interrupt is taken in the handler. -/
  handling : h.rest ≠ none → h.mode = .machine ∧ h.mstatus.mie = false

variable {L} {code} {h h' : Hart σ}

namespace Hart

theorem finish_none (hr : h.rest = none) : h.finish = h := by
  rw [finish, hr]

/-- The handler does one instruction after the other. -/
theorem finish_instr {i : Instr} {p : List Instr} (hr : h.rest = some (i :: p)) :
    ({ h with toCpu := i.exec h.toCpu, rest := some p } : Hart σ).finish = h.finish := by
  unfold finish
  rw [hr]
  rfl

theorem finish_mret (hr : h.rest = some []) : h.mret.finish = h.finish := by
  rw [finish_none rfl, finish, hr]
  rfl

/-- The whole handler: the hart goes on where it was. -/
theorem finish_interrupt (ha : Armed L h.toCpu) : h.interrupt.finish =
    { h with
      csr := update h.csr .sip 2
      mem := served L h.toCpu
      mepc := h.pc
      mstatus := ⟨h.mstatus.mie, true, .user⟩
      rest := none } := by
  have hrun := timervec_run ha
  show ({ h.interrupt with toCpu := exec timervec h.toCpu } : Hart σ).mret = _
  rw [hrun]
  rfl

theorem finish_clock (n : Nat) : ({ h with mtime := n } : Hart σ).finish = { h.finish with mtime := n } := by
  obtain ⟨c, pc, mode, other, mstatus, mepc, mtie, mtime, taken, rest⟩ := h
  cases rest with
  | none => rfl
  | some p => rfl

theorem view_resume (a : Act) (v : View L σ) : (h.resume L a v).view L = v := by
  have hmem : (fun x : { x // ¬ Words L x } => (h.resume L a v).mem x.1) = v.mem := by
    funext x
    exact dif_neg x.2
  rw [view, hmem]
  rfl

theorem pending_resume (a : Act) (v : View L σ) : (h.resume L a v).pending = a.pending h.pending := by
  show pendingBit (update h.csr .sip (a.sip (h.csr .sip)) .sip) = _
  rw [update_self, pendingBit_sip]
  rfl

/-- Other code does not touch what the handler uses. -/
theorem resume_words (a : Act) (v : View L σ) {x : Word} (hx : Words L x) : (h.resume L a v).mem x = h.mem x := dif_pos hx

theorem mtimecmp_resume (a : Act) (v : View L σ) : (h.resume L a v).mtimecmp L = h.mtimecmp L :=
  load_frame fun _ hx => resume_words a v (.inr hx)

theorem armed_resume (ha : Armed L h.toCpu) (a : Act) (v : View L σ) : Armed L (h.resume L a v).toCpu := by
  have hload {o : Nat} (ho : o + 8 ≤ scratchSize) : load (h.resume L a v).mem (L.scratch + BitVec.ofNat 64 o) =
      load h.mem (L.scratch + BitVec.ofNat 64 o) := load_frame fun _ hx => resume_words a v (.inl (hx.offset ho))
  refine ⟨?_, (hload (by decide)).trans ha.address, (hload (by decide)).trans ha.interval⟩
  show update h.csr .sip (a.sip (h.csr .sip)) .mscratch = _
  rw [update_of_ne (by simp), ha.mscratch]

end Hart

theorem Inv.rest_none (hi : Inv L h) (he : h.Enabled L) : h.rest = none := by
  by_contra hr
  obtain ⟨hmode, hmie⟩ := hi.handling hr
  rcases he.mie with hno | hno
  · exact hno hmode
  · rw [hmie] at hno
    cases hno

theorem Inv.interrupt (hi : Inv L h) (he : h.Enabled L) : Inv L h.interrupt := by
  have hr := hi.rest_none he
  have ha := hi.armed
  have hlower := hi.lower
  rw [Hart.finish_none hr] at ha hlower
  refine ⟨?_, ?_, fun _ => ⟨rfl, rfl⟩⟩
  · rw [Hart.finish_interrupt ha]
    exact ha.served
  · rw [Hart.finish_interrupt ha]
    exact hlower

theorem Inv.step {e : Event} (hi : Inv L h) (hst : Step L code h e h') : Inv L h' := by
  cases hst with
  | @act a v hr hmode _ _ hv =>
      have ha := hi.armed
      rw [Hart.finish_none hr] at ha
      have hr' : (h.resume L a v).rest = none := hr
      refine ⟨?_, ?_, fun hne => absurd hr' hne⟩
      · rw [Hart.finish_none hr']
        exact Hart.armed_resume ha a v
      · rw [Hart.finish_none hr']
        exact hv
  | interrupt he => exact hi.interrupt he
  | instr hr =>
      refine ⟨?_, ?_, fun _ => hi.handling (by rw [hr]; simp)⟩
      · rw [Hart.finish_instr hr]
        exact hi.armed
      · rw [Hart.finish_instr hr]
        exact hi.lower
  | mret hr =>
      refine ⟨?_, ?_, fun hne => absurd rfl hne⟩
      · rw [Hart.finish_mret hr]
        exact hi.armed
      · rw [Hart.finish_mret hr]
        exact hi.lower
  | clock =>
      refine ⟨?_, ?_, hi.handling⟩
      · rw [Hart.finish_clock]
        exact hi.armed
      · rw [Hart.finish_clock]
        exact hi.lower

/-- Of the interrupt, one event is seen; of the instructions of the handler, none. -/
theorem Inv.seen {e : Event} (hi : Inv L h) (hst : Step L code h e h') :
    e.seen.elim (h'.seen L = h.seen L) fun e' => SeenStep L code (h.seen L) e' (h'.seen L) := by
  cases hst with
  | @act a v hr hmode hallowed hcode hv =>
      have hr' : (h.resume L a v).rest = none := hr
      show SeenStep L code _ (.act a) _
      unfold Hart.seen
      rw [Hart.finish_none hr, Hart.finish_none hr', Hart.view_resume, Hart.pending_resume]
      exact .act hmode hallowed hcode hv
  | interrupt he =>
      have hr := hi.rest_none he
      have ha := hi.armed
      rw [Hart.finish_none hr] at ha
      have hview : h.interrupt.finish.view L = h.view L := by
        rw [Hart.finish_interrupt ha]
        unfold Hart.view
        congr 1
        funext x
        exact served_out x.2
      have hpending : h.interrupt.finish.pending = true := by
        rw [Hart.finish_interrupt ha]
        show pendingBit (update h.csr .sip 2 .sip) = true
        rw [update_self]
        decide
      have htaken : h.interrupt.finish.taken = h.taken := by rw [Hart.finish_interrupt ha]
      show SeenStep L code _ .post _
      unfold Hart.seen
      rw [hview, hpending, htaken, Hart.finish_none hr]
      exact .post
  | instr hr =>
      show Hart.seen L _ = Hart.seen L _
      unfold Hart.seen
      rw [Hart.finish_instr hr]
  | mret hr =>
      show Hart.seen L _ = Hart.seen L _
      unfold Hart.seen
      rw [Hart.finish_mret hr]
  | clock =>
      show Hart.seen L _ = Hart.seen L _
      unfold Hart.seen
      rw [Hart.finish_clock]
      rfl

/-- A software interrupt that was not answered yet. -/
def Hart.owed (h : Hart σ) : Nat := (h.pending || h.taken).toNat

/-- The clock after some interrupts. -/
structure Clocked (L : Layout) (h : Hart σ) (past : List Event) (h' : Hart σ) : Prop where
  schedule : h'.finish.mtimecmp L = h.mtimecmp L + BitVec.ofNat 64 (past.count .interrupt) * L.interval
  exact : h'.mtime + L.interval.toNat < 2 ^ 64 →
    (h'.finish.mtimecmp L).toNat = (h.mtimecmp L).toNat + past.count .interrupt * L.interval.toNat
  rate : h'.mtime + L.interval.toNat < 2 ^ 64 → 0 < past.count .interrupt →
    (h'.finish.mtimecmp L).toNat ≤ h'.mtime + L.interval.toNat
  ticks : past.count (.act .clear) + h'.finish.owed ≤ past.count .interrupt + h.owed

/-- Nothing has happened to the clock. -/
theorem Clocked.same {g : Hart σ} {past : List Event} {e : Event} (hc : Clocked L h past h') (he : e ≠ .interrupt)
    (he' : e ≠ .act .clear) (hcmp : g.finish.mtimecmp L = h'.finish.mtimecmp L) (htime : h'.mtime ≤ g.mtime)
    (howed : g.finish.owed = h'.finish.owed) : Clocked L h (e :: past) g := by
  have hcount : (e :: past).count .interrupt = past.count .interrupt := List.count_cons_of_ne he
  have hclear : (e :: past).count (.act .clear) = past.count (.act .clear) := List.count_cons_of_ne he'
  refine ⟨?_, fun hlt => ?_, fun hlt hpos => ?_, ?_⟩
  · rw [hcmp, hcount]
    exact hc.schedule
  · rw [hcmp, hcount]
    exact hc.exact (by omega)
  · rw [hcount] at hpos
    rw [hcmp]
    exact (hc.rate (by omega) hpos).trans (by omega)
  · rw [hcount, hclear, howed]
    exact hc.ticks

theorem Clocked.interrupt {past : List Event} (hc : Clocked L h past h') (hi : Inv L h') (he : h'.Enabled L) :
    Clocked L h (.interrupt :: past) h'.interrupt := by
  have hr := hi.rest_none he
  have ha := hi.armed
  obtain ⟨hschedule, hexact, -, hticks⟩ := hc
  rw [Hart.finish_none hr] at ha hschedule hexact hticks
  have hcount : (Event.interrupt :: past).count .interrupt = past.count .interrupt + 1 := List.count_cons_self
  have hclear : (Event.interrupt :: past).count (.act .clear) = past.count (.act .clear) :=
    List.count_cons_of_ne (by simp)
  have hcmp : h'.interrupt.finish.mtimecmp L = h'.mtimecmp L + L.interval := by
    rw [Hart.finish_interrupt ha]
    exact load_served L h'.toCpu
  have hone : h'.interrupt.finish.owed ≤ 1 := Bool.toNat_le _
  have hnat (hlt : h'.mtime + L.interval.toNat < 2 ^ 64) :
      (h'.mtimecmp L + L.interval).toNat = (h'.mtimecmp L).toNat + L.interval.toNat := by
    rw [BitVec.toNat_add, Nat.mod_eq_of_lt]
    exact (Nat.add_le_add_right he.due _).trans_lt hlt
  refine ⟨?_, fun hlt => ?_, fun hlt _ => ?_, ?_⟩
  · have hadd : BitVec.ofNat 64 (past.count .interrupt + 1) = BitVec.ofNat 64 (past.count .interrupt) + 1#64 :=
      BitVec.ofNat_add _ _
    rw [hcmp, hcount, hschedule, hadd, BitVec.add_mul, BitVec.one_mul, BitVec.add_assoc]
  · rw [hcmp, hcount, hnat hlt, hexact hlt, Nat.succ_mul, Nat.add_assoc]
  · rw [hcmp, hnat hlt]
    exact Nat.add_le_add_right he.due _
  · rw [hcount, hclear]
    omega

theorem Clocked.act {past : List Event} {a : Act} {v : View L σ} (hc : Clocked L h past h') (hr : h'.rest = none)
    (hallowed : a.Allowed h'.pending h'.taken) : Clocked L h (.act a :: past) (h'.resume L a v) := by
  have hr' : (h'.resume L a v).rest = none := hr
  have hcmp : (h'.resume L a v).finish.mtimecmp L = h'.finish.mtimecmp L := by
    rw [Hart.finish_none hr, Hart.finish_none hr', Hart.mtimecmp_resume]
  have howed : (h'.resume L a v).finish.owed = (a.pending h'.pending || a.taken h'.taken).toNat := by
    rw [Hart.finish_none hr', Hart.owed, Hart.pending_resume]
    rfl
  have howed' : h'.finish.owed = (h'.pending || h'.taken).toNat := by rw [Hart.finish_none hr, Hart.owed]
  cases a with
  | instr => exact hc.same (by simp) (by simp) hcmp (Nat.le_refl _) (howed.trans howed'.symm)
  | take =>
      obtain ⟨hpending, -⟩ := hallowed
      refine hc.same (by simp) (by simp) hcmp (Nat.le_refl _) ?_
      rw [howed, howed', hpending]
      rfl
  | clear =>
      have htaken : h'.taken = true := hallowed
      have hcount : (Event.act .clear :: past).count .interrupt = past.count .interrupt := List.count_cons_of_ne (by simp)
      have hclear : (Event.act .clear :: past).count (.act .clear) = past.count (.act .clear) + 1 := List.count_cons_self
      obtain ⟨hschedule, hexact, hrate, hticks⟩ := hc
      refine ⟨?_, ?_, ?_, ?_⟩
      · rw [hcmp, hcount]
        exact hschedule
      · rw [hcmp, hcount]
        exact hexact
      · rw [hcmp, hcount]
        exact hrate
      · rw [howed', htaken, Bool.or_true, Bool.toNat_true] at hticks
        rw [howed, hcount, hclear]
        exact hticks

theorem Clocked.step {past : List Event} {e : Event} {g : Hart σ} (hc : Clocked L h past h') (hi : Inv L h')
    (hst : Step L code h' e g) : Clocked L h (e :: past) g := by
  cases hst with
  | act hr _ hallowed => exact hc.act hr hallowed
  | interrupt he => exact hc.interrupt hi he
  | instr hr =>
      have hsame := Hart.finish_instr hr
      exact hc.same (by simp) (by simp) (by rw [hsame]) (Nat.le_refl _) (by rw [hsame])
  | mret hr =>
      have hsame := Hart.finish_mret hr
      exact hc.same (by simp) (by simp) (by rw [hsame]) (Nat.le_refl _) (by rw [hsame])
  | clock hle => exact hc.same (by simp) (by simp) (by rw [Hart.finish_clock]; rfl) hle (by rw [Hart.finish_clock]; rfl)

/-- A hart that executes other code, with the handler armed. -/
structure Ready (L : Layout) (h : Hart σ) : Prop where
  armed : Armed L h.toCpu
  lower : h.mode ≠ .machine
  rest : h.rest = none

/-- What the interrupts of a run do. -/
structure Transparent (L : Layout) (code : View L σ → Act → View L σ → Prop) (h : Hart σ) (es : List Event) (h' : Hart σ) :
    Prop where
  /-- Other code runs as if only the bit of `sip` were set from time to time. -/
  refines : Trace (SeenStep L code) (h.seen L) (es.filterMap Event.seen) (h'.seen L)
  /-- The handler is not interrupted. -/
  apart : h'.rest ≠ none → ¬ h'.Enabled L
  /-- The interrupts are due one interval after the other, however late they are taken. -/
  schedule : h'.finish.mtimecmp L = h.mtimecmp L + BitVec.ofNat 64 (es.count .interrupt) * L.interval
  /-- There are not more of them than intervals have passed. -/
  rate : h'.mtime + L.interval.toNat < 2 ^ 64 → 0 < es.count .interrupt →
    (h.mtimecmp L).toNat + es.count .interrupt * L.interval.toNat ≤ h'.mtime + L.interval.toNat
  /-- Each tick of the kernel is one of them. -/
  ticks : es.count (.act .clear) ≤ es.count .interrupt + h.owed

/-- **`timervec` is transparent** to all code of the lower modes, between whichever of its instructions it comes. -/
theorem timer_transparent {es : List Event} (hready : Ready L h) (htr : Trace (Step L code) h es h') :
    Transparent L code h es h' := by
  obtain ⟨ha, hlower, hr⟩ := hready
  have hfinish := Hart.finish_none hr
  have hi : Inv L h := ⟨by rw [hfinish]; exact ha, by rw [hfinish]; exact hlower, fun hne => absurd hr hne⟩
  obtain ⟨hi', hrefines⟩ := htr.refine (Hart.seen L) Event.seen (Inv L) (fun _ _ _ hi hst => ⟨hi.step hst, hi.seen hst⟩) hi
  have hstart : Inv L h ∧ Clocked L h [] h := by
    refine ⟨hi, ?_, fun _ => ?_, fun _ hpos => absurd hpos (by simp), ?_⟩
    · rw [hfinish]
      simp
    · rw [hfinish]
      simp
    · rw [hfinish]
      simp
  obtain ⟨-, hschedule, hexact, hrate, hticks⟩ := htr.history (fun past g => Inv L g ∧ Clocked L h past g)
    (fun past _ e _ hg hst => ⟨hg.1.step hst, hg.2.step hg.1 hst⟩) hstart
  simp only [List.append_nil, List.count_reverse] at hschedule hexact hrate hticks
  refine ⟨hrefines, fun hne he => hne (hi'.rest_none he), hschedule, fun hlt hpos => ?_, Nat.le_of_add_right_le hticks⟩
  rw [← hexact hlt]
  exact hrate hlt hpos

/-- The handler runs to its end. -/
theorem trace_finish : ∀ (p : List Instr) (h : Hart σ), h.rest = some p →
    Trace (Step L code) h (List.replicate p.length .instr ++ [.mret]) h.finish
  | [], h, hr => by
      have hst : Step L code h .mret h.mret := .mret hr
      rw [← Hart.finish_mret hr]
      exact .cons hst .nil
  | i :: p, h, hr => by
      have hst : Step L code h .instr { h with toCpu := i.exec h.toCpu, rest := some p } := .instr hr
      have htr := trace_finish p { h with toCpu := i.exec h.toCpu, rest := some p } rfl
      rw [Hart.finish_instr hr] at htr
      exact .cons hst htr

end

def sampleLayout : Layout where
  scratch := 0x80010000
  mtimecmp := 0x2004000
  interval := 1000000
  apart := by
    intro x h h'
    have hscratch : (0x80010000 : Word) = BitVec.ofNat 64 0x80010000 := rfl
    have hcmp : (0x2004000 : Word) = BitVec.ofNat 64 0x2004000 := rfl
    rw [hscratch] at h
    rw [hcmp] at h'
    simp only [Area, scratchSize, BitVec.toNat_sub, BitVec.toNat_ofNat] at h h'
    omega

/-- A user program, with the first interrupt due. -/
def sampleHart : Hart Unit where
  reg _ := 7
  csr _ := 0x80010000
  mem := store (store (fun _ => 0) (0x80010000 + BitVec.ofNat 64 24) 0x2004000) (0x80010000 + BitVec.ofNat 64 32) 1000000
  pc := 0x80020000
  mode := .user
  other := ()
  mstatus := ⟨true, true, .user⟩
  mepc := 0
  mtie := true
  mtime := 0
  taken := false
  rest := none

/-- A program of one instruction that jumps to itself. -/
def sampleCode (v : View sampleLayout Unit) (a : Act) (v' : View sampleLayout Unit) : Prop := a = .instr ∧ v' = v

/-- The interrupt comes, and the program goes on. -/
theorem timer_transparent_once : ∃ es h', es.count .interrupt = 1 ∧ es.getLast? = some (.act .instr) ∧
    Transparent sampleLayout sampleCode sampleHart es h' := by
  have hother : load sampleHart.mem (0x80010000 + BitVec.ofNat 64 24) = 0x2004000 :=
    (load_scratch_other (L := sampleLayout) (.inr (by decide)) (by decide) (by decide) _ _).trans (load_store _ _ _)
  have harmed : Armed sampleLayout sampleHart.toCpu := ⟨rfl, hother, load_store _ _ _⟩
  have hdue : (sampleHart.mtimecmp sampleLayout).toNat ≤ 0 := by decide +kernel
  have hst : Step sampleLayout sampleCode sampleHart .interrupt sampleHart.interrupt := .interrupt ⟨.inl (by decide), rfl, hdue⟩
  have htr : Trace (Step sampleLayout sampleCode) sampleHart.interrupt _ _ := trace_finish timervec _ rfl
  have hback := Hart.finish_interrupt harmed
  generalize sampleHart.interrupt.finish = h at htr hback
  have hmode : h.mode ≠ .machine := by
    rw [hback]
    decide
  have hnext : Step sampleLayout sampleCode h (.act .instr) (h.resume sampleLayout .instr (h.view sampleLayout)) := by
    refine .act ?_ hmode trivial ⟨rfl, rfl⟩ hmode
    rw [hback]
  have hall := Trace.cons hst (htr.append (.cons hnext .nil))
  exact ⟨_, _, by decide, by decide, timer_transparent ⟨harmed, by decide, rfl⟩ hall⟩

end RiscvOsLab.Trap.Timer
