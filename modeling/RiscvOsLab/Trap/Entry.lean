import RiscvOsLab.Lib.Riscv
import Mathlib.Data.Fintype.Basic
import Mathlib.Tactic.FinCases

/-!
# The assembly of traps and switches (`kernel/trap/kernelvec.S`, `kernel/proc/swtch.S`, `kernel/include/proc.h`)

The four sequences as they stand in the source, up to the `call`, the `sret` or the `ret` that ends them, with the
layout of `struct trapframe` and `struct context`, whose members are all double words.

* `userTrapEntry_run` : every register and the pc of the user are in the field of their name;
* `returnToUser_run` : every register and `sepc` come from the field of their name;
* `sysTrapVector_run`, `sysTrapReturn_run` : the same for the 256 bytes below the kernel's `sp`;
* `swtch_saves`, `swtch_loads` : the fields of the old context are written, those of the new one loaded.
-/

namespace RiscvOsLab.Trap

open Function Riscv

/-- `x1` to `x31`. -/
inductive Reg where
  | ra | sp | gp | tp | t0 | t1 | t2 | s0 | s1 | a0 | a1 | a2 | a3 | a4 | a5 | a6 | a7
  | s2 | s3 | s4 | s5 | s6 | s7 | s8 | s9 | s10 | s11 | t3 | t4 | t5 | t6
  deriving DecidableEq

def Reg.all : List Reg := [
  .ra, .sp, .gp, .tp, .t0, .t1, .t2, .s0, .s1, .a0, .a1, .a2, .a3, .a4, .a5, .a6, .a7,
  .s2, .s3, .s4, .s5, .s6, .s7, .s8, .s9, .s10, .s11, .t3, .t4, .t5, .t6]

instance : Fintype Reg where
  elems := ⟨Reg.all, by decide⟩
  complete r := by cases r <;> decide

/-- The control registers the assembly names. -/
inductive Csr where
  | sepc
  | sscratch
  deriving DecidableEq

/-! ## Layouts -/

/-- The members of `struct trapframe`. -/
inductive Field where
  | kernelSatp | kernelSp | kernelTrap | epc | kernelHartid
  | reg (r : Reg)
  deriving DecidableEq

def trapframe : List Field := [
  .kernelSatp, .kernelSp, .kernelTrap, .epc, .kernelHartid,
  .reg .ra, .reg .sp, .reg .gp, .reg .tp, .reg .t0, .reg .t1, .reg .t2, .reg .s0, .reg .s1,
  .reg .a0, .reg .a1, .reg .a2, .reg .a3, .reg .a4, .reg .a5, .reg .a6, .reg .a7,
  .reg .s2, .reg .s3, .reg .s4, .reg .s5, .reg .s6, .reg .s7, .reg .s8, .reg .s9, .reg .s10, .reg .s11,
  .reg .t3, .reg .t4, .reg .t5, .reg .t6]

def Field.offset (f : Field) : Nat := 8 * trapframe.idxOf f

/-- `sizeof(struct trapframe)`. -/
def trapframeSize : Nat := 288

/-- The members of `struct context`. -/
def context : List Reg := [.s0, .s1, .s2, .s3, .s4, .s5, .s6, .s7, .s8, .s9, .s10, .s11, .ra, .sp]

def contextOffset (r : Reg) : Nat := 8 * context.idxOf r

/-- `sizeof(struct context)`. -/
def contextSize : Nat := 112

/-! ## `user_trap_entry`, `return_to_user` -/

def userSaves : List (Reg × Nat) := [
  (.ra, 40), (.sp, 48), (.gp, 56), (.tp, 64), (.t1, 80), (.t2, 88), (.s0, 96), (.s1, 104), (.a0, 112), (.a1, 120),
  (.a2, 128), (.a3, 136), (.a4, 144), (.a5, 152), (.a6, 160), (.a7, 168), (.s2, 176), (.s3, 184), (.s4, 192),
  (.s5, 200), (.s6, 208), (.s7, 216), (.s8, 224), (.s9, 232), (.s10, 240), (.s11, 248), (.t3, 256), (.t4, 264),
  (.t5, 272), (.t6, 280)]

def userTrapEntry : List (Instr Reg Csr) :=
  [.csrrw .t0 .sscratch .t0] ++ saves .t0 userSaves ++ [
    .csrr .t1 .sscratch,
    .sd .t1 72 .t0,
    .csrr .t1 .sepc,
    .sd .t1 24 .t0,
    .ld .t1 32 .t0,
    .mv .tp .t1,
    .ld .sp 8 .t0,
    .csrw .sscratch .t0]

def userRestores : List (Reg × Nat) := [
  (.ra, 40), (.sp, 48), (.gp, 56), (.tp, 64), (.t0, 72), (.t1, 80), (.t2, 88), (.s0, 96), (.s1, 104), (.a1, 120),
  (.a2, 128), (.a3, 136), (.a4, 144), (.a5, 152), (.a6, 160), (.a7, 168), (.s2, 176), (.s3, 184), (.s4, 192),
  (.s5, 200), (.s6, 208), (.s7, 216), (.s8, 224), (.s9, 232), (.s10, 240), (.s11, 248), (.t3, 256), (.t4, 264),
  (.t5, 272), (.t6, 280)]

def returnToUser : List (Instr Reg Csr) :=
  [.csrw .sscratch .a0, .ld .t0 24 .a0, .csrw .sepc .t0] ++ restores .a0 userRestores ++ [.ld .a0 112 .a0]

/-! ## `sys_trap_vector` -/

def sysSlots : List (Reg × Nat) := [
  (.ra, 0), (.gp, 16), (.tp, 24), (.t0, 32), (.t1, 40), (.t2, 48), (.s0, 56), (.s1, 64), (.a0, 72), (.a1, 80),
  (.a2, 88), (.a3, 96), (.a4, 104), (.a5, 112), (.a6, 120), (.a7, 128), (.s2, 136), (.s3, 144), (.s4, 152),
  (.s5, 160), (.s6, 168), (.s7, 176), (.s8, 184), (.s9, 192), (.s10, 200), (.s11, 208), (.t3, 216), (.t4, 224),
  (.t5, 232), (.t6, 240)]

/-- Up to `call sys_trap_handler`. -/
def sysTrapVector : List (Instr Reg Csr) :=
  [.addi .sp .sp (-256)] ++ saves .sp sysSlots ++ [.addi .t0 .sp 256, .sd .t0 8 .sp]

/-- From behind the call. -/
def sysTrapReturn : List (Instr Reg Csr) := restores .sp sysSlots ++ [.ld .sp 8 .sp]

/-- The slot of a register below the kernel's `sp`. -/
def sysSlot (r : Reg) : Nat := 8 * trapframe.idxOf (.reg r) - 40

/-! ## `swtch` -/

def swtchSlots : List (Reg × Nat) := [
  (.s0, 0), (.s1, 8), (.s2, 16), (.s3, 24), (.s4, 32), (.s5, 40), (.s6, 48), (.s7, 56), (.s8, 64), (.s9, 72),
  (.s10, 80), (.s11, 88), (.ra, 96), (.sp, 104)]

def swtch : List (Instr Reg Csr) := saves .a0 swtchSlots ++ restores .a1 swtchSlots

/-! ## Every offset is that of the member of the same name -/

theorem userSaves_offset : ∀ f ∈ userSaves, f.2 = (Field.reg f.1).offset := by decide

theorem userRestores_offset : ∀ f ∈ userRestores, f.2 = (Field.reg f.1).offset := by decide

theorem swtchSlots_offset : ∀ f ∈ swtchSlots, f.2 = contextOffset f.1 := by decide

theorem userSaves_mem : ∀ r : Reg, r ≠ .t0 → (r, (Field.reg r).offset) ∈ userSaves := by decide

theorem sysSlots_mem : ∀ r : Reg, r ≠ .sp → (r, sysSlot r) ∈ sysSlots := by decide

theorem swtchSlots_mem : ∀ r ∈ context, (r, contextOffset r) ∈ swtchSlots := by decide

/-! ## Reading the structures from C -/

/-- `tf->f`. -/
def field (m : Memory) (tf : Word) (f : Field) : Word := load m (tf + BitVec.ofNat 64 f.offset)

/-- `tf->f = v`. -/
def setField (m : Memory) (tf : Word) (f : Field) (v : Word) : Memory := store m (tf + BitVec.ofNat 64 f.offset) v

theorem mem_trapframe (f : Field) : f ∈ trapframe := by
  cases f with
  | reg r => cases r <;> decide
  | _ => decide

theorem offset_le (f : Field) : f.offset + 8 ≤ trapframeSize := by
  have h : trapframe.idxOf f < 36 := List.idxOf_lt_length_of_mem (mem_trapframe f)
  unfold Field.offset trapframeSize
  omega

theorem offset_apart {f g : Field} (h : f ≠ g) : f.offset + 8 ≤ g.offset ∨ g.offset + 8 ≤ f.offset := by
  have hne : trapframe.idxOf f ≠ trapframe.idxOf g := fun e => h ((List.idxOf_inj (mem_trapframe f)).1 e)
  unfold Field.offset
  omega

theorem field_frame {m m' : Memory} {tf : Word} (h : ∀ x, Area tf trapframeSize x → m x = m' x) (f : Field) :
    field m tf f = field m' tf f :=
  load_frame fun x hx => h x (hx.offset (offset_le f))

theorem field_setField (m : Memory) (tf : Word) (f : Field) (v : Word) : field (setField m tf f v) tf f = v :=
  load_store _ _ _

theorem field_setField_of_ne {f g : Field} (h : g ≠ f) (m : Memory) (tf v : Word) :
    field (setField m tf f v) tf g = field m tf g := by
  apply load_store_out
  intro x hx
  have hf : f.offset + 8 ≤ 2 ^ 64 := (offset_le f).trans (by decide)
  have hg : g.offset + 8 ≤ 2 ^ 64 := (offset_le g).trans (by decide)
  exact hx.apart (offset_apart h) hg hf

theorem setField_out {tf x : Word} (h : ¬ Area tf trapframeSize x) (m : Memory) (f : Field) (v : Word) :
    setField m tf f v x = m x :=
  store_out fun hx => h (hx.offset (offset_le f))

/-- What a process is to go on with in user mode. -/
structure Image where
  reg : Reg → Word
  pc : Word

structure Holds (m : Memory) (tf : Word) (i : Image) : Prop where
  reg : ∀ r, field m tf (.reg r) = i.reg r
  epc : field m tf .epc = i.pc

theorem Holds.frame {m m' : Memory} {tf : Word} {i : Image} (h : Holds m tf i)
    (hm : ∀ x, Area tf trapframeSize x → m' x = m x) : Holds m' tf i :=
  ⟨fun r => (field_frame hm _).trans (h.reg r), (field_frame hm _).trans h.epc⟩

/-! ## What the sequences do -/

/-- The double words `user_trap_entry` stores. -/
def userWrites (reg : Reg → Word) (epc : Word) : List (Nat × Word) :=
  userSaves.map (fun f => (f.2, reg f.1)) ++ [(72, reg .t0), (24, epc)]

theorem userWrites_apart (reg : Reg → Word) (epc : Word) :
    Apart trapframeSize ((userWrites reg epc).map Prod.fst) := by
  have h : (userWrites reg epc).map Prod.fst = userSaves.map Prod.snd ++ [72, 24] := by
    simp [userWrites, Function.comp_def]
  rw [h]
  exact ⟨by decide, by decide⟩

/-- `user_trap_entry` as one update of the memory. -/
theorem userTrapEntry_mem (c : Cpu Reg Csr) :
    (exec userTrapEntry c).mem = writes c.mem (c.csr .sscratch) (userWrites c.reg (c.csr .sepc)) := rfl

theorem field_userWrites (m : Memory) (tf : Word) (reg : Reg → Word) (epc : Word) {f : Field} {v : Word}
    (hf : (f.offset, v) ∈ userWrites reg epc) : field (writes m tf (userWrites reg epc)) tf f = v := by
  have hsize : trapframeSize ≤ 2 ^ 64 := by decide
  exact load_writes (f := (f.offset, v)) tf hsize _ m (userWrites_apart reg epc) hf

/-- Every register and the pc of the user are in the field of their name, and nothing else is written. -/
theorem userTrapEntry_run (c : Cpu Reg Csr) :
    Holds (exec userTrapEntry c).mem (c.csr .sscratch) ⟨c.reg, c.csr .sepc⟩ ∧
    (∀ x, ¬ Area (c.csr .sscratch) trapframeSize x → (exec userTrapEntry c).mem x = c.mem x) := by
  rw [userTrapEntry_mem]
  refine ⟨⟨fun r => field_userWrites _ _ _ _ ?_, field_userWrites _ _ _ _ ?_⟩, fun x hx => ?_⟩
  · rcases eq_or_ne r .t0 with rfl | hr
    · exact List.mem_append_right _ (by simp [Field.offset, trapframe])
    · apply List.mem_append_left
      exact List.mem_map_of_mem (f := fun f : Reg × Nat => (f.2, c.reg f.1)) (userSaves_mem r hr)
  · exact List.mem_append_right _ (by simp [Field.offset, trapframe])
  · apply writes_out hx
    intro f hf
    exact (userWrites_apart c.reg (c.csr .sepc)).fits f.1 (List.mem_map_of_mem hf)

/-- The fields of the kernel are not written. -/
theorem field_kernel (m : Memory) (tf : Word) (reg : Reg → Word) (epc : Word) {f : Field}
    (hf : f = .kernelSp ∨ f = .kernelHartid) : field (writes m tf (userWrites reg epc)) tf f = field m tf f := by
  apply load_writes_other tf
  · exact (offset_le f).trans (by decide)
  · intro g hg
    have hg : g.1 ∈ userSaves.map Prod.snd ++ [72, 24] := by
      have := List.mem_map_of_mem (f := Prod.fst) hg
      simpa [userWrites, Function.comp_def] using this
    have hall : ∀ o ∈ userSaves.map Prod.snd ++ [72, 24], 16 ≤ o ∧ (o + 8 ≤ 32 ∨ 40 ≤ o) ∧ o + 8 ≤ 2 ^ 64 := by
      decide
    obtain ⟨hlow, hid, hfit⟩ := hall _ hg
    rcases hf with rfl | rfl
    · exact ⟨.inr hlow, hfit⟩
    · exact ⟨hid, hfit⟩

/-- The kernel goes on with the stack and the `tp` of the trapframe, and with the control registers as they were. -/
theorem userTrapEntry_kernel (c : Cpu Reg Csr) :
    (exec userTrapEntry c).csr = c.csr ∧
    (exec userTrapEntry c).reg .tp = field c.mem (c.csr .sscratch) .kernelHartid ∧
    (exec userTrapEntry c).reg .sp = field c.mem (c.csr .sscratch) .kernelSp := by
  have hcsr : update (update c.csr .sscratch (c.reg .t0)) .sscratch (c.csr .sscratch) = c.csr := by
    rw [update_idem, update_eq_self]
  have htp : (exec userTrapEntry c).reg .tp = field (exec userTrapEntry c).mem (c.csr .sscratch) .kernelHartid := rfl
  have hsp : (exec userTrapEntry c).reg .sp = field (exec userTrapEntry c).mem (c.csr .sscratch) .kernelSp := rfl
  rw [userTrapEntry_mem, field_kernel _ _ _ _ (.inr rfl)] at htp
  rw [userTrapEntry_mem, field_kernel _ _ _ _ (.inl rfl)] at hsp
  exact ⟨hcsr, htp, hsp⟩

/-- Every register and `sepc` come from the field of their name. -/
theorem returnToUser_run (c : Cpu Reg Csr) :
    (∀ r, (exec returnToUser c).reg r = field c.mem (c.reg .a0) (.reg r)) ∧
    (exec returnToUser c).csr .sepc = field c.mem (c.reg .a0) .epc ∧
    (exec returnToUser c).csr .sscratch = c.reg .a0 ∧ (exec returnToUser c).mem = c.mem := by
  refine ⟨fun r => ?_, rfl, rfl, rfl⟩
  cases r <;> rfl

/-! ### The frame of `sys_trap_vector` -/

/-- The bytes `sys_trap_vector` takes below `sp`. -/
def sysFrameSize : Nat := 256

/-- The frame that is made when `sp` is `a`. -/
def frameBase (a : Word) : Word := a + BitVec.ofInt 64 (-256)

theorem frameBase_add (a : Word) : frameBase a + BitVec.ofInt 64 256 = a := by
  rw [frameBase, BitVec.add_assoc]
  simp

/-- The frame at `base` holds the registers. -/
def Framed (m : Memory) (base : Word) (reg : Reg → Word) : Prop :=
  ∀ r, load m (base + BitVec.ofNat 64 (sysSlot r)) = reg r

theorem Framed.frame {m m' : Memory} {base : Word} {reg : Reg → Word} (h : Framed m base reg)
    (hm : ∀ x, Area base sysFrameSize x → m' x = m x) : Framed m' base reg := by
  intro r
  have hr : sysSlot r + 8 ≤ sysFrameSize := by
    cases r <;> decide
  rw [← h r]
  exact load_frame fun x hx => hm x (hx.offset hr)

/-- The double words `sys_trap_vector` stores. -/
def sysWrites (reg : Reg → Word) : List (Nat × Word) := sysSlots.map (fun f => (f.2, reg f.1)) ++ [(8, reg .sp)]

theorem sysWrites_apart (reg : Reg → Word) : Apart sysFrameSize ((sysWrites reg).map Prod.fst) := by
  have h : (sysWrites reg).map Prod.fst = sysSlots.map Prod.snd ++ [8] := by
    simp [sysWrites, Function.comp_def]
  rw [h]
  exact ⟨by decide, by decide⟩

theorem sysTrapVector_mem (c : Cpu Reg Csr) :
    (exec sysTrapVector c).mem = writes c.mem (frameBase (c.reg .sp)) (sysWrites c.reg) := by
  have h : (exec sysTrapVector c).mem = writes c.mem (frameBase (c.reg .sp))
      (sysSlots.map (fun f => (f.2, c.reg f.1)) ++ [(8, frameBase (c.reg .sp) + BitVec.ofInt 64 256)]) := rfl
  rw [h, frameBase_add]
  rfl

/-- Every register is in its slot, and nothing outside the frame is written. -/
theorem sysTrapVector_run (c : Cpu Reg Csr) :
    Framed (exec sysTrapVector c).mem (frameBase (c.reg .sp)) c.reg ∧
    (∀ x, ¬ Area (frameBase (c.reg .sp)) sysFrameSize x → (exec sysTrapVector c).mem x = c.mem x) ∧
    (exec sysTrapVector c).csr = c.csr := by
  have hapart := sysWrites_apart c.reg
  rw [sysTrapVector_mem]
  refine ⟨fun r => ?_, fun x hx => ?_, rfl⟩
  · have hr : (sysSlot r, c.reg r) ∈ sysWrites c.reg := by
      rcases eq_or_ne r .sp with rfl | hr
      · exact List.mem_append_right _ (by simp [sysSlot, trapframe])
      · apply List.mem_append_left
        exact List.mem_map_of_mem (f := fun f : Reg × Nat => (f.2, c.reg f.1)) (sysSlots_mem r hr)
    have hsize : sysFrameSize ≤ 2 ^ 64 := by decide
    exact load_writes (f := (sysSlot r, c.reg r)) _ hsize _ _ hapart hr
  · apply writes_out hx
    intro f hf
    exact hapart.fits f.1 (List.mem_map_of_mem hf)

theorem sysTrapReturn_csr (c : Cpu Reg Csr) : (exec sysTrapReturn c).csr = c.csr := rfl

/-- Every register comes from its slot. -/
theorem sysTrapReturn_run {c : Cpu Reg Csr} {reg : Reg → Word} (h : Framed c.mem (c.reg .sp) reg) :
    (exec sysTrapReturn c).reg = reg ∧ (exec sysTrapReturn c).csr = c.csr ∧ (exec sysTrapReturn c).mem = c.mem := by
  refine ⟨funext fun r => ?_, sysTrapReturn_csr c, rfl⟩
  rw [← h r]
  cases r <;> rfl

/-! ### `swtch` -/

/-- The context at `a` holds what `swtch` keeps. -/
def Kept (m : Memory) (a : Word) (reg : Reg → Word) : Prop :=
  ∀ r ∈ context, load m (a + BitVec.ofNat 64 (contextOffset r)) = reg r

theorem Kept.frame {m m' : Memory} {a : Word} {reg : Reg → Word} (h : Kept m a reg)
    (hm : ∀ x, Area a contextSize x → m' x = m x) : Kept m' a reg := by
  intro r hr
  have hfit : ∀ r ∈ context, contextOffset r + 8 ≤ contextSize := by decide
  rw [← h r hr]
  exact load_frame fun x hx => hm x (hx.offset (hfit r hr))

theorem swtch_mem (c : Cpu Reg Csr) :
    (exec swtch c).mem = writes c.mem (c.reg .a0) (swtchSlots.map fun f => (f.2, c.reg f.1)) := rfl

/-- The running registers are in the old context, and nothing else is written. -/
theorem swtch_saves (c : Cpu Reg Csr) : Kept (exec swtch c).mem (c.reg .a0) c.reg ∧
    (∀ x, ¬ Area (c.reg .a0) contextSize x → (exec swtch c).mem x = c.mem x) := by
  have hapart : Apart contextSize ((swtchSlots.map fun f => (f.2, c.reg f.1)).map Prod.fst) := by
    have h : (swtchSlots.map fun f => (f.2, c.reg f.1)).map Prod.fst = swtchSlots.map Prod.snd := by
      simp [Function.comp_def]
    rw [h]
    exact ⟨by decide, by decide⟩
  rw [swtch_mem]
  refine ⟨fun r hr => ?_, fun x hx => ?_⟩
  · have hr : (contextOffset r, c.reg r) ∈ swtchSlots.map fun f => (f.2, c.reg f.1) :=
      List.mem_map_of_mem (f := fun f : Reg × Nat => (f.2, c.reg f.1)) (swtchSlots_mem r hr)
    have hsize : contextSize ≤ 2 ^ 64 := by decide
    exact load_writes (f := (contextOffset r, c.reg r)) _ hsize _ _ hapart hr
  · apply writes_out hx
    intro f hf
    exact hapart.fits f.1 (List.mem_map_of_mem hf)

/-- The registers of the new context are loaded. -/
theorem swtch_loads {c : Cpu Reg Csr} {reg : Reg → Word} (h : Kept (exec swtch c).mem (c.reg .a1) reg) :
    ∀ r ∈ context, (exec swtch c).reg r = reg r := by
  intro r hr
  rw [← h r hr, swtch, exec_append]
  have hbase : (exec (saves .a0 swtchSlots) c).reg .a1 = c.reg .a1 := rfl
  rw [← hbase]
  rw [restores_mem]
  generalize exec (saves .a0 swtchSlots) c = d
  fin_cases hr <;> rfl

end RiscvOsLab.Trap
