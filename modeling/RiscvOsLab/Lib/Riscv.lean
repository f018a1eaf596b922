import RiscvOsLab.Lib.Bytes

/-!
# Double words in memory, and the instructions that save and restore registers

A memory of bytes under 64-bit addresses, and the RISC-V instructions of which entry, exit and switch code is made,
over any registers `R` and control registers `C`.

* `load`, `store` : little-endian double words; `Area a n` : the `n` bytes from address `a`;
* `writes` : values stored at offsets from one address; `load_writes` : none of them hits another when the offsets
  are `Apart`;
* `exec` : a sequence of instructions; `saves`, `restores` : the stores and the loads of a table of registers.
-/

namespace RiscvOsLab.Riscv

open Function

abbrev Word := BitVec 64

abbrev Memory := Word → UInt8

/-! ## Areas -/

/-- `x` is one of the `n` bytes from `a`. -/
def Area (a : Word) (n : Nat) (x : Word) : Prop := (x - a).toNat < n

instance (a : Word) (n : Nat) : DecidablePred (Area a n) := fun x => inferInstanceAs (Decidable ((x - a).toNat < n))

theorem Area.mono {a x : Word} {n n' : Nat} (h : Area a n x) (hn : n ≤ n') : Area a n' x := lt_of_lt_of_le h hn

theorem Area.offset {a x : Word} {o n n' : Nat} (h : Area (a + BitVec.ofNat 64 o) n x) (hn : o + n ≤ n') :
    Area a n' x := by
  unfold Area at h ⊢
  simp only [BitVec.toNat_sub, BitVec.toNat_add, BitVec.toNat_ofNat] at h ⊢
  omega

/-- Bytes of double words that are eight apart are different. -/
theorem Area.apart {a x : Word} {o o' : Nat} (h : Area (a + BitVec.ofNat 64 o) 8 x) (hoo : o + 8 ≤ o' ∨ o' + 8 ≤ o)
    (ho : o + 8 ≤ 2 ^ 64) (ho' : o' + 8 ≤ 2 ^ 64) : ¬ Area (a + BitVec.ofNat 64 o') 8 x := by
  unfold Area at h ⊢
  simp only [BitVec.toNat_sub, BitVec.toNat_add, BitVec.toNat_ofNat] at h ⊢
  omega

theorem toNat_add_sub (a : Word) {k : Nat} (hk : k < 2 ^ 64) : (a + BitVec.ofNat 64 k - a).toNat = k := by
  simp only [BitVec.toNat_sub, BitVec.toNat_add, BitVec.toNat_ofNat]
  have := a.isLt
  omega

theorem Area.of_lt {a : Word} {n k : Nat} (hk : k < n) (hn : n ≤ 2 ^ 64) : Area a n (a + BitVec.ofNat 64 k) := by
  rw [Area, toNat_add_sub a (by omega)]
  exact hk

/-! ## Double words -/

def load (m : Memory) (a : Word) : Word := BitVec.ofNat 64 (Bytes.leRead (fun k => m (a + BitVec.ofNat 64 k)) 0 8)

def store (m : Memory) (a v : Word) : Memory :=
  fun x => if Area a 8 x then Bytes.leByte v.toNat (x - a).toNat else m x

theorem load_congr {m m' : Memory} {a a' : Word}
    (h : ∀ k < 8, m (a + BitVec.ofNat 64 k) = m' (a' + BitVec.ofNat 64 k)) : load m a = load m' a' := by
  unfold load
  rw [Bytes.leRead_congr 8 0 0 fun k hk => ?_]
  rw [Nat.zero_add]
  exact h k hk

theorem load_frame {m m' : Memory} {a : Word} (h : ∀ x, Area a 8 x → m x = m' x) : load m a = load m' a :=
  load_congr fun _ hk => h _ (Area.of_lt hk (by decide))

theorem store_out {m : Memory} {a v x : Word} (h : ¬ Area a 8 x) : store m a v x = m x := if_neg h

theorem load_store (m : Memory) (a v : Word) : load (store m a v) a = v := by
  have hbytes : Bytes.leRead (fun k => store m a v (a + BitVec.ofNat 64 k)) 0 8 =
      Bytes.leRead (Bytes.leByte v.toNat) 0 8 := by
    apply Bytes.leRead_congr
    intro k hk
    rw [Nat.zero_add, store, if_pos (Area.of_lt hk (by decide)), toNat_add_sub a (by omega)]
  have hv := v.isLt
  rw [load, hbytes, Bytes.leRead_leByte, pow_zero, Nat.div_one, Nat.mod_eq_of_lt (by omega)]
  simp

theorem load_store_out {m : Memory} {a b v : Word} (h : ∀ x, Area b 8 x → ¬ Area a 8 x) :
    load (store m a v) b = load m b :=
  load_frame fun x hx => store_out (h x hx)

/-! ## Tables of offsets -/

/-- Values stored at offsets from `a`. -/
def writes (m : Memory) (a : Word) (l : List (Nat × Word)) : Memory :=
  l.foldl (fun m f => store m (a + BitVec.ofNat 64 f.1) f.2) m

theorem writes_out {a x : Word} {n : Nat} (hx : ¬ Area a n x) :
    ∀ (l : List (Nat × Word)) (m : Memory), (∀ f ∈ l, f.1 + 8 ≤ n) → writes m a l x = m x := by
  intro l
  induction l with
  | nil => intro m _; rfl
  | cons f l ih =>
      intro m hl
      rw [writes, List.foldl_cons]
      have hrest := ih (store m (a + BitVec.ofNat 64 f.1) f.2) fun g hg => hl g (by simp [hg])
      have hf : ¬ Area (a + BitVec.ofNat 64 f.1) 8 x := fun h => hx (h.offset (hl f (by simp)))
      exact hrest.trans (store_out hf)

/-- Offsets that are not stored to keep their value. -/
theorem load_writes_other (a : Word) {o : Nat} (ho : o + 8 ≤ 2 ^ 64) :
    ∀ (l : List (Nat × Word)) (m : Memory), (∀ f ∈ l, (f.1 + 8 ≤ o ∨ o + 8 ≤ f.1) ∧ f.1 + 8 ≤ 2 ^ 64) →
      load (writes m a l) (a + BitVec.ofNat 64 o) = load m (a + BitVec.ofNat 64 o) := by
  intro l
  induction l with
  | nil => intro m _; rfl
  | cons f l ih =>
      intro m hl
      obtain ⟨hoo, hf⟩ := hl f (by simp)
      have hrest := ih (store m (a + BitVec.ofNat 64 f.1) f.2) fun g hg => hl g (by simp [hg])
      apply hrest.trans
      apply load_store_out
      intro x hx
      exact hx.apart hoo.symm ho hf

/-- No two of the offsets overlap, and each double word lies within the first `n` bytes. -/
structure Apart (n : Nat) (l : List Nat) : Prop where
  pairwise : l.Pairwise fun o o' => o + 8 ≤ o' ∨ o' + 8 ≤ o
  fits : ∀ o ∈ l, o + 8 ≤ n

theorem load_writes (a : Word) {n : Nat} (hn : n ≤ 2 ^ 64) {f : Nat × Word} :
    ∀ (l : List (Nat × Word)) (m : Memory), Apart n (l.map Prod.fst) → f ∈ l →
      load (writes m a l) (a + BitVec.ofNat 64 f.1) = f.2 := by
  intro l
  induction l with
  | nil => intro m _ hf; cases hf
  | cons g l ih =>
      intro m hl hf
      obtain ⟨hpair, hfits⟩ := hl
      rw [List.map_cons, List.pairwise_cons] at hpair
      have htail : Apart n (l.map Prod.fst) := ⟨hpair.2, fun o ho => hfits o (by simp [ho])⟩
      rcases List.mem_cons.1 hf with rfl | hf
      · have hother : ∀ g ∈ l, (g.1 + 8 ≤ f.1 ∨ f.1 + 8 ≤ g.1) ∧ g.1 + 8 ≤ 2 ^ 64 := by
          intro g hg
          have hmem := List.mem_map_of_mem (f := Prod.fst) hg
          exact ⟨(hpair.1 _ hmem).symm, (htail.fits _ hmem).trans hn⟩
        have hf : f.1 + 8 ≤ n := hfits f.1 (by simp)
        exact (load_writes_other a (hf.trans hn) l _ hother).trans (load_store _ _ _)
      · exact ih _ htail hf

/-! ## Instructions -/

inductive Instr (R C : Type) where
  | sd (rs : R) (off : Nat) (base : R)
  | ld (rd : R) (off : Nat) (base : R)
  | addi (rd rs : R) (imm : Int)
  | mv (rd rs : R)
  | csrr (rd : R) (csr : C)
  | csrw (csr : C) (rs : R)
  | csrrw (rd : R) (csr : C) (rs : R)

structure Cpu (R C : Type) where
  reg : R → Word
  csr : C → Word
  mem : Memory

section Exec
variable {R C : Type} [DecidableEq R] [DecidableEq C]

def Instr.exec (c : Cpu R C) : Instr R C → Cpu R C
  | .sd rs off base => { c with mem := store c.mem (c.reg base + BitVec.ofNat 64 off) (c.reg rs) }
  | .ld rd off base => { c with reg := update c.reg rd (load c.mem (c.reg base + BitVec.ofNat 64 off)) }
  | .addi rd rs imm => { c with reg := update c.reg rd (c.reg rs + BitVec.ofInt 64 imm) }
  | .mv rd rs => { c with reg := update c.reg rd (c.reg rs) }
  | .csrr rd csr => { c with reg := update c.reg rd (c.csr csr) }
  | .csrw csr rs => { c with csr := update c.csr csr (c.reg rs) }
  | .csrrw rd csr rs => { c with reg := update c.reg rd (c.csr csr), csr := update c.csr csr (c.reg rs) }

def exec (p : List (Instr R C)) (c : Cpu R C) : Cpu R C := p.foldl Instr.exec c

theorem exec_append (p q : List (Instr R C)) (c : Cpu R C) : exec (p ++ q) c = exec q (exec p c) := List.foldl_append

/-- The stores of a table through one base register. -/
def saves (base : R) (t : List (R × Nat)) : List (Instr R C) := t.map fun f => .sd f.1 f.2 base

/-- The loads of a table through one base register. -/
def restores (base : R) (t : List (R × Nat)) : List (Instr R C) := t.map fun f => .ld f.1 f.2 base

theorem restores_mem (base : R) (t : List (R × Nat)) (c : Cpu R C) : (exec (restores base t) c).mem = c.mem := by
  induction t generalizing c with
  | nil => rfl
  | cons f t ih => exact ih (Instr.exec c (.ld f.1 f.2 base))

end Exec

end RiscvOsLab.Riscv
