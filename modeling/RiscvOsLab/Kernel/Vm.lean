import RiscvOsLab.Kernel.Proc
import Mathlib.Data.Finset.Card

/-!
# The page table (`kernel/mm/vm.c`)

`walk` and `mappages` over physical memory. A page table is a tree of pages of words: `PageTable` says where its nodes
are and what its leaves hold, `Holds mem T` that memory holds it.

* `Holds.add`, `Holds.set` : a node is linked, a leaf is written;
* `Building.wp_walk` : `walk`, which may take pages for the nodes that are missing;
* `Holds.wp_walk`, `Holds.leafEntry_eq` : `walk` as a lookup;
* `Building.wp_mappages` : what is mapped, also when the pages run out;
* `mappages_map` : the map before and after, as `walk` reads it.
-/

namespace RiscvOsLab.Kernel

open Prog Function

def UART0 : Nat := 0x10000000
def VIRTIO0 : Nat := 0x10001000
def PLIC : Nat := 0x0c000000

def PGSHIFT : Nat := 12

/-- One past the highest virtual address that is used. -/
def MAXVA : Nat := 2 ^ (9 + 9 + 9 + 12 - 1)

def PTE_V : UInt64 := 1
def PTE_R : UInt64 := 2
def PTE_W : UInt64 := 4
def PTE_X : UInt64 := 8
def PTE_U : UInt64 := 16

/-- `(va >> PXSHIFT(level)) & 0x1FF`. -/
def PX (level va : Nat) : Nat := va / 2 ^ (PGSHIFT + 9 * level) % 512

/-- `(pa >> 12) << 10`. -/
def PA2PTE (pa : Nat) : UInt64 := UInt64.ofNat (pa / 4096 * 1024)

/-- `(pte >> 10) << 12`. -/
def PTE2PA (pte : UInt64) : Nat := pte.toNat / 1024 * 4096 % 2 ^ 64

/-- `PTE_FLAGS(pte)`. -/
def PTE_FLAGS (pte : UInt64) : UInt64 := pte &&& 0x3FF

def pgrounddown (a : Nat) : Nat := a / PGSIZE * PGSIZE

/-- The loop of `walk` from a level on. -/
def walkFrom (va : Nat) (alloc : Bool) : Nat → Nat → Prog Phys Nat
  | 0, pagetable => return pagetable + 8 * PX 0 va
  | level + 1, pagetable => do
      let pte := pagetable + 8 * PX (level + 1) va
      let v ← gets fun s => s.mem pte
      if v &&& PTE_V ≠ 0 then
        walkFrom va alloc level (PTE2PA v)
      else if alloc = false then
        return 0
      else
        let next ← kalloc
        if next = 0 then
          return 0
        else
          modify fun s => { s with mem := zeroPage s.mem next }
          putWord pte (PA2PTE next ||| PTE_V)
          walkFrom va alloc level next

/-- The address of the leaf entry, or 0. -/
def walk (pagetable va : Nat) (alloc : Bool) : Prog Phys Nat :=
  if MAXVA ≤ va then .panic "walk: virtual address out of range" else walkFrom va alloc 2 pagetable

/-- The loop of `mappages` from a page on. -/
def mappagesFrom (pagetable : Nat) (perm : UInt64) (last : Nat) : Nat → Nat → Nat → Prog Phys Int
  | 0, _, _ => .spin
  | n + 1, a, pa => do
      let pte ← walk pagetable a true
      if pte = 0 then
        return -1
      else
        let v ← gets fun s => s.mem pte
        if v &&& PTE_V ≠ 0 then
          .panic "mappages: remap"
        else
          putWord pte (PA2PTE pa ||| perm ||| PTE_V)
          if a = last then return 0 else mappagesFrom pagetable perm last n (a + PGSIZE) (pa + PGSIZE)

/-- `walk` ends the loop at `MAXVA` at the latest, by a panic. -/
def mappages (pagetable pa va size : Nat) (perm : UInt64) : Prog Phys Int :=
  if size = 0 then .panic "mappages: size is 0"
  else mappagesFrom pagetable perm (pgrounddown ((va + size - 1) % 2 ^ 64)) (MAXVA / PGSIZE + 1) (pgrounddown va) pa

/-! ## Entries -/

theorem toNat_or_flags (p : Nat) (f : UInt64) (hp : p < 2 ^ 64) (hf : f.toNat < 1024) :
    (PA2PTE p ||| f).toNat / 1024 = p / 4096 := by
  have hlt : p / 4096 * 1024 < 2 ^ 64 := by omega
  rw [UInt64.toNat_or, PA2PTE, UInt64.toNat_ofNat', Nat.mod_eq_of_lt hlt, show (1024 : Nat) = 2 ^ 10 from rfl,
    ← Nat.shiftRight_eq_div_pow, Nat.shiftRight_or_distrib, Nat.shiftRight_eq_div_pow, Nat.shiftRight_eq_div_pow,
    Nat.mul_div_cancel _ (by decide), Nat.div_eq_of_lt hf, Nat.or_zero]

theorem pte2pa_or {p : Nat} {f : UInt64} (hp : p < 2 ^ 64) (hf : f.toNat < 1024) :
    PTE2PA (PA2PTE p ||| f) = pgrounddown p := by
  rw [PTE2PA, toNat_or_flags p f hp hf, pgrounddown, PGSIZE]
  omega

theorem pgrounddown_of_aligned {p : Nat} (h : p % PGSIZE = 0) : pgrounddown p = p :=
  Nat.div_mul_cancel (Nat.dvd_of_mod_eq_zero h)

theorem flags_or {p : Nat} {f : UInt64} (hf : f.toNat < 1024) : PTE_FLAGS (PA2PTE p ||| f) = f := by
  apply UInt64.toNat_inj.1
  have hlow : (PA2PTE p).toNat % 2 ^ 10 = 0 := by
    rw [PA2PTE, UInt64.toNat_ofNat']
    omega
  rw [PTE_FLAGS, UInt64.toNat_and, UInt64.toNat_or, show (0x3FF : UInt64).toNat = 2 ^ 10 - 1 from rfl,
    Nat.and_two_pow_sub_one_eq_mod, Nat.or_mod_two_pow, hlow, Nat.zero_or, Nat.mod_eq_of_lt hf]

theorem or_valid (x : UInt64) : (x ||| PTE_V) &&& PTE_V = PTE_V := by
  apply UInt64.eq_of_toBitVec_eq
  ext i
  simp only [UInt64.toBitVec_and, UInt64.toBitVec_or, BitVec.getElem_and, BitVec.getElem_or]
  cases PTE_V.toBitVec[i] <;> simp

theorem or_valid_ne (x : UInt64) : (x ||| PTE_V) &&& PTE_V ≠ 0 := by
  rw [or_valid]
  decide

/-- The page that an intermediate entry leads to. -/
def target (w : UInt64) : Option Nat := if w &&& PTE_V ≠ 0 then some (PTE2PA w) else none

theorem target_zero : target 0 = none := by decide

theorem target_link {q : Nat} (hq : q < 2 ^ 64) (hal : q % PGSIZE = 0) : target (PA2PTE q ||| PTE_V) = some q := by
  rw [target, if_pos (or_valid_ne _), pte2pa_or hq (by decide), pgrounddown_of_aligned hal]

/-! ## The tree -/

inductive Node where
  | root
  | mid (i : Nat)
  | low (k : Nat)
  deriving DecidableEq

/-- The node that entry `j` of a node leads to. -/
def Node.next : Node → Nat → Option Node
  | .root, j => some (.mid j)
  | .mid i, j => some (.low (512 * i + j))
  | .low _, _ => none

namespace Node

variable {n n' c : Node} {j j' k : Nat}

theorem next_ne_root (h : n.next j = some c) : c ≠ .root := by
  rintro rfl
  cases n <;> simp [next] at h

theorem next_self (h : n.next j = some c) : n ≠ c := by
  rintro rfl
  cases n <;> simp [next] at h

theorem next_low (h : n.next j = some (.low k)) : ∃ i, n = .mid i ∧ k = 512 * i + j := by
  cases n with
  | root => exact absurd h (by simp [next])
  | mid i =>
      injection Option.some.inj h with hk
      exact ⟨i, rfl, hk.symm⟩
  | low k' => exact absurd h (by simp [next])

theorem next_inj (hj : j < 512) (hj' : j' < 512) (h : n.next j = some c) (h' : n'.next j' = some c) :
    n = n' ∧ j = j' := by
  cases c with
  | root => exact absurd rfl (next_ne_root h)
  | mid i =>
      cases n <;> cases n' <;> simp [next] at h h'
      exact ⟨rfl, h.trans h'.symm⟩
  | low k =>
      obtain ⟨i, rfl, hk⟩ := next_low h
      obtain ⟨i', rfl, hk'⟩ := next_low h'
      have hi : i = i' := by omega
      exact ⟨congrArg Node.mid hi, by omega⟩

end Node

/-- Where the pages of the nodes are, and the leaf entry of each virtual page. -/
structure PageTable where
  page : Node → Option Nat
  leaf : Nat → UInt64

namespace PageTable

/-- Node `c` gets a page. -/
def add (T : PageTable) (c : Node) (q : Nat) : PageTable := { T with page := update T.page c (some q) }

/-- The entry of virtual page `v` is written. -/
def set (T : PageTable) (v : Nat) (x : UInt64) : PageTable := { T with leaf := update T.leaf v x }

@[simp] theorem page_add_self (T : PageTable) (c : Node) (q : Nat) : (T.add c q).page c = some q := update_self _ _ _

theorem page_add_of_ne (T : PageTable) {c n : Node} (h : n ≠ c) (q : Nat) : (T.add c q).page n = T.page n :=
  update_of_ne h _ _

/-- The pages of the nodes after one is added. -/
theorem page_add_cases {T : PageTable} {c n : Node} {q p : Nat} (h : (T.add c q).page n = some p) :
    n = c ∧ p = q ∨ n ≠ c ∧ T.page n = some p := by
  by_cases hnc : n = c
  · rw [hnc, T.page_add_self] at h
    exact .inl ⟨hnc, (Option.some.inj h).symm⟩
  · rw [T.page_add_of_ne hnc] at h
    exact .inr ⟨hnc, h⟩

end PageTable

/-- Memory holds the page table: an intermediate entry leads to the page of its node if it is valid, and is not valid if
there is none, whatever its other bits are. -/
structure Holds (mem : Nat → UInt64) (T : PageTable) : Prop where
  link : ∀ {n c p j}, T.page n = some p → j < 512 → n.next j = some c → target (mem (p + 8 * j)) = T.page c
  leaf : ∀ {k p j}, T.page (.low k) = some p → j < 512 → mem (p + 8 * j) = T.leaf (512 * k + j)
  aligned : ∀ {n p}, T.page n = some p → p % PGSIZE = 0
  pos : ∀ {n p}, T.page n = some p → 0 < p
  distinct : ∀ {n n' p}, T.page n = some p → T.page n' = some p → n = n'
  mid : ∀ {k}, T.page (.low k) ≠ none → T.page (.mid (k / 512)) ≠ none
  bare : ∀ {v}, T.page (.low (v / 512)) = none → T.leaf v = 0

/-- The page of an entry. -/
theorem onPage_word {p j : Nat} (hj : j < 512) : OnPage p (p + 8 * j) := by
  refine ⟨Nat.le_add_right _ _, ?_⟩
  simp only [PGSIZE]
  omega

namespace Holds

variable {mem mem' : Nat → UInt64} {T : PageTable} {n n' c : Node} {p p' j j' q : Nat}

/-- Memory off the page table may change. -/
theorem congr (h : Holds mem T) (hmem : ∀ n p j, T.page n = some p → j < 512 → mem' (p + 8 * j) = mem (p + 8 * j)) :
    Holds mem' T := by
  refine ⟨fun hp hj hc => ?_, fun hp hj => ?_, h.aligned, h.pos, h.distinct, h.mid, h.bare⟩
  · rw [hmem _ _ _ hp hj]
    exact h.link hp hj hc
  · rw [hmem _ _ _ hp hj]
    exact h.leaf hp hj

/-- An entry determines its node and its index. -/
theorem entry_inj (h : Holds mem T) (hn : T.page n = some p) (hn' : T.page n' = some p') (hj : j < 512) (hj' : j' < 512)
    (he : p + 8 * j = p' + 8 * j') : n = n' ∧ j = j' := by
  have hpp : p = p' := (onPage_word hj).eq (h.aligned hn) (h.aligned hn') (he ▸ onPage_word hj')
  exact ⟨h.distinct hn (hpp ▸ hn'), by omega⟩

/-- A page that is not of the table has none of its entries. -/
theorem not_onPage (h : Holds mem T) (hn : T.page n = some p) (hj : j < 512) (hal : q % PGSIZE = 0)
    (hfresh : ∀ n, T.page n ≠ some q) : ¬ OnPage q (p + 8 * j) := fun hon =>
  hfresh n ((onPage_word hj).eq (h.aligned hn) hal hon ▸ hn)

/-- The nodes below a node without a page have none. -/
theorem next_none (h : Holds mem T) (hc : T.page n = none) (hnext : n.next j = some c) (hj : j < 512)
    (hroot : n ≠ .root) : T.page c = none := by
  cases n with
  | root => exact absurd rfl hroot
  | mid i =>
      obtain rfl := Option.some.inj hnext
      by_contra hsome
      refine h.mid hsome ?_
      rw [show (512 * i + j) / 512 = i by omega]
      exact hc
  | low k => exact absurd hnext (by simp [Node.next])

/-- Entry `j` of node `n` is linked to a fresh page. -/
theorem add (h : Holds mem T) (hn : T.page n = some p) (hj : j < 512) (hnext : n.next j = some c) (hc : T.page c = none)
    (hal : q % PGSIZE = 0) (hpos : 0 < q) (hlt : q < 2 ^ 64) (hfresh : ∀ n, T.page n ≠ some q) :
    Holds (update (zeroPage mem q) (p + 8 * j) (PA2PTE q ||| PTE_V)) (T.add c q) := by
  have hroot := Node.next_ne_root hnext
  have hoff := h.not_onPage hn hj hal hfresh
  -- the new page is empty, the words of the others are as they were, but for the link
  have hnew {i : Nat} (hi : i < 512) : update (zeroPage mem q) (p + 8 * j) (PA2PTE q ||| PTE_V) (q + 8 * i) = 0 := by
    have hne : q + 8 * i ≠ p + 8 * j := fun he => hoff (he ▸ onPage_word hi)
    rw [update_of_ne hne, zeroPage_on (onPage_word hi)]
  have hold {n' : Node} {p' i : Nat} (hn' : T.page n' = some p') (hi : i < 512) (hne : ¬ (n' = n ∧ i = j)) :
      update (zeroPage mem q) (p + 8 * j) (PA2PTE q ||| PTE_V) (p' + 8 * i) = mem (p' + 8 * i) := by
    have hword : p' + 8 * i ≠ p + 8 * j := fun he => hne (h.entry_inj hn' hn hi hj he)
    rw [update_of_ne hword, zeroPage_off (h.not_onPage hn' hi hal hfresh)]
  refine ⟨fun {n' c' p' i} hp' hi hc' => ?_, fun {k p' i} hp' hi => ?_, fun hp' => ?_, fun hp' => ?_,
    fun {n₁ n₂ p'} hp₁ hp₂ => ?_, fun {k} hk => ?_, fun {v} hv => ?_⟩
  · rcases PageTable.page_add_cases hp' with ⟨rfl, rfl⟩ | ⟨-, hp'⟩
    · have hcc : c' ≠ n' := (Node.next_self hc').symm
      rw [hnew hi, target_zero, T.page_add_of_ne hcc, h.next_none hc hc' hi hroot]
    · by_cases hlink : n' = n ∧ i = j
      · obtain ⟨rfl, rfl⟩ := hlink
        obtain rfl := Option.some.inj (hp'.symm.trans hn)
        obtain rfl := Option.some.inj (hc'.symm.trans hnext)
        rw [update_self, target_link hlt hal, T.page_add_self]
      · have hcc : c' ≠ c := by
          rintro rfl
          exact hlink (Node.next_inj hi hj hc' hnext)
        rw [hold hp' hi hlink, h.link hp' hi hc', T.page_add_of_ne hcc]
  · rcases PageTable.page_add_cases hp' with ⟨rfl, rfl⟩ | ⟨-, hp'⟩
    · have hbare : T.leaf (512 * k + i) = 0 := by
        refine h.bare ?_
        rw [show (512 * k + i) / 512 = k by omega]
        exact hc
      rw [hnew hi]
      exact hbare.symm
    · refine (hold hp' hi ?_).trans (h.leaf hp' hi)
      rintro ⟨rfl, -⟩
      exact absurd hnext (by simp [Node.next])
  · rcases PageTable.page_add_cases hp' with ⟨-, rfl⟩ | ⟨-, hp'⟩
    · exact hal
    · exact h.aligned hp'
  · rcases PageTable.page_add_cases hp' with ⟨-, rfl⟩ | ⟨-, hp'⟩
    · exact hpos
    · exact h.pos hp'
  · rcases PageTable.page_add_cases hp₁ with ⟨h₁, rfl⟩ | ⟨-, hp₁⟩ <;>
      rcases PageTable.page_add_cases hp₂ with ⟨h₂, hq⟩ | ⟨-, hp₂⟩
    · rw [h₁, h₂]
    · exact absurd hp₂ (hfresh n₂)
    · exact absurd (hq ▸ hp₁) (hfresh n₁)
    · exact h.distinct hp₁ hp₂
  · -- the parent of a leaf node has a page
    have hkeep {n' : Node} (hn' : T.page n' ≠ none) : (T.add c q).page n' ≠ none := by
      have hne : n' ≠ c := fun he => hn' (he ▸ hc)
      rw [T.page_add_of_ne hne]
      exact hn'
    by_cases hkc : Node.low k = c
    · obtain ⟨i, rfl, rfl⟩ := Node.next_low (hkc ▸ hnext)
      refine hkeep ?_
      rw [show (512 * i + j) / 512 = i by omega, hn]
      exact Option.some_ne_none p
    · rw [T.page_add_of_ne hkc] at hk
      exact hkeep (h.mid hk)
  · refine h.bare ?_
    by_cases hvc : Node.low (v / 512) = c
    · exact hvc ▸ hc
    · rw [T.page_add_of_ne hvc] at hv
      exact hv

/-- The entry of a virtual page is written. -/
theorem set (h : Holds mem T) {v : Nat} (hp : T.page (.low (v / 512)) = some p) (x : UInt64) :
    Holds (update mem (p + 8 * (v % 512)) x) (T.set v x) := by
  have hlt : v % 512 < 512 := Nat.mod_lt _ (by decide)
  refine ⟨fun {n' c' p' i} hp' hi hc' => ?_, fun {k p' i} hp' hi => ?_, h.aligned, h.pos, h.distinct, h.mid, fun {w} hw => ?_⟩
  · have hne : p' + 8 * i ≠ p + 8 * (v % 512) := by
      intro he
      obtain ⟨rfl, -⟩ := h.entry_inj hp' hp hi hlt he
      exact absurd hc' (by simp [Node.next])
    rw [update_of_ne hne]
    exact h.link hp' hi hc'
  · show _ = update T.leaf v x (512 * k + i)
    by_cases he : p' + 8 * i = p + 8 * (v % 512)
    · obtain ⟨hk, hi'⟩ := h.entry_inj hp' hp hi hlt he
      injection hk with hk
      rw [he, update_self, show 512 * k + i = v by omega, update_self]
    · have hne : 512 * k + i ≠ v := by
        rintro rfl
        rw [show (512 * k + i) / 512 = k by omega] at hp
        obtain rfl := Option.some.inj (hp'.symm.trans hp)
        exact he (by omega)
      rw [update_of_ne he, update_of_ne hne]
      exact h.leaf hp' hi
  · have hwv : w ≠ v := by
      rintro rfl
      exact absurd (hw.symm.trans hp) (by simp)
    show update T.leaf v x w = 0
    rw [update_of_ne hwv]
    exact h.bare hw

end Holds

/-- The page table of a zeroed page. -/
def emptyTable (root : Nat) : PageTable where
  page n := if n = .root then some root else none
  leaf _ := 0

theorem emptyTable_page {root p : Nat} {n : Node} (h : (emptyTable root).page n = some p) : n = .root ∧ p = root := by
  simp only [emptyTable] at h
  split at h
  · exact ⟨‹_›, (Option.some.inj h).symm⟩
  · exact absurd h (by simp)

theorem holds_emptyTable {mem : Nat → UInt64} {root e : Nat} (h : IsPage e root) (hmem : ∀ a, OnPage root a → mem a = 0) :
    Holds mem (emptyTable root) := by
  refine ⟨fun {n c p j} hp hj hc => ?_, fun {k p j} hp hj => ?_, fun hp => ?_, fun hp => ?_, fun hp hp' => ?_,
    fun {k} hk => absurd rfl hk, fun _ => rfl⟩
  · obtain ⟨rfl, rfl⟩ := emptyTable_page hp
    rw [hmem _ (onPage_word hj), target_zero]
    exact (if_neg (Node.next_ne_root hc)).symm
  · exact absurd (emptyTable_page hp).1 (by simp)
  · exact (emptyTable_page hp).2 ▸ h.aligned
  · exact (emptyTable_page hp).2 ▸ h.pos
  · rw [(emptyTable_page hp).1, (emptyTable_page hp').1]

/-! ## Walking -/

theorem px_zero (va : Nat) : PX 0 va = va / PGSIZE % 512 := rfl

theorem px_one (va : Nat) : 512 * (va / PGSIZE / 512 / 512) + PX 1 va = va / PGSIZE / 512 := by
  show 512 * (va / 4096 / 512 / 512) + va / 2097152 % 512 = va / 4096 / 512
  omega

theorem px_two {va : Nat} (h : va < MAXVA) : PX 2 va = va / PGSIZE / 512 / 512 := by
  have hlt : va < 274877906944 := h
  show va / 1073741824 % 512 = va / 4096 / 512 / 512
  omega

theorem px_lt (level va : Nat) : PX level va < 512 := Nat.mod_lt _ (by decide)

/-- The nodes on the walk to virtual page `v`. -/
def OnPath (v : Nat) (c : Node) : Prop := c = .mid (v / 512 / 512) ∨ c = .low (v / 512)

theorem next_top {va : Nat} (h : va < MAXVA) : Node.root.next (PX 2 va) = some (.mid (va / PGSIZE / 512 / 512)) := by
  rw [px_two h, Node.next]

theorem next_middle (va : Nat) :
    (Node.mid (va / PGSIZE / 512 / 512)).next (PX 1 va) = some (.low (va / PGSIZE / 512)) := by
  rw [Node.next, px_one]

/-- How many nodes of `N` have no page. -/
def PageTable.missing (T : PageTable) (N : Finset Node) : Nat := (N.filter fun n => T.page n = none).card

theorem PageTable.missing_pos {T : PageTable} {N : Finset Node} {c : Node} (hN : c ∈ N) (hc : T.page c = none) :
    0 < T.missing N := Finset.card_pos.2 ⟨c, Finset.mem_filter.2 ⟨hN, hc⟩⟩

theorem PageTable.missing_add {T : PageTable} {N : Finset Node} {c : Node} (hN : c ∈ N) (hc : T.page c = none) (q : Nat) :
    (T.add c q).missing N + 1 = T.missing N := by
  have herase : (N.filter fun n => (T.add c q).page n = none) = (N.filter fun n => T.page n = none).erase c := by
    ext n
    by_cases hn : n = c
    · simp [hn]
    · simp [T.page_add_of_ne hn, hn]
  unfold missing
  rw [herase]
  exact Finset.card_erase_add_one (Finset.mem_filter.2 ⟨hN, hc⟩)

/-- Free pages became nodes, of those that `P` allows: there are as many fewer free as nodes without a page. -/
structure Grown (P : Node → Prop) (T : PageTable) (l : List Nat) (T' : PageTable) (m : List Nat) : Prop where
  keep : ∀ {n p}, T.page n = some p → T'.page n = some p
  room : ∀ N : Finset Node, (∀ c, P c → c ∈ N) → T.missing N + m.length = T'.missing N + l.length

namespace Grown

variable {P P' : Node → Prop} {T T' T'' : PageTable} {l l' l'' : List Nat}

theorem refl : Grown P T l T l := ⟨fun h => h, fun _ _ => rfl⟩

theorem trans (h : Grown P T l T' l') (h' : Grown P T' l' T'' l'') : Grown P T l T'' l'' := by
  refine ⟨fun hp => h'.keep (h.keep hp), fun N hN => ?_⟩
  have hfst := h.room N hN
  have hsnd := h'.room N hN
  omega

theorem mono (h : Grown P T l T' l') (hP : ∀ c, P c → P' c) : Grown P' T l T' l' :=
  ⟨h.keep, fun N hN => h.room N fun c hc => hN c (hP c hc)⟩

theorem add {c : Node} {a : Nat} (hP : P c) (hc : T.page c = none) : Grown P T (a :: l) (T.add c a) l := by
  refine ⟨fun hp => ?_, fun N hN => ?_⟩
  · rw [T.page_add_of_ne]
    · exact hp
    · rintro rfl
      exact absurd (hc.symm.trans hp) (by simp)
  · rw [← PageTable.missing_add (hN c hP) hc a, List.length_cons]
    omega

/-- With pages enough for the nodes of `N`, none of them is missing once the pages have run out. -/
theorem not_stuck (h : Grown P T l T' []) {N : Finset Node} (hN : ∀ c, P c → c ∈ N) (hroom : T.missing N ≤ l.length)
    {c : Node} (hP : P c) (hc : T'.page c = none) : False := by
  have hpos := PageTable.missing_pos (hN c hP) hc
  have heq := h.room N hN
  rw [List.length_nil] at heq
  omega

end Grown

/-- A page table that is being built, and free pages apart from it. -/
structure Building (root : Nat) (s : Phys) (T : PageTable) (l : List Nat) : Prop where
  holds : Holds s.mem T
  root : T.page .root = some root
  free : FreeList s l
  apart : ∀ a ∈ l, ∀ n, T.page n ≠ some a

namespace Building

variable {root p va level : Nat} {s : Phys} {T : PageTable} {l : List Nat} {n c : Node}

/-- A word of the page table is not the link of a free page. -/
theorem word_ne (h : Building root s T l) (hn : T.page n = some p) {j a : Nat} (hj : j < 512) (ha : a ∈ l) :
    a ≠ p + 8 * j := by
  rintro rfl
  exact h.holds.not_onPage hn hj (h.free.page _ ha).aligned (h.apart _ ha) (onPage_self _)

/-- A free page becomes the page of a node. -/
theorem link {t : Phys} {j a : Nat} {m : List Nat} (h : Building root s T (a :: m)) (hn : T.page n = some p)
    (hj : j < 512) (hnext : n.next j = some c) (hc : T.page c = none) (ht : FreeList t m)
    (hmem : t.mem = zeroPage s.mem a) (hnew : a ∉ m) :
    Building root { t with mem := update (zeroPage t.mem a) (p + 8 * j) (PA2PTE a ||| PTE_V) } (T.add c a) m := by
  have ha := h.free.page a List.mem_cons_self
  have htwice : zeroPage t.mem a = zeroPage s.mem a := by
    funext b
    rw [hmem]
    by_cases hb : OnPage a b
    · rw [zeroPage_on hb, zeroPage_on hb]
    · rw [zeroPage_off hb]
  refine ⟨?_, ?_, ht.congr (fun b hb => ?_) rfl rfl, fun b hb n' hn' => ?_⟩
  · rw [htwice]
    exact h.holds.add hn hj hnext hc ha.aligned ha.pos (Nat.lt_trans ha.upper (by decide)) (h.apart a List.mem_cons_self)
  · exact (Grown.add (P := fun _ => True) (l := m) trivial hc).keep h.root
  · have hbl := List.mem_cons_of_mem a hb
    have hoff : ¬ OnPage a b := fun hon =>
      hnew (hon.eq ha.aligned (h.free.page b hbl).aligned (onPage_self b) ▸ hb)
    show update (zeroPage t.mem a) (p + 8 * j) _ b = t.mem b
    rw [update_of_ne (h.word_ne hn hj hbl), zeroPage_off hoff]
  · rcases PageTable.page_add_cases hn' with ⟨-, rfl⟩ | ⟨-, hn'⟩
    · exact hnew hb
    · exact h.apart b (List.mem_cons_of_mem a hb) n' hn'

/-- A round of `walk` goes down to a node, which it links if need be and if there is a page. -/
theorem wp_walkFrom (h : Building root s T l) (hn : T.page n = some p) (hnext : n.next (PX (level + 1) va) = some c)
    {Q : Nat → Phys → Prop} {E : Halt → Prop} (hstuck : l = [] → T.page c = none → Q 0 s)
    (hQ : ∀ T' m q t, Building root t T' m → Grown (· = c) T l T' m → T'.leaf = T.leaf → T'.page c = some q →
      (walkFrom va true level q).wp Q E t) : (walkFrom va true (level + 1) p).wp Q E s := by
  have hlt := px_lt (level + 1) va
  have hlink := h.holds.link hn hlt hnext
  unfold target at hlink
  unfold walkFrom
  rw [wp_bind, wp_gets, wp_ite]
  refine ⟨fun hvalid => ?_, fun hinvalid => ?_⟩
  · rw [if_pos hvalid] at hlink
    exact hQ T l _ s h .refl rfl hlink.symm
  · rw [if_neg hinvalid] at hlink
    simp only [wp_bind, wp_ite, wp_modify, wp_pure]
    refine ⟨fun htrue => absurd htrue (by simp), fun _ => wp_post (wp_kalloc h.free) fun a t ht => ?_⟩
    cases ht with
    | none => exact ⟨fun _ => hstuck rfl hlink.symm, fun hne => absurd rfl hne⟩
    | @page _ _ m hfree hnew hpage hmem hend =>
        refine ⟨fun hz => absurd hz (Nat.pos_iff_ne_zero.1 hpage.pos), fun _ => ?_⟩
        exact hQ _ m a _ (h.link hn hlt hnext hlink.symm hfree hmem hnew) (.add rfl hlink.symm) rfl (T.page_add_self c a)

/-- The result of `walk`: the entry of the page, or 0 when the pages have run out. -/
inductive Walked (va : Nat) (T : PageTable) (m : List Nat) : Nat → Prop
  | found {q : Nat} : T.page (.low (va / PGSIZE / 512)) = some q → Walked va T m (q + 8 * (va / PGSIZE % 512))
  | stuck {c : Node} : m = [] → OnPath (va / PGSIZE) c → T.page c = none → Walked va T m 0

theorem wp_walk (h : Building root s T l) (hva : va < MAXVA) {E : Halt → Prop} :
    (walk root va true).wp (fun pte t => ∃ T' m, Building root t T' m ∧ Grown (OnPath (va / PGSIZE)) T l T' m ∧
      T'.leaf = T.leaf ∧ Walked va T' m pte) E s := by
  unfold walk
  rw [wp_ite]
  refine ⟨fun hle => absurd hva (Nat.not_lt.2 hle), fun _ => ?_⟩
  refine h.wp_walkFrom h.root (next_top hva) (fun hl hc => ⟨T, l, h, .refl, rfl, .stuck hl (.inl rfl) hc⟩) ?_
  intro T₁ m₁ p₁ t₁ h₁ hg₁ hleaf₁ hp₁
  have hg₁' : Grown (OnPath (va / PGSIZE)) T l T₁ m₁ := hg₁.mono fun _ => .inl
  refine h₁.wp_walkFrom hp₁ (next_middle va) (fun hl hc => ⟨T₁, m₁, h₁, hg₁', hleaf₁, .stuck hl (.inr rfl) hc⟩) ?_
  intro T₂ m₂ p₂ t₂ h₂ hg₂ hleaf₂ hp₂
  exact ⟨T₂, m₂, h₂, hg₁'.trans (hg₂.mono fun _ => .inr), hleaf₂.trans hleaf₁, .found hp₂⟩

/-- The entry of virtual page `v` is written. -/
theorem set (h : Building root s T l) {v q : Nat} (hq : T.page (.low (v / 512)) = some q) (x : UInt64) :
    Building root { s with mem := update s.mem (q + 8 * (v % 512)) x } (T.set v x) l := by
  refine ⟨h.holds.set hq x, h.root, h.free.congr (fun a ha => ?_) rfl rfl, h.apart⟩
  exact update_of_ne (h.word_ne hq (Nat.mod_lt _ (by decide)) ha) _ _

end Building

/-! ## The map that `walk` reads -/

/-- The valid leaf entry that the three-level walk finds. -/
def leafEntry (s : Phys) (pagetable va : Nat) : Option UInt64 :=
  match (walk pagetable va false).run s with
  | .ok (pte, _) => if pte ≠ 0 ∧ s.mem pte &&& PTE_V ≠ 0 then some (s.mem pte) else none
  | .error _ => none

/-- The address of the entry of virtual page `v`, 0 if a node is missing. -/
def PageTable.slot (T : PageTable) (v : Nat) : Nat :=
  match T.page (.low (v / 512)) with
  | none => 0
  | some q => q + 8 * (v % 512)

namespace Holds

variable {s : Phys} {T : PageTable} {root va : Nat}

theorem slot_eq_zero (h : Holds s.mem T) {v : Nat} : T.slot v = 0 ↔ ∃ c, OnPath v c ∧ T.page c = none := by
  unfold PageTable.slot
  cases hlow : T.page (.low (v / 512)) with
  | none => exact ⟨fun _ => ⟨_, .inr rfl, hlow⟩, fun _ => rfl⟩
  | some q =>
      have hpos := h.pos hlow
      refine ⟨fun (hz : q + 8 * (v % 512) = 0) => by omega, ?_⟩
      rintro ⟨c, rfl | rfl, hc⟩
      · exact absurd hc (h.mid (by rw [hlow]; exact Option.some_ne_none q))
      · exact absurd (hc.symm.trans hlow) (by simp)

/-- `walk` that may not take pages changes nothing. -/
theorem wp_walk (h : Holds s.mem T) (hroot : T.page .root = some root) (hva : va < MAXVA) {E : Halt → Prop} :
    (walk root va false).wp (fun pte t => t = s ∧ pte = T.slot (va / PGSIZE)) E s := by
  have hround {n c : Node} {p level : Nat} (hn : T.page n = some p) (hnext : n.next (PX (level + 1) va) = some c)
      {Q : Nat → Phys → Prop} (hnone : T.page c = none → Q 0 s)
      (hsome : ∀ q, T.page c = some q → (walkFrom va false level q).wp Q E s) :
      (walkFrom va false (level + 1) p).wp Q E s := by
    have hlink := h.link hn (px_lt (level + 1) va) hnext
    unfold target at hlink
    unfold walkFrom
    rw [wp_bind, wp_gets, wp_ite]
    refine ⟨fun hvalid => ?_, fun hinvalid => ?_⟩
    · rw [if_pos hvalid] at hlink
      exact hsome _ hlink.symm
    · rw [if_neg hinvalid] at hlink
      exact (wp_ite _ _ _).2 ⟨fun _ => hnone hlink.symm, fun hf => absurd rfl hf⟩
  unfold walk
  rw [wp_ite]
  refine ⟨fun hle => absurd hva (Nat.not_lt.2 hle), fun _ => ?_⟩
  refine hround hroot (next_top hva) (fun hc => ⟨rfl, ?_⟩) fun p hp => ?_
  · exact (h.slot_eq_zero.2 ⟨_, .inl rfl, hc⟩).symm
  refine hround hp (next_middle va) (fun hc => ⟨rfl, ?_⟩) fun q hq => ⟨rfl, ?_⟩
  · exact (h.slot_eq_zero.2 ⟨_, .inr rfl, hc⟩).symm
  · rw [PageTable.slot, hq]
    rfl

/-- The walk finds the leaf entry of the page, if it is valid. -/
theorem leafEntry_eq (h : Holds s.mem T) (hroot : T.page .root = some root) (hva : va < MAXVA) :
    leafEntry s root va =
      if T.leaf (va / PGSIZE) &&& PTE_V ≠ 0 then some (T.leaf (va / PGSIZE)) else none := by
  obtain ⟨pte, t, hrun, rfl, hpte⟩ := wp_total (h.wp_walk hroot hva)
  have hentry : leafEntry t root va = if pte ≠ 0 ∧ t.mem pte &&& PTE_V ≠ 0 then some (t.mem pte) else none := by
    rw [leafEntry, hrun]
  rw [hentry, hpte, PageTable.slot]
  cases hlow : T.page (.low (va / PGSIZE / 512)) with
  | none =>
      rw [h.bare hlow]
      rfl
  | some q =>
      have hpos := h.pos hlow
      have hword : t.mem (q + 8 * (va / PGSIZE % 512)) = T.leaf (va / PGSIZE) := by
        rw [h.leaf hlow (Nat.mod_lt _ (by decide)), Nat.div_add_mod]
      have hne : q + 8 * (va / PGSIZE % 512) ≠ 0 := by omega
      simp only [hword, hne, ne_eq, not_false_eq_true, true_and]

end Holds

/-! ## Mapping -/

/-- The entry that leads to the physical page of `pa`. -/
def leafWord (perm : UInt64) (pa : Nat) : UInt64 := PA2PTE pa ||| perm ||| PTE_V

theorem leafWord_valid (perm : UInt64) (pa : Nat) : leafWord perm pa &&& PTE_V ≠ 0 := or_valid_ne _

/-- The `n` pages from `v` on get their entries. -/
def mapped (leaf : Nat → UInt64) (perm : UInt64) (pa v n : Nat) : Nat → UInt64 :=
  fun w => if v ≤ w ∧ w < v + n then leafWord perm (pa + (w - v) * PGSIZE) else leaf w

theorem mapped_on {leaf : Nat → UInt64} {perm : UInt64} {pa v n i : Nat} (h : i < n) :
    mapped leaf perm pa v n (v + i) = leafWord perm (pa + i * PGSIZE) := by
  rw [mapped, if_pos (by omega), Nat.add_sub_cancel_left]

theorem mapped_off {leaf : Nat → UInt64} {perm : UInt64} {pa v n w : Nat} (h : w < v ∨ v + n ≤ w) :
    mapped leaf perm pa v n w = leaf w := if_neg (by omega)

theorem mapped_zero (leaf : Nat → UInt64) (perm : UInt64) (pa v : Nat) : mapped leaf perm pa v 0 = leaf := by
  funext w
  exact mapped_off (by omega)

theorem mapped_succ (leaf : Nat → UInt64) (perm : UInt64) (pa v n : Nat) :
    mapped (update leaf v (leafWord perm pa)) perm (pa + PGSIZE) (v + 1) n = mapped leaf perm pa v (n + 1) := by
  funext w
  rcases Nat.lt_trichotomy w v with hlt | rfl | hgt
  · rw [mapped_off (by omega), mapped_off (by omega), update_of_ne (by omega)]
  · have hself : mapped leaf perm pa w (n + 1) (w + 0) = leafWord perm (pa + 0 * PGSIZE) := mapped_on (Nat.succ_pos n)
    simp only [Nat.zero_mul, Nat.add_zero] at hself
    rw [mapped_off (by omega), update_self, hself]
  · by_cases hin : w < v + 1 + n
    · obtain ⟨i, rfl⟩ := Nat.exists_eq_add_of_le (show v + 1 ≤ w from hgt)
      rw [mapped_on (by omega), Nat.add_assoc v 1 i, mapped_on (by omega), Nat.add_assoc, Nat.add_mul, Nat.one_mul]
    · rw [mapped_off (by omega), mapped_off (by omega), update_of_ne (by omega)]

/-- A page that may be mapped, by walks over nodes of `P`. -/
structure Mappable (P : Node → Prop) (leaf : Nat → UInt64) (v : Nat) : Prop where
  empty : leaf v &&& PTE_V = 0
  lt : v * PGSIZE < MAXVA
  path : ∀ c, OnPath v c → P c

/-- How `mappages` ends, with `n` of `k + 1` pages mapped. -/
inductive MapEnd (P : Node → Prop) (T : PageTable) (m : List Nat) (k : Nat) : Int → Nat → Prop
  | done : MapEnd P T m k 0 (k + 1)
  | stuck {n : Nat} {c : Node} : n ≤ k → m = [] → P c → T.page c = none → MapEnd P T m k (-1) n

theorem MapEnd.succ {P : Node → Prop} {T : PageTable} {m : List Nat} {k n : Nat} {r : Int} (h : MapEnd P T m k r n) :
    MapEnd P T m (k + 1) r (n + 1) := by
  cases h with
  | done => exact .done
  | stuck hn hm hP hc => exact .stuck (Nat.succ_le_succ hn) hm hP hc

namespace Building

variable {P : Node → Prop} {root : Nat} {perm : UInt64} {E : Halt → Prop}

theorem wp_mappagesFrom : ∀ {k fuel v pa : Nat} {s : Phys} {T : PageTable} {l : List Nat}, Building root s T l → k < fuel →
    (∀ w, v ≤ w → w ≤ v + k → Mappable P T.leaf w) →
    (mappagesFrom root perm ((v + k) * PGSIZE) fuel (v * PGSIZE) pa).wp
      (fun r t => ∃ T' m n, Building root t T' m ∧ Grown P T l T' m ∧ T'.leaf = mapped T.leaf perm pa v n ∧
        MapEnd P T' m k r n) E s
  | k, fuel + 1, v, pa, s, T, l, h, hk, hmap => by
      have hv := hmap v (Nat.le_refl v) (Nat.le_add_right v k)
      have hpage : v * PGSIZE / PGSIZE = v := Nat.mul_div_cancel v (by decide)
      unfold mappagesFrom
      refine wp_seq (h.wp_walk hv.lt) ?_
      rw [hpage]
      rintro _ t ⟨T', m, ht, hg, hleaf, hw⟩
      have hg := hg.mono hv.path
      simp only [wp_ite, wp_bind, wp_gets, putWord, wp_modify, wp_pure]
      cases hw with
      | @stuck c hm hc hnone =>
          rw [hpage] at hc
          refine ⟨fun _ => ⟨T', m, 0, ht, hg, ?_, .stuck (Nat.zero_le k) hm (hv.path c hc) hnone⟩, fun hne => absurd rfl hne⟩
          rw [mapped_zero, hleaf]
      | @found q hq =>
          rw [hpage] at hq ⊢
          have hpos := ht.holds.pos hq
          have hword : t.mem (q + 8 * (v % 512)) &&& PTE_V = 0 := by
            rw [ht.holds.leaf hq (Nat.mod_lt _ (by decide)), Nat.div_add_mod, hleaf, hv.empty]
          refine ⟨fun hz => absurd hz (by omega), fun _ => ⟨fun hvalid => absurd hword hvalid, fun _ => ?_⟩⟩
          have hset := ht.set hq (leafWord perm pa)
          have hsetLeaf : (T'.set v (leafWord perm pa)).leaf = update T.leaf v (leafWord perm pa) := hleaf ▸ rfl
          have hgset : Grown P T l (T'.set v (leafWord perm pa)) m := ⟨hg.keep, hg.room⟩
          refine ⟨fun hlast => ?_, fun hnot => ?_⟩
          · have hk0 : k = 0 := by
              simp only [PGSIZE] at hlast
              omega
            refine ⟨_, m, 1, hset, hgset, ?_, hk0 ▸ .done⟩
            rw [hsetLeaf, ← mapped_succ, mapped_zero]
          · obtain ⟨j, rfl⟩ : ∃ j, k = j + 1 := Nat.exists_eq_succ_of_ne_zero fun hk0 => hnot (by rw [hk0, Nat.add_zero])
            have hnext : v * PGSIZE + PGSIZE = (v + 1) * PGSIZE := (Nat.succ_mul v PGSIZE).symm
            rw [hnext, show v + (j + 1) = v + 1 + j by omega]
            refine wp_post (wp_mappagesFrom hset (Nat.lt_of_succ_lt_succ hk) fun w hw hw' => ?_) ?_
            · have hwm := hmap w (by omega) (by omega)
              refine ⟨?_, hwm.lt, hwm.path⟩
              rw [hsetLeaf, update_of_ne (by omega)]
              exact hwm.empty
            · rintro r u ⟨T'', m', n, hu, hg', hleaf', hend⟩
              refine ⟨T'', m', n + 1, hu, hgset.trans hg', ?_, hend.succ⟩
              rw [hleaf', hsetLeaf, mapped_succ]

/-- `mappages` of the pages from `v` to `v + k`. -/
theorem wp_mappages {va size pa : Nat} {s : Phys} {T : PageTable} {l : List Nat} (h : Building root s T l) (v k : Nat)
    (hv : va / PGSIZE = v) (hlast : (va + size - 1) / PGSIZE = v + k) (hsize : 0 < size)
    (hmap : ∀ w, v ≤ w → w ≤ v + k → Mappable P T.leaf w) :
    (mappages root pa va size perm).wp
      (fun r t => ∃ T' m n, Building root t T' m ∧ Grown P T l T' m ∧ T'.leaf = mapped T.leaf perm pa v n ∧
        MapEnd P T' m k r n) E s := by
  have hlt := (hmap (v + k) (Nat.le_add_right v k) (Nat.le_refl _)).lt
  rw [show MAXVA = 274877906944 by norm_num [MAXVA]] at hlt
  have hmod : (va + size - 1) % 2 ^ 64 = va + size - 1 := by
    refine Nat.mod_eq_of_lt ?_
    simp only [PGSIZE] at hlt hlast
    omega
  unfold mappages
  rw [wp_ite, hmod, pgrounddown, pgrounddown, hv, hlast]
  refine ⟨fun hz => absurd hz (Nat.pos_iff_ne_zero.1 hsize), fun _ => h.wp_mappagesFrom ?_ hmap⟩
  have hfuel : MAXVA / PGSIZE + 1 = 67108865 := by norm_num [MAXVA, PGSIZE]
  simp only [PGSIZE] at hlt
  omega

end Building

/-- The pages of `[va, va+size)`. -/
def rangePages (va size : Nat) : Nat := (va + size - 1) / PGSIZE - va / PGSIZE + 1

theorem div_of_onPage {v i a : Nat} (h : OnPage (v * PGSIZE + i * PGSIZE) a) : a / PGSIZE = v + i := by
  obtain ⟨hlo, hhi⟩ := h
  simp only [PGSIZE] at *
  omega

theorem pgrounddown_add (a i : Nat) : pgrounddown (a + i * PGSIZE) = pgrounddown a + i * PGSIZE := by
  rw [pgrounddown, Nat.add_mul_div_right _ _ (by decide), Nat.add_mul, pgrounddown]

theorem perm_lt {perm : UInt64} (h : perm &&& (PTE_R ||| PTE_W ||| PTE_X ||| PTE_U) = perm) :
    (perm ||| PTE_V).toNat < 1024 := by
  rw [UInt64.toNat_or]
  refine Nat.or_lt_two_pow (n := 10) ?_ (by decide)
  rw [← h, UInt64.toNat_and]
  exact Nat.lt_of_le_of_lt Nat.and_le_right (by decide)

/-- The leaf that the walk finds translates to physical page `page`, with these permissions. -/
def Maps (s : Phys) (root va page : Nat) (perm : UInt64) : Prop :=
  ∃ e, leafEntry s root va = some e ∧ PTE2PA e = page ∧ PTE_FLAGS e = perm ||| PTE_V

theorem Holds.maps {s : Phys} {T : PageTable} {root va pa : Nat} {perm : UInt64} (h : Holds s.mem T)
    (hroot : T.page .root = some root) (hva : va < MAXVA) (hpa : pa < 2 ^ 64) (hperm : (perm ||| PTE_V).toNat < 1024)
    (hleaf : T.leaf (va / PGSIZE) = leafWord perm pa) : Maps s root va (pgrounddown pa) perm := by
  refine ⟨leafWord perm pa, ?_, ?_, ?_⟩
  · rw [h.leafEntry_eq hroot hva, hleaf, if_pos (leafWord_valid perm pa)]
  · rw [leafWord, UInt64.or_assoc, pte2pa_or hpa hperm]
  · rw [leafWord, UInt64.or_assoc, flags_or hperm]

/-- What `mappages` does to the map: the first `n` pages of the range are mapped, and nothing else changes. -/
structure MapsRange (s t : Phys) (root pa va : Nat) (perm : UInt64) (n : Nat) : Prop where
  range : ∀ i < n, ∀ a, OnPage (pgrounddown va + i * PGSIZE) a → Maps t root a (pgrounddown pa + i * PGSIZE) perm
  frame : ∀ a < MAXVA, (∀ i < n, ¬ OnPage (pgrounddown va + i * PGSIZE) a) → leafEntry t root a = leafEntry s root a

/-- **`mappages` and `walk` form a map**: all pages of the range are mapped, or a part of them from its start when the
pages run out; a walk that takes no pages changes nothing, and finds no entry where a level is absent. -/
theorem mappages_map {s : Phys} {T : PageTable} {root pa va size : Nat} {perm : UInt64} {l : List Nat}
    (hT : Holds s.mem T) (hroot : T.page .root = some root) (hl : FreeList s l)
    (hapart : ∀ a ∈ l, ∀ n, T.page n ≠ some a) (hsize : 0 < size) (hva : va + size ≤ MAXVA) (hpa : pa < 2 ^ 56)
    (hperm : perm &&& (PTE_R ||| PTE_W ||| PTE_X ||| PTE_U) = perm)
    (hfree : ∀ a, va ≤ a → a < va + size → leafEntry s root a = none) :
    (∃ r t T' n, (mappages root pa va size perm).run s = .ok (r, t) ∧ Holds t.mem T' ∧ T'.page .root = some root ∧
      (r = 0 ∧ n = rangePages va size ∨ r = -1 ∧ n < rangePages va size) ∧ MapsRange s t root pa va perm n) ∧
    ∀ a < MAXVA, ∃ pte, (walk root a false).run s = .ok (pte, s) ∧
      (pte = 0 ↔ ∃ c, OnPath (a / PGSIZE) c ∧ T.page c = none) := by
  refine ⟨?_, fun a ha => ?_⟩
  · have hmax : MAXVA = 274877906944 := by norm_num [MAXVA]
    have hle : va / PGSIZE ≤ (va + size - 1) / PGSIZE := Nat.div_le_div_right (by omega)
    obtain ⟨k, hk⟩ := Nat.exists_eq_add_of_le hle
    have hpages : rangePages va size = k + 1 := by
      rw [rangePages, hk, Nat.add_sub_cancel_left]
    have hmap (w : Nat) (hw : va / PGSIZE ≤ w) (hw' : w ≤ va / PGSIZE + k) : Mappable (fun _ => True) T.leaf w := by
      -- an address of the range on page `w`
      obtain ⟨a, ha, hlo, hhi⟩ : ∃ a, a / PGSIZE = w ∧ va ≤ a ∧ a < va + size := by
        refine ⟨max va (w * PGSIZE), ?_, ?_, ?_⟩ <;> simp only [PGSIZE] at * <;> omega
      have hnone := hT.leafEntry_eq hroot (show a < MAXVA by omega)
      rw [hfree a hlo hhi, ha] at hnone
      refine ⟨?_, ?_, fun _ _ => trivial⟩
      · by_contra hvalid
        rw [if_pos hvalid] at hnone
        exact absurd hnone (by simp)
      · simp only [PGSIZE] at *
        omega
    have hstart : Building root s T l := ⟨hT, hroot, hl, hapart⟩
    have hmapped : (mappages root pa va size perm).wp _ (fun _ => False) s := hstart.wp_mappages _ k rfl hk hsize hmap
    obtain ⟨r, t, hrun, T', m, n, ht, -, hleaf, hend⟩ := wp_total hmapped
    have hn : n ≤ k + 1 := by
      cases hend with
      | done => exact Nat.le_refl _
      | stuck hn => exact Nat.le_succ_of_le hn
    refine ⟨r, t, T', n, hrun, ht.holds, ht.root, ?_, fun i hi a ha => ?_, fun a ha hoff => ?_⟩
    · rw [hpages]
      cases hend with
      | done => exact .inl ⟨rfl, rfl⟩
      | stuck hn => exact .inr ⟨rfl, Nat.lt_succ_of_le hn⟩
    · have hdiv := div_of_onPage ha
      rw [← pgrounddown_add]
      refine ht.holds.maps ht.root ?_ ?_ (perm_lt hperm) ?_
      · simp only [PGSIZE] at *
        omega
      · simp only [PGSIZE] at *
        omega
      · rw [hdiv, hleaf, mapped_on hi]
    · rw [ht.holds.leafEntry_eq ht.root ha, hT.leafEntry_eq hroot ha, hleaf, mapped_off]
      by_contra hin
      refine hoff (a / PGSIZE - va / PGSIZE) (by omega) ?_
      rw [OnPage, pgrounddown]
      simp only [PGSIZE] at *
      omega
  · obtain ⟨pte, t, hrun, rfl, rfl⟩ := wp_total (hT.wp_walk hroot ha)
    exact ⟨_, hrun, hT.slot_eq_zero⟩

/-- A zeroed page at `0x80001000`, and two free pages after it. -/
def twoFree : Phys where
  endAddress := KERNBASE
  freeMemList := 0x80002000
  mem a := if a = 0x80002000 then 0x80003000 else 0

theorem freeList_twoFree : FreeList twoFree [0x80002000, 0x80003000] := by
  refine ⟨⟨rfl, rfl, rfl⟩, by decide, fun a ha => ?_⟩
  rcases List.mem_cons.1 ha with rfl | ha
  · exact ⟨by decide, by decide, by decide, by decide⟩
  · obtain rfl := List.mem_singleton.1 ha
    exact ⟨by decide, by decide, by decide, by decide⟩

theorem holds_twoFree : Holds twoFree.mem (emptyTable 0x80001000) := by
  refine holds_emptyTable (e := KERNBASE) ⟨by decide, by decide, by decide, by decide⟩ fun a ha => if_neg ?_
  rintro rfl
  exact absurd ha (by decide)

theorem mappages_twoFree : ∃ r t T' n,
    (mappages 0x80001000 0x5800 0x1800 0x1000 (PTE_R ||| PTE_W)).run twoFree = .ok (r, t) ∧ Holds t.mem T' ∧
      T'.page .root = some 0x80001000 ∧
      (r = 0 ∧ n = rangePages 0x1800 0x1000 ∨ r = -1 ∧ n < rangePages 0x1800 0x1000) ∧
      MapsRange twoFree t 0x80001000 0x5800 0x1800 (PTE_R ||| PTE_W) n := by
  refine (mappages_map holds_twoFree rfl freeList_twoFree (fun a ha n hn => ?_) (by decide) (by decide) (by decide)
    (by decide) fun a ha ha' => ?_).1
  · obtain ⟨-, rfl⟩ := emptyTable_page hn
    exact absurd ha (by decide)
  · rw [holds_twoFree.leafEntry_eq rfl (Nat.lt_trans ha' (by decide))]
    have hzero : (0 : UInt64) &&& PTE_V = 0 := by decide
    exact if_neg fun hvalid => hvalid hzero

end RiscvOsLab.Kernel
