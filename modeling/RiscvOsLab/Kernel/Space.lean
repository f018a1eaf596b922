import RiscvOsLab.Kernel.Pages
import RiscvOsLab.Lib.Trans

/-!
# The kernel's address space over whole runs

`userinit` and `start_main` with the page table, and the runs after them: calls, user code, and what the kernel stores
through the pointers that user code gives it.

* `Translates s root perm` : the page table maps what `perm` gives a permission to, to itself, and nothing else;
* `Space` : the page table that `userinit` leaves, and the pages that are reserved for it;
* `SpaceStep` : the calls, with what they store through the pointers they are given, and user code;
* `space_reach` : the page table stays, in every run in which no pointer leads out of the two user pages.
-/

namespace RiscvOsLab.Kernel

open Prog Function

/-- `*a |= x`. -/
def orWord (a : Nat) (x : UInt64) : Prog Phys Unit :=
  modify fun s => { s with mem := update s.mem a (s.mem a ||| x) }

/-- `sizeof(proczero_code)`. -/
def PROCZERO_SIZE : Nat := 1416

/-- The user program is copied. -/
def copyCode (proczero : Nat → UInt64) (dst : Nat) : Prog Phys Unit :=
  modify fun s => { s with mem := fun a => if dst ≤ a ∧ a < dst + PROCZERO_SIZE then proczero (a - dst) else s.mem a }

namespace Paged

/-- `userinit`, with the page table; the pages of the user code and of the user stack. -/
def userinit (proczero : Nat → UInt64) (pagetable : Nat) : Prog Machine (Nat × Nat) := do
  match ← allocproc with
  | none => .panic "userinit: allocproc failed"
  | some p =>
      let kstack ← liftPhys kalloc
      modify fun s => s.modProc p fun v => { v with kstack }
      if kstack = 0 then .panic "userinit: kalloc kstack failed" else
      let code ← liftPhys kalloc
      if code = 0 then .panic "userinit: kalloc user code failed" else
      liftPhys (copyCode proczero code)
      let pte ← liftPhys (walk pagetable code false)
      if pte = 0 then .panic "userinit: walk user code failed" else
      liftPhys (orWord pte (PTE_X ||| PTE_U))
      let stack ← liftPhys kalloc
      if stack = 0 then .panic "userinit: kalloc user stack failed" else
      let pte ← liftPhys (walk pagetable stack false)
      if pte = 0 then .panic "userinit: walk user stack failed" else
      liftPhys (orWord pte PTE_U)
      let trapframe ← gets fun s => (s.proc p).trapframe
      liftPhys (modify fun s => { s with mem := zeroPage s.mem trapframe })
      liftPhys (putWord (trapframe + TF_EPC) (UInt64.ofNat code))
      liftPhys (putWord (trapframe + TF_SP) (UInt64.ofNat (stack + PGSIZE)))
      modify fun s => s.modProc p fun v => { v with parent := none }
      modify fun s => s.modProc p fun v => { v with status := .ready }
      return (code, stack)

/-- `start_main` up to `scheduler`, with the page table; its root and the two user pages. -/
def startMain (etext : Nat) (proczero : Nat → UInt64) : Prog Machine (Nat × Nat × Nat) := do
  liftPhys kinit
  let pagetable ← liftPhys (kvmininit etext)
  procinit
  liftFiles (Fs.liftFs (Fs.lift Fs.binit))
  liftFiles (Fs.liftFs (Fs.fsinit Fs.ROOTDEV))
  let (code, stack) ← userinit proczero pagetable
  return (pagetable, code, stack)

/-- The kernel at the end of `start_main`, over an image of `mkfs`. The linker puts the kernel's data after its text, and
`kvmininit` has pages enough. -/
def Booted (etext root code stack : Nat) (s : Machine) : Prop :=
  ∃ total img endAddress proczero, Mkfs.Makes total img ∧ etext ≤ endAddress ∧ 70 ≤ npages endAddress ∧
    (startMain etext proczero).run (Machine.image img.blocks endAddress) = .ok ((root, code, stack), s)

end Paged

/-! ## Permissions -/

def RW : UInt64 := PTE_R ||| PTE_W
def RX : UInt64 := PTE_R ||| PTE_X

/-- What `kvmininit` maps, with the permission bits. -/
def kernelPerm (etext va : Nat) : Option UInt64 :=
  if OnPage UART0 va ∨ OnPage VIRTIO0 va ∨ PLIC ≤ va ∧ va < PLIC + 0x400000 then some RW
  else if KERNBASE ≤ va ∧ va < etext then some RX
  else if KERNBASE ≤ va ∧ va < PHYSTOP then some RW
  else none

theorem kernelPerm_some {etext va : Nat} {f : UInt64} (h : kernelPerm etext va = some f) : f = RW ∨ f = RX := by
  unfold kernelPerm at h
  split_ifs at h
  · exact .inl (Option.some.inj h).symm
  · exact .inr (Option.some.inj h).symm
  · exact .inl (Option.some.inj h).symm

/-- What is mapped once the two user pages are made. -/
def userPerm (etext code stack va : Nat) : Option UInt64 :=
  if OnPage code va then some (RW ||| PTE_X ||| PTE_U)
  else if OnPage stack va then some (RW ||| PTE_U)
  else kernelPerm etext va

/-- The three-level walk finds a valid leaf for the addresses that have a permission, which translates them to themselves
with exactly this permission, and for no other. -/
def Translates (s : Phys) (root : Nat) (perm : Nat → Option UInt64) : Prop :=
  ∀ va < MAXVA, match perm va with
    | none => leafEntry s root va = none
    | some f => ∃ e, leafEntry s root va = some e ∧ PTE2PA e + va % PGSIZE = va ∧ PTE_FLAGS e = f ||| PTE_V

/-- The leaf entries of a permission. -/
def Leaves (leaf : Nat → UInt64) (perm : Nat → Option UInt64) : Prop :=
  ∀ va < MAXVA, match perm va with
    | none => leaf (va / PGSIZE) = 0
    | some f => leaf (va / PGSIZE) = identity f (va / PGSIZE) ∧ (f ||| PTE_V).toNat < 1024

theorem Holds.translates {s : Phys} {T : PageTable} {root : Nat} {perm : Nat → Option UInt64} (h : Holds s.mem T)
    (hroot : T.page .root = some root) (hleaf : Leaves T.leaf perm) : Translates s root perm := by
  intro va hva
  have hentry := h.leafEntry_eq hroot hva
  have hl := hleaf va hva
  cases hp : perm va with
  | none =>
      rw [hp] at hl
      simp only at hl ⊢
      rw [hentry, hl]
      rfl
  | some f =>
      rw [hp] at hl
      simp only at hl ⊢
      obtain ⟨hl, hf⟩ := hl
      have hlt : va / PGSIZE * PGSIZE < 2 ^ 64 :=
        Nat.lt_of_le_of_lt (Nat.div_mul_le_self va PGSIZE) (Nat.lt_trans hva (by decide))
      obtain ⟨e, he, hpage, hflags⟩ := h.maps hroot hva hlt hf hl
      refine ⟨e, he, ?_, hflags⟩
      rw [hpage, pgrounddown_of_aligned (Nat.mul_mod_left _ _)]
      exact Nat.div_add_mod' va PGSIZE

theorem kernelPerm_page (e va : Nat) : kernelPerm (e * PGSIZE) va =
    if va / PGSIZE = 65536 ∨ va / PGSIZE = 65537 ∨ 49152 ≤ va / PGSIZE ∧ va / PGSIZE < 50176 then some RW
    else if 524288 ≤ va / PGSIZE ∧ va / PGSIZE < e then some RX
    else if 524288 ≤ va / PGSIZE ∧ va / PGSIZE < 557056 then some RW
    else none := by
  have huart : OnPage UART0 va ↔ va / PGSIZE = 65536 := by
    simp only [OnPage, UART0, PGSIZE]
    omega
  have hvirtio : OnPage VIRTIO0 va ↔ va / PGSIZE = 65537 := by
    simp only [OnPage, VIRTIO0, PGSIZE]
    omega
  have hplic : PLIC ≤ va ∧ va < PLIC + 0x400000 ↔ 49152 ≤ va / PGSIZE ∧ va / PGSIZE < 50176 := by
    simp only [PLIC, PGSIZE]
    omega
  have htext : KERNBASE ≤ va ∧ va < e * PGSIZE ↔ 524288 ≤ va / PGSIZE ∧ va / PGSIZE < e := by
    simp only [KERNBASE, PGSIZE]
    omega
  have hdata : KERNBASE ≤ va ∧ va < PHYSTOP ↔ 524288 ≤ va / PGSIZE ∧ va / PGSIZE < 557056 := by
    rw [phystop_eq]
    simp only [KERNBASE, PGSIZE]
    omega
  simp only [kernelPerm, huart, hvirtio, hplic, htext, hdata]

/-- What `kvmininit` leaves is what it maps. -/
theorem leaves_kernelLeaf {etext : Nat} (h : TextEnd etext) : Leaves (kernelLeaf etext) (kernelPerm etext) := by
  obtain ⟨e, rfl, hlo, hhi⟩ := h.page
  have hbound : (RW ||| PTE_V).toNat < 1024 ∧ (RX ||| PTE_V).toNat < 1024 := by decide
  intro va hva
  rw [kernelLeaf_page, kernelPerm_page]
  by_cases hdev : va / PGSIZE = 65536 ∨ va / PGSIZE = 65537 ∨ 49152 ≤ va / PGSIZE ∧ va / PGSIZE < 50176
  · rw [if_pos hdev, if_pos hdev]
    exact ⟨rfl, hbound.1⟩
  rw [if_neg hdev, if_neg hdev]
  by_cases hx : 524288 ≤ va / PGSIZE ∧ va / PGSIZE < e
  · rw [if_pos hx, if_pos hx]
    exact ⟨rfl, hbound.2⟩
  rw [if_neg hx, if_neg hx]
  by_cases hd : 524288 ≤ va / PGSIZE ∧ va / PGSIZE < 557056
  · rw [if_pos hd, if_pos (by omega)]
    exact ⟨rfl, hbound.1⟩
  · rw [if_neg hd, if_neg (by omega)]

/-- `kvmininit` with pages enough: it panics nowhere, and maps what it should. -/
theorem kvmininit_translates {etext : Nat} {s : Phys} {l : List Nat} (h : TextEnd etext) (hl : FreeList s l)
    (hroom : 70 ≤ l.length) :
    ∃ root t, (kvmininit etext).run s = .ok (root, t) ∧ Translates t root (kernelPerm etext) := by
  have hspare : 70 + 0 ≤ l.length := hroom
  obtain ⟨root, t, hrun, -, T, m, hT, hleaf, -⟩ := wp_total (wp_kvmininit h hl hspare)
  refine ⟨root, t, hrun, hT.holds.translates hT.root ?_⟩
  rw [hleaf]
  exact leaves_kernelLeaf h

/-! ## The two user pages -/

theorem identity_or (f x : UInt64) (v : Nat) : identity f v ||| x = identity (f ||| x) v := by
  unfold identity leafWord
  rw [UInt64.or_assoc, UInt64.or_assoc, UInt64.or_assoc, UInt64.or_assoc, UInt64.or_comm PTE_V x]

namespace Building

variable {root pa : Nat} {s t : Phys} {T : PageTable} {l : List Nat}

/-- A free page is taken. -/
theorem taken {m : List Nat} (h : Building root s T (pa :: m)) (ht : FreeList t m) (hmem : t.mem = zeroPage s.mem pa) :
    Building root t T m := by
  have hpa := h.free.page pa List.mem_cons_self
  refine ⟨h.holds.congr fun n p j hp hj => ?_, h.root, ht, fun a ha => h.apart a (List.mem_cons_of_mem _ ha)⟩
  rw [hmem, zeroPage_off (h.holds.not_onPage hp hj hpa.aligned (h.apart pa List.mem_cons_self))]

/-- A page that is neither free nor of the table is written. -/
theorem scribbled (h : Building root s T l) (hal : pa % PGSIZE = 0) (hT : ∀ n, T.page n ≠ some pa) (hl : pa ∉ l)
    (mem : Nat → UInt64) (hmem : ∀ a, ¬ OnPage pa a → mem a = s.mem a) : Building root { s with mem } T l := by
  refine ⟨h.holds.congr fun n p j hp hj => ?_, h.root, h.free.congr_page hal hl hmem rfl rfl, h.apart⟩
  exact hmem _ (h.holds.not_onPage hp hj hal hT)

/-- `walk` finds the entry of a page that is mapped; bits are added to it. -/
theorem wp_grant (h : Building root s T l) {va : Nat} (hva : va < MAXVA) (hmapped : T.leaf (va / PGSIZE) ≠ 0) (x : UInt64)
    {Q : Nat → Phys → Prop} {E : Halt → Prop}
    (hQ : ∀ q, 0 < q → Building root { s with mem := update s.mem q (s.mem q ||| x) }
      (T.set (va / PGSIZE) (T.leaf (va / PGSIZE) ||| x)) l → Q q s) : (walk root va false).wp Q E s := by
  refine wp_post (h.holds.wp_walk h.root hva) ?_
  rintro _ t ⟨rfl, rfl⟩
  cases hq : T.page (.low (va / PGSIZE / 512)) with
  | none => exact absurd (h.holds.bare hq) hmapped
  | some q =>
      have hpos := h.holds.pos hq
      have hslot : T.slot (va / PGSIZE) = q + 8 * (va / PGSIZE % 512) := by
        rw [PageTable.slot, hq]
      have hword : t.mem (q + 8 * (va / PGSIZE % 512)) = T.leaf (va / PGSIZE) := by
        rw [h.holds.leaf hq (Nat.mod_lt _ (by decide)), Nat.div_add_mod]
      rw [hslot]
      refine hQ _ (by omega) ?_
      rw [hword]
      exact h.set hq _

end Building

/-- A page of the data or of free memory, as `kvmininit` maps it. -/
theorem kernelLeaf_ram {etext pa : Nat} (h : TextEnd etext) (hal : pa % PGSIZE = 0) (hlo : etext ≤ pa) (hhi : pa < PHYSTOP) :
    kernelLeaf etext (pa / PGSIZE) = identity RW (pa / PGSIZE) := by
  obtain ⟨e, rfl, he, -⟩ := h.page
  have hpage : e ≤ pa / PGSIZE ∧ pa / PGSIZE < 557056 := by
    rw [phystop_eq] at hhi
    simp only [PGSIZE] at *
    omega
  rw [kernelLeaf_page, if_neg (by omega), if_neg (by omega), if_pos hpage]
  rfl

/-- The pages that nothing else may have. -/
def Reserved (T : PageTable) (code stack a : Nat) : Prop := (∃ n, T.page n = some a) ∨ a = code ∨ a = stack

/-- The page table after `userinit`, and who owns which page. -/
structure Space (etext root code stack : Nat) (T : PageTable) (s : Machine) : Prop where
  holds : Holds s.phys.mem T
  root : T.page .root = some root
  leaf : Leaves T.leaf (userPerm etext code stack)
  apart : ∀ n, T.page n ≠ some code ∧ T.page n ≠ some stack
  codePage : IsPage etext code
  stackPage : IsPage etext stack
  pages : ∃ l, Pages (Reserved T code stack) s l

/-- The entries once both pages are made. -/
theorem leaves_granted {etext code stack : Nat} (h : TextEnd etext) (hcode : code % PGSIZE = 0)
    (hstack : stack % PGSIZE = 0) (hne : code ≠ stack) :
    Leaves (update (update (kernelLeaf etext) (code / PGSIZE) (identity RW (code / PGSIZE) ||| (PTE_X ||| PTE_U)))
      (stack / PGSIZE) (identity RW (stack / PGSIZE) ||| PTE_U)) (userPerm etext code stack) := by
  have hpage {pa va : Nat} (hal : pa % PGSIZE = 0) : OnPage pa va ↔ va / PGSIZE = pa / PGSIZE := by
    simp only [OnPage, PGSIZE] at *
    omega
  have hdiff : code / PGSIZE ≠ stack / PGSIZE := by
    simp only [PGSIZE] at *
    omega
  intro va hva
  unfold userPerm
  by_cases hc : OnPage code va
  · rw [if_pos hc, (hpage hcode).1 hc, update_of_ne hdiff, update_self, identity_or, ← UInt64.or_assoc]
    exact ⟨rfl, by decide⟩
  rw [if_neg hc]
  have hc' := mt (hpage hcode).2 hc
  by_cases hs : OnPage stack va
  · rw [if_pos hs, (hpage hstack).1 hs, update_self, identity_or]
    exact ⟨rfl, by decide⟩
  · rw [if_neg hs, update_of_ne (mt (hpage hstack).2 hs), update_of_ne hc']
    exact leaves_kernelLeaf h va hva

/-- The first slot in use has two of four pages; the others are reserved. -/
theorem Pages.granted {R : Nat → Prop} {s t : Machine} {l : List Nat} {c : Fin NPROC} {n a k x y : Nat} {v : Proc}
    (h : Pages R s (a :: k :: x :: y :: l)) (he : Edited s c n v t) (htf : v.trapframe = a) (hks : v.kstack = k)
    (hl : FreeList t.phys l) (hend : t.phys.endAddress = s.phys.endAddress) (hfree : ∀ q, (s.proc q).status = .free) :
    Pages (fun b => R b ∨ b = x ∨ b = y) t l := by
  have hnodup := h.free.nodup
  simp only [List.nodup_cons, List.mem_cons, not_or] at hnodup
  obtain ⟨⟨-, hax, hay, -⟩, ⟨hkx, hky, -⟩, ⟨-, hxl⟩, hyl, -⟩ := hnodup
  have hone {z : Fin NPROC × Bool} (hz : Occupied t z.1) : ownPage t z = a ∨ ownPage t z = k := by
    have hzc : z.1 = c := by
      by_contra hne
      rw [Occupied, he.of_ne hne] at hz
      exact hz (hfree z.1)
    rw [ownPage, hzc, he.self, htf, hks]
    split
    · exact .inr rfl
    · exact .inl rfl
  refine (h.grow he htf hks hl (fun b hb => List.mem_cons_of_mem _ (List.mem_cons_of_mem _ hb)) hend).reserve ?_
  rintro b (hb | rfl | rfl)
  · exact .inl hb
  · refine .inr ⟨hxl, fun z hz heq => ?_⟩
    rcases hone hz with hz | hz
    · exact hax (hz.symm.trans heq)
    · exact hkx (hz.symm.trans heq)
  · refine .inr ⟨hyl, fun z hz heq => ?_⟩
    rcases hone hz with hz | hz
    · exact hay (hz.symm.trans heq)
    · exact hky (hz.symm.trans heq)

/-- The result of `userinit`, with the pages that were free before it. -/
structure UserMade (etext root : Nat) (s : Machine) (l : List Nat) (pages : Nat × Nat) (t : Machine) : Prop where
  space : ∃ T, Space etext root pages.1 pages.2 T t
  free : ∃ m, FreeList t.phys m ∧ l.length = m.length + 4
  slot : ∃ c n v, freeSlot s = some c ∧ Edited s c n v t ∧ v.status = .ready ∧ v.chan = none

theorem wp_userinit_space {etext root : Nat} {T : PageTable} {s : Machine} {l : List Nat} {E : Halt → Prop}
    (proczero : Nat → UInt64) (htext : TextEnd etext) (hT : Building root s.phys T l) (hleaf : T.leaf = kernelLeaf etext)
    (hend : etext ≤ s.phys.endAddress) (hfree : ∀ q, (s.proc q).status = .free) (hE : l.length < 4 → ∀ e, E e) :
    (Paged.userinit proczero root).wp (UserMade etext root s l) E s := by
  have hram {pa : Nat} (h : pa ∈ l) : kernelLeaf etext (pa / PGSIZE) = identity RW (pa / PGSIZE) :=
    kernelLeaf_ram htext (hT.free.page pa h).aligned (Nat.le_trans hend (hT.free.page pa h).lower) (hT.free.page pa h).upper
  have hlt {pa : Nat} (h : pa ∈ l) : pa < MAXVA := Nat.lt_trans (hT.free.page pa h).upper (by decide)
  have hvalid (f : UInt64) (v : Nat) : identity f v ≠ 0 := fun hz => leafWord_valid f (v * PGSIZE) (by
    rw [identity] at hz
    rw [hz]
    decide)
  unfold Paged.userinit
  refine wp_seq (wp_allocproc_pages hT.free) fun r t ht => ?_
  cases ht with
  | full hc => exact absurd (hfree ⟨0, by decide⟩) (by simpa using List.find?_eq_none.1 hc ⟨0, by decide⟩ (List.mem_finRange _))
  | failed => exact hE (by simp) _
  | @done _ c a l hc he hpos hl₁ hmem₁ hend₁ =>
      simp only [wp_bind, wp_modify, wp_ite, wp_gets, wp_panic, wp_liftPhys, putWord, copyCode, orWord]
      have hT₁ := hT.taken hl₁ hmem₁
      refine wp_post (wp_kalloc hT₁.free) fun k u₂ hu₂ => ?_
      cases hu₂ with
      | none => exact ⟨fun _ => hE (by simp) _, fun hne => absurd rfl hne⟩
      | @page _ _ l hl₂ _ hk hmem₂ hend₂ =>
      have hT₂ := hT₁.taken hl₂ hmem₂
      refine ⟨fun hz => absurd hz (Nat.pos_iff_ne_zero.1 hk.pos), fun _ => ?_⟩
      refine wp_post (wp_kalloc hT₂.free) fun x u₃ hu₃ => ?_
      cases hu₃ with
      | none => exact ⟨fun _ => hE (by simp) _, fun hne => absurd rfl hne⟩
      | @page _ _ l hl₃ hx hxpage hmem₃ hend₃ =>
      have hT₃ := hT₂.taken hl₃ hmem₃
      refine ⟨fun hz => absurd hz (Nat.pos_iff_ne_zero.1 hxpage.pos), fun _ => ?_⟩
      have hcopied := hT₃.scribbled hxpage.aligned (hT₂.apart x List.mem_cons_self) hx
        (fun b => if x ≤ b ∧ b < x + PROCZERO_SIZE then proczero (b - x) else u₃.mem b) fun b hb => if_neg fun hin =>
          hb ⟨hin.1, Nat.lt_of_lt_of_le hin.2 (Nat.add_le_add_left (by decide) x)⟩
      have hxl : x ∈ a :: k :: x :: l := by simp
      refine hcopied.wp_grant (hlt hxl) (by rw [hleaf, hram hxl]; exact hvalid RW _) (PTE_X ||| PTE_U) fun q hq hT₄ => ?_
      refine ⟨fun hz => absurd hz (Nat.pos_iff_ne_zero.1 hq), fun _ => ?_⟩
      refine wp_post (wp_kalloc hT₄.free) fun y u₅ hu₅ => ?_
      cases hu₅ with
      | none => exact ⟨fun _ => hE (by simp) _, fun hne => absurd rfl hne⟩
      | @page _ _ l hl₅ hy hypage hmem₅ hend₅ =>
      have hT₅ := hT₄.taken hl₅ hmem₅
      refine ⟨fun hz => absurd hz (Nat.pos_iff_ne_zero.1 hypage.pos), fun _ => ?_⟩
      have hyl : y ∈ a :: k :: x :: y :: l := by simp
      have hxy : x ≠ y := fun heq => hx (heq ▸ List.mem_cons_self)
      have hpages : y / PGSIZE ≠ x / PGSIZE := by
        have hal := hypage.aligned
        have hal' := hxpage.aligned
        simp only [PGSIZE] at *
        omega
      have hleaf₅ : (T.set (x / PGSIZE) (T.leaf (x / PGSIZE) ||| (PTE_X ||| PTE_U))).leaf (y / PGSIZE) =
          identity RW (y / PGSIZE) := by
        show update T.leaf _ _ (y / PGSIZE) = _
        rw [update_of_ne hpages, hleaf, hram hyl]
      refine hT₅.wp_grant (hlt hyl) (by rw [hleaf₅]; exact hvalid RW _) PTE_U fun q' hq' hT₆ => ?_
      refine ⟨fun hz => absurd hz (Nat.pos_iff_ne_zero.1 hq'), fun _ => ?_⟩
      have hks := he.modProc fun v => { v with kstack := k }
      have hphys (u : Phys) : Edited s c (s.nextpid + 1) { (s.proc c).allocated s.nextpid a with kstack := k }
          { (t.modProc c fun v => { v with kstack := k }) with phys := u } := ⟨hks.proc, hks.nextpid⟩
      have hlast (u : Phys) :=
        ((hphys u).modProc fun v => { v with parent := none }).modProc fun v => { v with status := .ready }
      have ha := hT.free.page a List.mem_cons_self
      have hnodup := List.nodup_cons.1 hT.free.nodup
      have hoff : a ∉ l := fun hin => hnodup.1 (by simp [hin])
      simp only [Machine.modProc_self, he.self, Proc.allocated_trapframe, wp_pure]
      have hfinal := hT₆.scribbled ha.aligned (hT.apart a List.mem_cons_self) hoff
        (update (update (zeroPage (update u₅.mem q' (u₅.mem q' ||| PTE_U)) a) (a + TF_EPC) (UInt64.ofNat x))
          (a + TF_SP) (UInt64.ofNat (y + PGSIZE))) fun b hb => by
          have hne (j : Nat) (hj : j < PGSIZE) : b ≠ a + j := by
            rintro rfl
            exact hb ⟨Nat.le_add_right _ _, Nat.add_lt_add_left hj _⟩
          rw [update_of_ne (hne TF_SP (by decide)), update_of_ne (hne TF_EPC (by decide)), zeroPage_off hb]
      have htable : Pages (fun b => ∃ n, T.page n = some b) s (a :: k :: x :: y :: l) := by
        refine .of_unused hT.free (fun b hb hn => ?_) hfree
        obtain ⟨n, hn⟩ := hn
        exact hT.apart b hb n hn
      have howned := htable.granted (hlast _) rfl rfl hfinal.free (((hend₅.trans hend₃).trans hend₂).trans hend₁) hfree
      have hpage {pa : Nat} (hpa : pa ∈ a :: k :: x :: y :: l) : IsPage etext pa := by
        obtain ⟨hal, hlo, hhi, hpos⟩ := hT.free.page pa hpa
        exact ⟨hal, Nat.le_trans hend hlo, hhi, hpos⟩
      refine ⟨⟨_, hfinal.holds, hfinal.root, ?_, fun n => ⟨hT.apart x hxl n, hT.apart y hyl n⟩, hpage hxl, hpage hyl, l,
        howned⟩, ⟨l, hfinal.free, rfl⟩, c, _, _, hc, hlast _, rfl, rfl⟩
      show Leaves (update (update T.leaf _ (T.leaf (x / PGSIZE) ||| (PTE_X ||| PTE_U))) _
        (update T.leaf _ _ (y / PGSIZE) ||| PTE_U)) _
      rw [update_of_ne hpages, hleaf, hram hxl, hram hyl]
      exact leaves_granted htext hxpage.aligned hypage.aligned hxy

/-- `start_main`, with `spare` pages more than `kvmininit` takes. -/
theorem wp_startMain_space {etext : Nat} (spare : Nat) {s : Machine} {E : Halt → Prop} (proczero : Nat → UInt64)
    (htext : TextEnd etext) (hend : etext ≤ s.phys.endAddress) (hnull : s.phys.freeMemList = 0)
    (hroom : 70 + spare ≤ npages s.phys.endAddress) (hE : spare < 4 → ∀ e, E e)
    (hfs : (Fs.liftFs (Fs.lift Fs.binit)).wp (fun _ t => (Fs.liftFs (Fs.fsinit Fs.ROOTDEV)).wp (fun _ _ => True) E t) E
      s.files) :
    (Paged.startMain etext proczero).wp (fun r t => ∃ u l, (∀ q, (u.proc q).status = .free) ∧ spare ≤ l.length ∧
      UserMade etext r.1 u l r.2 t) E s := by
  have hpos : 0 < s.phys.endAddress := Nat.lt_of_lt_of_le (Nat.lt_of_le_of_lt (Nat.zero_le _) htext.lower) hend
  unfold Paged.startMain procinit
  simp only [wp_bind, wp_liftPhys, wp_liftFiles, wp_modify, wp_pure]
  refine wp_post (wp_kinit hnull hpos) fun _ u hinit => ?_
  obtain ⟨hl, hu⟩ := hinit
  have hlen : 70 + spare ≤ (pagesFrom (pgroundup s.phys.endAddress) (npages s.phys.endAddress)).length := by
    rw [length_pagesFrom]
    exact hroom
  refine wp_post (wp_kvmininit htext hl hlen) fun root w hmapped => ?_
  obtain ⟨hw, T, m, hT, hleaf, hm⟩ := hmapped
  refine wp_post hfs fun _ f hf => wp_post hf fun _ g _ => ?_
  refine wp_post (wp_userinit_space proczero htext hT hleaf ?_ (fun _ => rfl) fun hlt => hE (by omega)) fun r t ht => ?_
  · show etext ≤ w.endAddress
    rw [hw, hu]
    exact hend
  · exact ⟨{ s with files := g, phys := w, proc := fun q => { s.proc q with status := .free } }, m, fun _ => rfl, hm, ht⟩

theorem space_booted {etext root code stack : Nat} {s : Machine} (htext : TextEnd etext)
    (h : Paged.Booted etext root code stack s) : ∃ T, Space etext root code stack T s := by
  obtain ⟨total, img, endAddress, proczero, -, hend, hroom, hrun⟩ := h
  generalize him : Machine.image img.blocks endAddress = m at hrun
  have hm : m.phys = { endAddress, freeMemList := 0, mem := fun _ => 0 } := him ▸ rfl
  have hmain := wp_startMain_space 0 (s := m) (E := fun _ => True) proczero htext (hm ▸ hend) (hm ▸ rfl)
    (hm ▸ hroom) (fun _ _ => trivial) (wp_any _ fun _ _ => wp_any _ fun _ _ => trivial)
  obtain ⟨u, l, -, -, hu⟩ := wp_ok hmain hrun
  exact hu.space

/-! ## Runs -/

/-- The byte at an address is written. -/
def putByte (mem : Nat → UInt64) (a : Nat) (x : UInt8) : Nat → UInt64 :=
  let shift := UInt64.ofNat (8 * (a % 8))
  update mem (a / 8 * 8) (mem (a / 8 * 8) &&& ~~~(0xFF <<< shift) ||| x.toUInt64 <<< shift)

/-- Bytes are written from an address on. -/
def storeBytes : List UInt8 → Nat → (Nat → UInt64) → Nat → UInt64
  | [], _, mem => mem
  | x :: xs, a, mem => storeBytes xs (a + 1) (putByte mem a x)

/-- The kernel writes to memory for a process. -/
def Machine.store (s : Machine) (a : Nat) (data : List UInt8) : Machine :=
  { s with phys := { s.phys with mem := storeBytes data a s.phys.mem } }

/-- The bytes of an `int`. -/
def intBytes (x : Int32) : List UInt8 := (List.range 4).map (Bytes.leByte x.toUInt32.toNat)

theorem length_intBytes (x : Int32) : (intBytes x).length = 4 := by
  rw [intBytes, List.length_map, List.length_range]

/-- A word that a running process may have changed: on its trapframe and its kernel stack, when it traps, and where the
page table lets user code write. -/
def Writable (root : Nat) (s : Machine) (p : Fin NPROC) (a : Nat) : Prop :=
  OnPage (ownPage s (p, false)) a ∨ OnPage (ownPage s (p, true)) a ∨
    ∃ va < MAXVA, ∃ e, leafEntry s.phys root va = some e ∧ PTE_FLAGS e &&& PTE_U ≠ 0 ∧ PTE_FLAGS e &&& PTE_W ≠ 0 ∧
      OnPage (PTE2PA e) a

/-- The kernel's steps with what they store: a process runs, or completes a call, of which `read` and `wait` may store at
the address that they are given. The runs of interest may restrict these addresses. -/
inductive SpaceStep (root : Nat) (mayStore : Nat → Prop) : Machine → Machine → Prop
  | call {s t : Machine} : Step (fun _ _ => True) s t → SpaceStep root mayStore s t
  | user {s : Machine} {p : Fin NPROC} {mem : Nat → UInt64} : (s.proc p).status = .running →
      (∀ a, ¬ Writable root s p a → mem a = s.phys.mem a) →
      SpaceStep root mayStore s { s with phys := { s.phys with mem } }
  | read {s t : Machine} {p : Fin NPROC} {a : Args} {n : Int} {data : List UInt8} : (s.proc p).status = .running →
      (s.proc p).chan = none → (fileCall p a .read).run s = .ok ((n, data), t) →
      (∀ i < data.length, mayStore (a.a1.toNat + i)) → SpaceStep root mayStore s (t.store a.a1.toNat data)
  | wait {s t : Machine} {p : Fin NPROC} {addr pid : Nat} {x : Int32} : (s.proc p).status = .running →
      (s.proc p).chan = none → (waitPass p).run (s.store addr (intBytes x)) = .ok (.reaped pid x, t) →
      (∀ i < 4, mayStore (addr + i)) → SpaceStep root mayStore s t
  | woken {s t : Machine} {p : Fin NPROC} {addr pid : Nat} {x : Int32} : (s.proc p).status = .running →
      (s.proc p).chan ≠ none → (waitResume p).run (s.store addr (intBytes x)) = .ok (.reaped pid x, t) →
      (∀ i < 4, mayStore (addr + i)) → SpaceStep root mayStore s t

theorem storeBytes_off : ∀ {data : List UInt8} {a b : Nat} {mem : Nat → UInt64},
    (∀ i < data.length, b ≠ (a + i) / 8 * 8) → storeBytes data a mem b = mem b
  | [], _, _, _, _ => rfl
  | x :: xs, a, b, mem, h => by
      have htail (i : Nat) (hi : i < xs.length) : b ≠ (a + 1 + i) / 8 * 8 := by
        rw [Nat.add_assoc, Nat.add_comm 1 i]
        exact h (i + 1) (Nat.succ_lt_succ hi)
      rw [storeBytes, storeBytes_off htail, putByte]
      exact update_of_ne (h 0 (Nat.succ_pos _)) _ _

/-- A word lies on the page of each of its bytes. -/
theorem onPage_word_of_byte {pa a : Nat} (hal : pa % PGSIZE = 0) (h : OnPage pa a) : OnPage pa (a / 8 * 8) := by
  obtain ⟨hlo, hhi⟩ := h
  refine ⟨?_, ?_⟩ <;> simp only [PGSIZE] at * <;> omega

section Runs
variable {etext root code stack : Nat} {T : PageTable} {s t : Machine}

/-- An address in one of the two user pages. -/
def UserPage (code stack a : Nat) : Prop := OnPage code a ∨ OnPage stack a

namespace Space

/-- What a process and user code may write is not of the page table, and no link of a free page. -/
theorem scribbled (h : Space etext root code stack T s) (q : Nat → Prop)
    (hq : ∀ a, q a → a = code ∨ a = stack ∨ ∃ x, Occupied s x.1 ∧ ownPage s x = a) {mem : Nat → UInt64}
    (hmem : ∀ b, (∀ a, q a → ¬ OnPage a b) → mem b = s.phys.mem b) :
    Space etext root code stack T { s with phys := { s.phys with mem } } := by
  obtain ⟨l, hl⟩ := h.pages
  have hoff (a : Nat) (ha : q a) : a % PGSIZE = 0 ∧ a ∉ l ∧ ∀ n, T.page n ≠ some a := by
    rcases hq a ha with rfl | rfl | ⟨x, hx, rfl⟩
    · exact ⟨h.codePage.aligned, fun hin => hl.apart _ hin (.inr (.inl rfl)), fun n => (h.apart n).1⟩
    · exact ⟨h.stackPage.aligned, fun hin => hl.apart _ hin (.inr (.inr rfl)), fun n => (h.apart n).2⟩
    · exact ⟨(hl.page x hx).aligned, hl.taken x hx, fun n hn => hl.spare x hx (.inl ⟨n, hn⟩)⟩
  refine ⟨h.holds.congr fun n p j hp hj => hmem _ fun a ha => ?_, h.root, h.leaf, h.apart, h.codePage, h.stackPage, l,
    hl.scribbled rfl rfl rfl fun b hb => hmem b fun a ha hon => ?_⟩
  · exact h.holds.not_onPage hp hj (hoff a ha).1 (hoff a ha).2.2
  · exact (hoff a ha).2.1 (hon.eq (hoff a ha).1 (hl.free.page b hb).aligned (onPage_self b) ▸ hb)

theorem stored (h : Space etext root code stack T s) {a : Nat} {data : List UInt8}
    (hdata : ∀ i < data.length, UserPage code stack (a + i)) : Space etext root code stack T (s.store a data) := by
  refine h.scribbled (fun b => b = code ∨ b = stack) (fun b hb => hb.imp_right .inl) fun b hb => ?_
  refine storeBytes_off fun i hi heq => ?_
  rcases hdata i hi with hon | hon
  · exact hb code (.inl rfl) (heq ▸ onPage_word_of_byte h.codePage.aligned hon)
  · exact hb stack (.inr rfl) (heq ▸ onPage_word_of_byte h.stackPage.aligned hon)

theorem reserved_aligned (h : Space etext root code stack T s) {r : Nat} (hr : Reserved T code stack r) :
    r % PGSIZE = 0 := by
  rcases hr with ⟨n, hn⟩ | rfl | rfl
  · exact h.holds.aligned hn
  · exact h.codePage.aligned
  · exact h.stackPage.aligned

theorem step (h : Space etext root code stack T s) (hst : Step (fun _ _ => True) s t) :
    Space etext root code stack T t := by
  obtain ⟨l, hl⟩ := h.pages
  obtain ⟨m, hm, hspared⟩ := pages_step hst hl fun _ => h.reserved_aligned
  exact ⟨h.holds.congr fun n p j hp hj => hspared p j (.inl ⟨n, hp⟩) hj, h.root, h.leaf, h.apart, h.codePage, h.stackPage, m, hm⟩

theorem translates (h : Space etext root code stack T s) : Translates s.phys root (userPerm etext code stack) :=
  h.holds.translates h.root h.leaf

/-- Where the page table lets user code write. -/
theorem userPage_of_leaf (h : Space etext root code stack T s) {va a : Nat} {e : UInt64} (hva : va < MAXVA)
    (he : leafEntry s.phys root va = some e) (hu : PTE_FLAGS e &&& PTE_U ≠ 0) (ha : OnPage (PTE2PA e) a) :
    UserPage code stack a := by
  have htr := h.translates va hva
  have hpage {pa : Nat} (hal : pa % PGSIZE = 0) (hon : OnPage pa va) (hpa : PTE2PA e + va % PGSIZE = va) :
      PTE2PA e = pa := by
    obtain ⟨hlo, hhi⟩ := hon
    simp only [PGSIZE] at *
    omega
  unfold userPerm at htr
  split at htr
  · rename_i hnone
    rw [he] at htr
    exact absurd htr (by simp)
  · rename_i f hf
    obtain ⟨e', he', hpa, hflags⟩ := htr
    obtain rfl := Option.some.inj (he.symm.trans he')
    split at hf
    · rename_i hc
      exact .inl (hpage h.codePage.aligned hc hpa ▸ ha)
    · split at hf
      · rename_i hs
        exact .inr (hpage h.stackPage.aligned hs hpa ▸ ha)
      · rw [hflags] at hu
        rcases kernelPerm_some hf with rfl | rfl
        · exact absurd (by decide) hu
        · exact absurd (by decide) hu

/-- **A step keeps the address space**, if pointers stay in the two user pages. -/
theorem keeps (h : Space etext root code stack T s) (hst : SpaceStep root (UserPage code stack) s t) :
    Space etext root code stack T t := by
  cases hst with
  | call hst => exact h.step hst
  | @user p mem hp hmem =>
      have hocc (b : Bool) : Occupied s (p, b).1 := by
        rw [Occupied, hp]
        simp
      refine h.scribbled (fun a => a = code ∨ a = stack ∨ ∃ b, ownPage s (p, b) = a) (fun a ha => ?_) fun b hb => hmem b ?_
      · rcases ha with hc | hs | ⟨b, hb⟩
        · exact .inl hc
        · exact .inr (.inl hs)
        · exact .inr (.inr ⟨(p, b), hocc b, hb⟩)
      rintro (hon | hon | ⟨va, hva, e, he, hu, -, hon⟩)
      · exact hb _ (.inr (.inr ⟨false, rfl⟩)) hon
      · exact hb _ (.inr (.inr ⟨true, rfl⟩)) hon
      · rcases h.userPage_of_leaf hva he hu hon with hon | hon
        · exact hb code (.inl rfl) hon
        · exact hb stack (.inr (.inl rfl)) hon
  | read hp hc hrun hdata => exact (h.step (.file hp hc hrun)).stored hdata
  | wait hp hc hrun hdata => exact (h.stored (length_intBytes _ ▸ hdata)).step (.wait hp hc hrun)
  | woken hp hc hrun hdata => exact (h.stored (length_intBytes _ ▸ hdata)).step (.woken hp hc hrun)

end Space

/-- What is promised of every state after `userinit`. -/
structure SpaceKept (etext root code stack : Nat) (s : Machine) : Prop where
  translates : Translates s.phys root (userPerm etext code stack)
  free : ∃ l, FreeList s.phys l ∧ code ∉ l ∧ stack ∉ l
  kalloc : ∀ r t, kalloc.run s.phys = .ok (r, t) → r ≠ code ∧ r ≠ stack
  owned : ∀ x, Occupied s x.1 → ownPage s x ≠ code ∧ ownPage s x ≠ stack

theorem Space.kept (h : Space etext root code stack T s) : SpaceKept etext root code stack s := by
  obtain ⟨l, hl⟩ := h.pages
  have hcode : code ∉ l := fun hin => hl.apart _ hin (.inr (.inl rfl))
  have hstack : stack ∉ l := fun hin => hl.apart _ hin (.inr (.inr rfl))
  refine ⟨h.translates, ⟨l, hl.free, hcode, hstack⟩, fun r t hrun => ?_, fun x hx => ⟨fun heq => ?_, fun heq => ?_⟩⟩
  · cases wp_ok (E := fun _ => False) (wp_kalloc hl.free) hrun with
    | none => exact ⟨(Nat.ne_of_gt h.codePage.pos).symm, (Nat.ne_of_gt h.stackPage.pos).symm⟩
    | page =>
        refine ⟨?_, ?_⟩
        · rintro rfl
          exact hcode List.mem_cons_self
        · rintro rfl
          exact hstack List.mem_cons_self
  · exact hl.spare x hx (.inr (.inl heq))
  · exact hl.spare x hx (.inr (.inr heq))

end Runs

/-! ## A kernel with eighty pages -/

/-- A page of text. -/
def sampleText : Nat := KERNBASE + PGSIZE

theorem textEnd_sample : TextEnd sampleText := ⟨by decide, by decide, by decide⟩

/-- The page table of the booted kernel, a process that is ready, and pages for another. -/
structure Sample (root code stack : Nat) (p : Fin NPROC) (s : Machine) : Prop where
  space : ∃ T, Space sampleText root code stack T s
  free : ∃ l, FreeList s.phys l ∧ 2 ≤ l.length
  ready : (s.proc p).status = .ready
  chan : (s.proc p).chan = none
  others : ∀ q, q ≠ p → (s.proc q).status = .free

/-- What `start_main` does to the file system. -/
def startFiles : Prog Fs.Files Unit := do
  Fs.liftFs (Fs.lift Fs.binit)
  Fs.liftFs (Fs.fsinit Fs.ROOTDEV)

theorem exists_image : ∃ img, Mkfs.Makes 24 img ∧ ∃ r, startFiles.run (Machine.image img.blocks 0).files = .ok r := by
  obtain ⟨_, hmk⟩ := run_exec (p := Mkfs.main 24) (s := Mkfs.boot) (by decide +kernel)
  obtain ⟨_, hfs⟩ := run_exec (p := startFiles) (s := (Machine.image ((Mkfs.main 24).exec Mkfs.boot).blocks 0).files)
    (by decide +kernel)
  exact ⟨_, hmk, _, hfs⟩

theorem image_phys (disk : Nat → Fs.Block) (e : Nat) : (Machine.image disk e).phys = ⟨e, 0, fun _ => 0⟩ := rfl

theorem image_files (disk : Nat → Fs.Block) (e : Nat) : (Machine.image disk e).files = (Machine.image disk 0).files := rfl

/-- Eighty pages below the end of memory. -/
def sampleEnd : Nat := PHYSTOP - 80 * PGSIZE

theorem npages_sampleEnd : sampleText ≤ sampleEnd ∧ 70 + 10 ≤ npages sampleEnd := by decide +kernel

theorem exists_sample : ∃ root code stack p s, Paged.Booted sampleText root code stack s ∧ Sample root code stack p s := by
  obtain ⟨img, hmk, r, hfs⟩ := exists_image
  have hphys := image_phys img.blocks sampleEnd
  have hfiles := image_files img.blocks sampleEnd
  have hend := npages_sampleEnd
  generalize Machine.image img.blocks 0 = m₀ at hfiles hfs
  generalize hm : Machine.image img.blocks sampleEnd = m at hphys hfiles
  have hstart : startFiles.wp (fun _ _ => True) (fun _ => False) m.files := by
    rw [hfiles]
    exact (wp_of_run hfs).2 trivial
  have hmain := wp_startMain_space 10 (E := fun _ => False) (fun _ => 0) textEnd_sample
    (by rw [hphys]; exact hend.1) (by rw [hphys]) (by rw [hphys]; exact hend.2) (fun hlt => absurd hlt (by decide))
    ((wp_bind _ _).1 hstart)
  obtain ⟨⟨root, code, stack⟩, s, hrun, u, l, hfree, hlen, hmade⟩ := wp_total hmain
  obtain ⟨p, n, v, hp, he, hready, hnone⟩ := hmade.slot
  obtain ⟨k, hk, hlk⟩ := hmade.free
  have hroom : 70 ≤ npages sampleEnd := Nat.le_of_add_right_le hend.2
  refine ⟨root, code, stack, p, s, ⟨24, img, _, fun _ => 0, hmk, hend.1, hroom, hm ▸ hrun⟩, hmade.space, ⟨k, hk, by omega⟩,
    ?_, ?_, fun q hq => ?_⟩
  · rw [he.self, hready]
  · rw [he.self, hnone]
  · rw [he.of_ne hq, hfree]

/-- A process whose child has exited with status 0. -/
structure Bereaved (p c : Fin NPROC) (s : Machine) : Prop where
  running : (s.proc p).status = .running
  chan : (s.proc p).chan = none
  parent : (s.proc c).parent = some p
  zombie : (s.proc c).status = .zombie
  xstate : (s.proc c).xstate = 0
  others : ∀ q, q ≠ p → q ≠ c → (s.proc q).status = .free

/-- `fork`, with a free slot and two pages. -/
theorem Space.exists_forked {etext root code stack : Nat} {T : PageTable} {s : Machine} {l : List Nat} {q : Fin NPROC}
    (h : Space etext root code stack T s) (hl : FreeList s.phys l) (hlen : 2 ≤ l.length) (hq : (s.proc q).status = .free)
    (p : Fin NPROC) : ∃ c t, (fork p).run s = .ok (some c, t) ∧ Forked s p (some c) t := by
  obtain ⟨m, hm⟩ := h.pages
  have hfork := wp_and (wp_fork_pages (p := p) (E := fun _ => False) hm fun _ => h.reserved_aligned) (wp_fork s p)
  obtain ⟨r, t, hrun, ⟨-, -, -, hnone⟩, hforked⟩ := wp_total hfork
  cases r with
  | some c => exact ⟨c, t, hrun, hforked⟩
  | none =>
      rcases hnone rfl with hfull | hshort
      · have hno := List.find?_eq_none.1 hfull q (List.mem_finRange q)
        exact absurd hq (by simpa using hno)
      · rw [hm.free.unique hl] at hshort
        omega

/-- A running process with a child that is ready. -/
structure Parenting (p c : Fin NPROC) (s : Machine) : Prop where
  ne : c ≠ p
  running : (s.proc p).status = .running
  chan : (s.proc p).chan = none
  ready : (s.proc c).status = .ready
  childChan : (s.proc c).chan = none
  parent : (s.proc c).parent = some p
  others : ∀ q, q ≠ p → q ≠ c → (s.proc q).status = .free

/-- The child exits, and the process runs again. -/
theorem Parenting.bereaved {etext root code stack : Nat} {T : PageTable} {p c : Fin NPROC} {s : Machine}
    (h : Parenting p c s) (hT : Space etext root code stack T s) {init : Machine → Prop} {mayStore : Nat → Prop}
    (hs : Reach init (SpaceStep root mayStore) s) :
    ∃ u, Reach init (SpaceStep root mayStore) u ∧ Space etext root code stack T u ∧ Bereaved p c u := by
  have hstep {s t : Machine} (hst : Step (fun _ _ => True) s t)
      (h : Reach init (SpaceStep root mayStore) s ∧ Space etext root code stack T s) :
      Reach init (SpaceStep root mayStore) t ∧ Space etext root code stack T t := ⟨h.1.next (.call hst), h.2.step hst⟩
  -- the process is preempted, the child is dispatched
  have h₁ := hstep (.tick h.running) ⟨hs, hT⟩
  have hp₁ : (s.modProc p fun v => { v with status := .ready }).proc p = { s.proc p with status := .ready } :=
    Machine.modProc_self _ _ _
  have hq₁ (q : Fin NPROC) (hq : q ≠ p) : (s.modProc p fun v => { v with status := .ready }).proc q = s.proc q :=
    Machine.modProc_of_ne hq _ _
  generalize (s.modProc p fun v => { v with status := .ready }) = s₁ at h₁ hp₁ hq₁
  have hidle₁ (q : Fin NPROC) : (s₁.proc q).status ≠ .running := by
    by_cases hq : q = p
    · rw [hq, hp₁]
      simp
    · rw [hq₁ q hq]
      by_cases hqc : q = c
      · rw [hqc, h.ready]
        simp
      · rw [h.others q hq hqc]
        simp
  have h₂ := hstep (.dispatch (p := c) hidle₁ (by rw [hq₁ c h.ne, h.ready])) h₁
  have hc₂ : (s₁.modProc c fun v => { v with status := .running }).proc c = { s.proc c with status := .running } := by
    rw [Machine.modProc_self, hq₁ c h.ne]
  have hp₂ : (s₁.modProc c fun v => { v with status := .running }).proc p = { s.proc p with status := .ready } := by
    rw [Machine.modProc_of_ne h.ne.symm, hp₁]
  have hq₂ (q : Fin NPROC) (hq : q ≠ p) (hqc : q ≠ c) :
      ((s₁.modProc c fun v => { v with status := .running }).proc q).status = .free := by
    rw [Machine.modProc_of_ne hqc, hq₁ q hq]
    exact h.others q hq hqc
  generalize (s₁.modProc c fun v => { v with status := .running }) = s₂ at h₂ hc₂ hp₂ hq₂
  -- it exits
  obtain ⟨_, s₃, hexit, he⟩ := wp_total (wp_exit (E := fun _ => False) s₂ c 0)
  have h₃ := hstep (.exit trivial (by rw [hc₂]) (by rw [hc₂]; exact h.childChan) hexit) h₂
  have hp₃ : (s₃.proc p).status = .ready := by
    rcases he.status p h.ne.symm with hst | ⟨-, hst⟩
    · rw [hst, hp₂]
    · exact hst
  have hq₃ (q : Fin NPROC) (hq : q ≠ p) (hqc : q ≠ c) : (s₃.proc q).status = .free := by
    rcases he.status q hqc with hst | ⟨hsl, -⟩
    · rw [hst, hq₂ q hq hqc]
    · rw [hq₂ q hq hqc] at hsl
      exact absurd hsl (by simp)
  have hidle₃ (q : Fin NPROC) : (s₃.proc q).status ≠ .running := by
    by_cases hq : q = p
    · rw [hq, hp₃]
      simp
    · by_cases hqc : q = c
      · rw [hqc, he.zombie]
        simp
      · rw [hq₃ q hq hqc]
        simp
  -- and the process runs
  have h₄ := hstep (.dispatch (p := p) hidle₃ hp₃) h₃
  refine ⟨_, h₄.1, h₄.2, ?_, ?_, ?_, ?_, ?_, fun q hq hqc => ?_⟩
  · rw [Machine.modProc_self]
  · rw [Machine.modProc_self]
    show (s₃.proc p).chan = none
    rw [he.chan, hp₂]
    exact h.chan
  · rw [Machine.modProc_of_ne h.ne, he.parent, hc₂]
    exact (if_neg (by rw [h.parent]; exact fun heq => h.ne (Option.some.inj heq).symm)).trans h.parent
  · rw [Machine.modProc_of_ne h.ne, he.zombie]
  · rw [Machine.modProc_of_ne h.ne, he.xstate]
  · rw [Machine.modProc_of_ne hq]
    exact hq₃ q hq hqc

/-- The process forks, its child exits, it runs again. -/
theorem Sample.bereaved {root code stack : Nat} {p : Fin NPROC} {s : Machine} (h : Sample root code stack p s)
    {init : Machine → Prop} (mayStore : Nat → Prop) (hs : Reach init (SpaceStep root mayStore) s) :
    ∃ c u T, Reach init (SpaceStep root mayStore) u ∧ Space sampleText root code stack T u ∧ Bereaved p c u := by
  obtain ⟨T, hT⟩ := h.space
  obtain ⟨l, hl, hlen⟩ := h.free
  have hidle (q : Fin NPROC) : (s.proc q).status ≠ .running := by
    by_cases hq : q = p
    · rw [hq, h.ready]
      simp
    · rw [h.others q hq]
      simp
  -- the process is dispatched
  have hst₁ : Step (fun _ _ => True) s (s.modProc p fun v => { v with status := .running }) := .dispatch hidle h.ready
  have hl₁ : FreeList (s.modProc p fun v => { v with status := .running }).phys l := hl
  have hp₁ : ((s.modProc p fun v => { v with status := .running }).proc p) = { s.proc p with status := .running } :=
    Machine.modProc_self _ _ _
  have ho₁ (q : Fin NPROC) (hq : q ≠ p) : ((s.modProc p fun v => { v with status := .running }).proc q).status = .free := by
    rw [Machine.modProc_of_ne hq]
    exact h.others q hq
  have hT₁ := hT.step hst₁
  have hs₁ := hs.next (.call hst₁)
  generalize (s.modProc p fun v => { v with status := .running }) = s₁ at hl₁ hp₁ ho₁ hT₁ hs₁
  have hrun₁ : (s₁.proc p).status = .running := by rw [hp₁]
  have hchan₁ : (s₁.proc p).chan = none := by rw [hp₁, h.chan]
  -- it forks
  obtain ⟨q, hq⟩ : ∃ q, q ≠ p := by
    by_cases hp : p = ⟨0, by decide⟩
    · exact ⟨⟨1, by decide⟩, by rw [hp]; decide⟩
    · exact ⟨⟨0, by decide⟩, Ne.symm hp⟩
  obtain ⟨c, s₂, hfork, hforked⟩ := hT₁.exists_forked hl₁ hlen (ho₁ q hq) p
  have hst₂ : Step (fun _ _ => True) s₁ s₂ := .fork hrun₁ hchan₁ hfork
  have hT₂ := hT₁.step hst₂
  have hs₂ := hs₁.next (.call hst₂)
  obtain ⟨n, v, hc, he, hready, hparent, hcchan⟩ : ∃ n v, freeSlot s₁ = some c ∧ Edited s₁ c n v s₂ ∧ v.status = .ready ∧
      v.parent = some p ∧ v.chan = none := by
    cases hforked with
    | done hc he hready _ hparent hchan => exact ⟨_, _, hc, he, hready, hparent, hchan⟩
  have hcp : c ≠ p := by
    rintro rfl
    have hfree := freeSlot_free hc
    rw [hrun₁] at hfree
    exact absurd hfree (by simp)
  have hp₂ : s₂.proc p = s₁.proc p := he.of_ne hcp.symm
  have hparent₂ : Parenting p c s₂ := ⟨hcp, by rw [hp₂, hrun₁], by rw [hp₂, hchan₁], by rw [he.self, hready],
    by rw [he.self, hcchan], by rw [he.self, hparent], fun q hq hqc => ?_⟩
  · obtain ⟨u, hu, hTu, hb⟩ := hparent₂.bereaved hT₂ hs₂
    exact ⟨c, u, T, hu, hTu, hb⟩
  · rw [he.of_ne hqc]
    exact ho₁ q hq

/-- A null `int` is written over the entry: it is not valid any more. -/
theorem storeBytes_null (mem : Nat → UInt64) {a : Nat} (hal : a % 8 = 0) :
    ∃ w, storeBytes (intBytes 0) a mem = update mem a w ∧ w &&& PTE_V = 0 := by
  have hput (m : Nat → UInt64) (i : Nat) (hi : i < 8) :
      putByte m (a + i) 0 = update m a (m a &&& ~~~(0xFF <<< UInt64.ofNat (8 * i))) := by
    have hword : (a + i) / 8 * 8 = a := by omega
    have hbyte : (a + i) % 8 = i := by omega
    have hzero : (0 : UInt8).toUInt64 <<< UInt64.ofNat (8 * i) = 0 := UInt64.zero_shiftLeft
    rw [putByte, hword, hbyte, hzero, UInt64.or_zero]
  have hbytes : intBytes 0 = [0, 0, 0, 0] := by decide
  refine ⟨(((mem a &&& ~~~(0xFF <<< UInt64.ofNat (8 * 0))) &&& ~~~(0xFF <<< UInt64.ofNat (8 * 1))) &&&
    ~~~(0xFF <<< UInt64.ofNat (8 * 2))) &&& ~~~(0xFF <<< UInt64.ofNat (8 * 3)), ?_, ?_⟩
  · rw [hbytes]
    show putByte (putByte (putByte (putByte mem (a + 0) 0) (a + 1) 0) (a + 2) 0) (a + 3) 0 = _
    rw [hput _ 0 (by decide), hput _ 1 (by decide), hput _ 2 (by decide), hput _ 3 (by decide)]
    simp only [update_self, update_idem]
  · rw [UInt64.and_assoc, UInt64.and_assoc, UInt64.and_assoc, UInt64.and_assoc]
    have hmask : ~~~((0xFF : UInt64) <<< UInt64.ofNat (8 * 0)) &&& (~~~(0xFF <<< UInt64.ofNat (8 * 1)) &&&
        (~~~(0xFF <<< UInt64.ofNat (8 * 2)) &&& (~~~(0xFF <<< UInt64.ofNat (8 * 3)) &&& PTE_V))) = 0 := by decide
    rw [hmask, UInt64.and_zero]

/-- `wait` finds the child. -/
theorem Bereaved.waited {p c : Fin NPROC} {s t : Machine} {r : WaitEnd} (h : Bereaved p c s)
    (hrun : (waitPass p).run s = .ok (r, t)) : ∃ pid, r = .reaped pid 0 := by
  have hreaped : (waitPass p).wp (fun r _ => ∃ pid x, r = .reaped pid x) (fun _ => True) s := by
    unfold waitPass
    rw [wp_bind, wp_get]
    split
    · simp only [wp_bind, wp_gets, wp_modify, wp_pure]
      exact wp_any _ fun _ _ => wp_any _ fun _ _ => ⟨_, _, rfl⟩
    · rename_i hnone
      have hno := List.find?_eq_none.1 hnone c (List.mem_finRange c)
      rw [h.parent, h.zombie] at hno
      simp at hno
  obtain ⟨pid, x, rfl⟩ := wp_ok hreaped hrun
  cases wp_ok (wp_waitPass s p) hrun with
  | @reaped _ d _ hparent hzombie =>
      have hdc : d = c := by
        by_contra hne
        by_cases hdp : d = p
        · rw [hdp, h.running] at hzombie
          exact absurd hzombie (by simp)
        · rw [h.others d hdp hne] at hzombie
          exact absurd hzombie (by simp)
      exact ⟨_, by rw [hdc, h.xstate]⟩

/-- The UART's page stays as it is mapped. -/
theorem Space.uart {etext root code stack : Nat} {T : PageTable} {s : Machine} (htext : TextEnd etext)
    (h : Space etext root code stack T s) : userPerm etext code stack UART0 = some RW := by
  have hoff {pa : Nat} (hpa : IsPage etext pa) : ¬ OnPage pa UART0 := fun hon => by
    have hlo := htext.lower
    have hle := hpa.lower
    have hon' := hon.1
    simp only [KERNBASE, UART0] at *
    omega
  rw [userPerm, if_neg (hoff h.codePage), if_neg (hoff h.stackPage), kernelPerm, if_pos (.inl (onPage_self _))]

/-- **The kernel's address space**: what `kvmininit` maps, and what is mapped in every state after `userinit`, in the runs
in which no call stores outside the two user pages through the pointer that it is given. -/
theorem space_reach {etext : Nat} (h : TextEnd etext) :
    (∀ s l, FreeList s l → 70 ≤ l.length →
      ∃ root t, (kvmininit etext).run s = .ok (root, t) ∧ Translates t root (kernelPerm etext)) ∧
    ∀ root code stack s,
      Reach (Paged.Booted etext root code stack) (SpaceStep root (UserPage code stack)) s →
        SpaceKept etext root code stack s := by
  refine ⟨fun s l hl hroom => kvmininit_translates h hl hroom, fun root code stack s hs => ?_⟩
  have hspace := hs.invariant (fun s => ∃ T, Space etext root code stack T s) (fun s hb => space_booted h hb)
    fun s t hs hst => by
      obtain ⟨T, hT⟩ := hs
      exact ⟨T, hT.keeps hst⟩
  obtain ⟨T, hT⟩ := hspace
  exact hT.kept

/-- Eighty pages after `kinit`, and a process that is to wait for a child that has exited. -/
theorem space_reach_forked :
    (∃ s l root t, FreeList s l ∧ (kvmininit sampleText).run s = .ok (root, t) ∧
      Translates t root (kernelPerm sampleText)) ∧
    ∃ root code stack p c s, Bereaved p c s ∧ SpaceKept sampleText root code stack s := by
  refine ⟨?_, ?_⟩
  · have hend := npages_sampleEnd
    obtain ⟨_, s, -, hl, -⟩ := wp_total (wp_kinit (s := ⟨sampleEnd, 0, fun _ => 0⟩) rfl (by decide))
    obtain ⟨root, t, hrun, htr⟩ := (space_reach textEnd_sample).1 s _ hl (by
      rw [length_pagesFrom]
      exact Nat.le_of_add_right_le hend.2)
    exact ⟨s, _, root, t, hl, hrun, htr⟩
  · obtain ⟨root, code, stack, p, s, hbooted, hsample⟩ := exists_sample
    obtain ⟨c, u, -, hu, -, hb⟩ := hsample.bereaved (UserPage code stack) (.start hbooted)
    exact ⟨root, code, stack, p, c, u, hb, (space_reach textEnd_sample).2 root code stack u hu⟩

/-- A process that waits for its child with the address of the UART's entry: the entry is overwritten. -/
theorem space_fails : ∃ etext root code stack s, TextEnd etext ∧
    Reach (Paged.Booted etext root code stack) (SpaceStep root fun _ => True) s ∧
    ¬ Translates s.phys root (userPerm etext code stack) := by
  obtain ⟨root, code, stack, p, s, hbooted, hsample⟩ := exists_sample
  obtain ⟨c, u, T, hu, hT, hb⟩ := hsample.bereaved (fun _ => True) (.start hbooted)
  have huart := hT.uart textEnd_sample
  -- the page of the entry
  have hleaf := hT.leaf UART0 (by decide)
  rw [huart] at hleaf
  obtain ⟨q, hq⟩ : ∃ q, T.page (.low (65536 / 512)) = some q := by
    rw [← Option.ne_none_iff_exists']
    intro hnone
    exact leafWord_valid RW (65536 * PGSIZE) (by
      rw [show leafWord RW (65536 * PGSIZE) = T.leaf 65536 from hleaf.1.symm, hT.holds.bare hnone]
      decide)
  have hal : q % 8 = 0 := by
    have hpage := hT.holds.aligned hq
    simp only [PGSIZE] at hpage
    omega
  obtain ⟨w, hstore, hw⟩ := storeBytes_null u.phys.mem hal
  have hholds : Holds (u.store q (intBytes 0)).phys.mem (T.set 65536 w) := by
    show Holds (storeBytes (intBytes 0) q u.phys.mem) _
    rw [hstore]
    exact hT.holds.set (v := 65536) hq w
  obtain ⟨l, hl⟩ := hT.pages
  have hl' : Pages (Reserved T code stack) (u.store q (intBytes 0)) l := by
    refine hl.scribbled rfl rfl rfl fun a ha => ?_
    show storeBytes (intBytes 0) q u.phys.mem a = _
    rw [hstore]
    refine update_of_ne ?_ _ _
    rintro rfl
    exact hl.apart a ha (.inl ⟨_, hq⟩)
  have hb' : Bereaved p c (u.store q (intBytes 0)) := ⟨hb.1, hb.2, hb.3, hb.4, hb.5, hb.6⟩
  have hocc : Occupied (u.store q (intBytes 0)) p := by
    rw [Occupied, hb'.running]
    simp
  obtain ⟨r, t, hrun, m, -, hspared⟩ := wp_total
    (wp_waitPass_pages (E := fun _ => False) hl' (fun _ => hT.reserved_aligned) hocc)
  obtain ⟨pid, rfl⟩ := hb'.waited hrun
  have hlast : Holds t.phys.mem (T.set 65536 w) := hholds.congr fun n a j ha hj => hspared a j (.inl ⟨n, ha⟩) hj
  refine ⟨sampleText, root, code, stack, t, textEnd_sample, hu.next (.wait hb.running hb.chan hrun fun _ _ => trivial),
    fun htr => ?_⟩
  have hnone : leafEntry t.phys root UART0 = none := by
    rw [hlast.leafEntry_eq hT.root (by decide)]
    refine if_neg fun hvalid => hvalid ?_
    show update T.leaf 65536 w 65536 &&& PTE_V = 0
    rw [update_self, hw]
  have hmap := htr UART0 (by decide)
  rw [huart] at hmap
  obtain ⟨e, he, -⟩ := hmap
  exact absurd (hnone.symm.trans he) (by simp)

end RiscvOsLab.Kernel
