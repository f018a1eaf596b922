import RiscvOsLab.Kernel.Vm

/-!
# The kernel's page table (`kernel/mm/vm.c`)

`kvmininit` maps the devices and the kernel's memory to themselves: `wp_kvmininit` says what every leaf entry is.
-/

namespace RiscvOsLab.Kernel

open Prog Function

/-- The kernel's page table. -/
def kvmininit (etext : Nat) : Prog Phys Nat := do
  let pagetable ← kalloc
  if pagetable = 0 then
    .panic "kvmininit: out of memory"
  else
    modify fun s => { s with mem := zeroPage s.mem pagetable }
    let _ ← mappages pagetable UART0 UART0 PGSIZE (PTE_R ||| PTE_W)
    let _ ← mappages pagetable PLIC PLIC 0x400000 (PTE_R ||| PTE_W)
    let _ ← mappages pagetable VIRTIO0 VIRTIO0 PGSIZE (PTE_R ||| PTE_W)
    let _ ← mappages pagetable KERNBASE KERNBASE (etext - KERNBASE) (PTE_R ||| PTE_X)
    let _ ← mappages pagetable etext etext (PHYSTOP - etext) (PTE_R ||| PTE_W)
    return pagetable

/-- The entry that maps virtual page `v` to itself. -/
def identity (perm : UInt64) (v : Nat) : UInt64 := leafWord perm (v * PGSIZE)

/-- The nodes of the kernel's page table below its root. -/
def kernelNodes : Finset Node :=
  ([Node.mid 0, Node.mid 2, Node.low 96, Node.low 97, Node.low 128] ++
    (List.range 64).map fun i => Node.low (1024 + i)).toFinset

theorem card_kernelNodes : kernelNodes.card ≤ 69 := by
  refine Nat.le_trans (List.toFinset_card_le _) ?_
  rw [List.length_append, List.length_map, List.length_range]
  decide

theorem low_mem_kernelNodes {k : Nat} (h : k = 96 ∨ k = 97 ∨ k = 128 ∨ 1024 ≤ k ∧ k < 1088) : .low k ∈ kernelNodes := by
  rw [kernelNodes, List.mem_toFinset, List.mem_append, List.mem_map]
  rcases h with rfl | rfl | rfl | ⟨hlo, hhi⟩
  · exact .inl (by decide)
  · exact .inl (by decide)
  · exact .inl (by decide)
  · exact .inr ⟨k - 1024, List.mem_range.2 (by omega), by rw [Nat.add_sub_cancel' hlo]⟩

theorem mid_mem_kernelNodes {i : Nat} (h : i = 0 ∨ i = 2) : .mid i ∈ kernelNodes := by
  rw [kernelNodes, List.mem_toFinset, List.mem_append]
  rcases h with rfl | rfl
  · exact .inl (by decide)
  · exact .inl (by decide)

/-- The entry that `kvmininit` gives to a page, 0 if it maps nothing there. -/
def kernelLeaf (etext v : Nat) : UInt64 :=
  if v = UART0 / PGSIZE ∨ v = VIRTIO0 / PGSIZE ∨ PLIC / PGSIZE ≤ v ∧ v < (PLIC + 0x400000) / PGSIZE then
    identity (PTE_R ||| PTE_W) v
  else if KERNBASE / PGSIZE ≤ v ∧ v < etext / PGSIZE then identity (PTE_R ||| PTE_X) v
  else if etext / PGSIZE ≤ v ∧ v < PHYSTOP / PGSIZE then identity (PTE_R ||| PTE_W) v
  else 0

/-- The linker script's promise about `etext`. -/
structure TextEnd (etext : Nat) : Prop where
  aligned : etext % PGSIZE = 0
  lower : KERNBASE < etext
  upper : etext < PHYSTOP

theorem TextEnd.page {etext : Nat} (h : TextEnd etext) : ∃ e, etext = e * PGSIZE ∧ 524288 < e ∧ e < 557056 := by
  obtain ⟨hal, hlo, hhi⟩ := h
  refine ⟨etext / PGSIZE, (Nat.div_mul_cancel (Nat.dvd_of_mod_eq_zero hal)).symm, ?_, ?_⟩
  · simp only [KERNBASE, PGSIZE] at *
    omega
  · rw [phystop_eq] at hhi
    simp only [PGSIZE]
    omega

/-- A page of one of the ranges that `kvmininit` maps. -/
theorem mappable_kernelNodes {leaf : Nat → UInt64} {v : Nat} (hempty : leaf v = 0)
    (hv : 49152 ≤ v ∧ v < 50176 ∨ 65536 ≤ v ∧ v < 65538 ∨ 524288 ≤ v ∧ v < 557056) :
    Mappable (· ∈ kernelNodes) leaf v := by
  refine ⟨?_, ?_, ?_⟩
  · rw [hempty]
    rfl
  · rw [show MAXVA = 274877906944 by norm_num [MAXVA]]
    simp only [PGSIZE]
    omega
  · rintro c (rfl | rfl)
    · exact mid_mem_kernelNodes (by omega)
    · exact low_mem_kernelNodes (by omega)

/-- The kernel's page table while it is built, with pages enough for the nodes that are missing and for `k` more. -/
structure Mapping (k root : Nat) (s : Phys) (T : PageTable) (l : List Nat) : Prop where
  building : Building root s T l
  room : T.missing kernelNodes + k ≤ l.length

/-- The pages from `v` to `v + k` are mapped to themselves. -/
theorem Mapping.wp_mappages {spare root va size : Nat} {perm : UInt64} {s : Phys} {T : PageTable} {l : List Nat}
    {E : Halt → Prop} (h : Mapping spare root s T l) (v k : Nat) (hva : va = v * PGSIZE) (hsize : size = (k + 1) * PGSIZE)
    (hmap : ∀ w, v ≤ w → w ≤ v + k → Mappable (· ∈ kernelNodes) T.leaf w) :
    (mappages root va va size perm).wp (fun _ t => ∃ T' m, Mapping spare root t T' m ∧
      ∀ w, T'.leaf w = if v ≤ w ∧ w ≤ v + k then identity perm w else T.leaf w) E s := by
  have hv : va / PGSIZE = v := hva ▸ Nat.mul_div_cancel v (by decide)
  have hpos : 0 < size := hsize ▸ Nat.mul_pos (Nat.succ_pos k) (by decide)
  have hlast : (va + size - 1) / PGSIZE = v + k := by
    rw [hva, hsize]
    simp only [PGSIZE]
    omega
  refine wp_post (h.building.wp_mappages v k hv hlast hpos hmap) ?_
  rintro r t ⟨T', m, n, ht, hg, hleaf, hend⟩
  cases hend with
  | done =>
      have heq := hg.room kernelNodes fun _ hc => hc
      have hroom := h.room
      refine ⟨T', m, ⟨ht, by omega⟩, fun w => ?_⟩
      rw [hleaf, mapped]
      by_cases hw : v ≤ w ∧ w ≤ v + k
      · rw [if_pos (by omega), if_pos hw, identity, hva, ← Nat.add_mul, Nat.add_sub_cancel' hw.1]
      · rw [if_neg (by omega), if_neg hw]
  | stuck _ hm hc hnone =>
      subst hm
      exact (hg.not_stuck (fun _ hc => hc) (Nat.le_of_add_right_le h.room) hc hnone).elim

theorem off_range {leaf : Nat → UInt64} {x : Nat → UInt64} {v k w : Nat} (h : w < v ∨ v + k < w) :
    (if v ≤ w ∧ w ≤ v + k then x w else leaf w) = leaf w := if_neg (by omega)

theorem kernelLeaf_page (e w : Nat) : kernelLeaf (e * PGSIZE) w =
    if w = 65536 ∨ w = 65537 ∨ 49152 ≤ w ∧ w < 50176 then identity (PTE_R ||| PTE_W) w
    else if 524288 ≤ w ∧ w < e then identity (PTE_R ||| PTE_X) w
    else if e ≤ w ∧ w < 557056 then identity (PTE_R ||| PTE_W) w
    else 0 := by
  have he : e * PGSIZE / PGSIZE = e := Nat.mul_div_cancel e (by decide)
  have hstop : PHYSTOP / PGSIZE = 557056 := by
    rw [phystop_eq]
    rfl
  unfold kernelLeaf
  rw [he, hstop]
  rfl

/-- The calls of `mappages`. -/
theorem wp_mapKernel {etext spare root text data : Nat} {s : Phys} {l : List Nat} {E : Halt → Prop}
    (htext : TextEnd etext) (hts : text = etext - KERNBASE) (hds : data = PHYSTOP - etext)
    (h : Mapping spare root s (emptyTable root) l) :
    (do let _ ← mappages root UART0 UART0 PGSIZE (PTE_R ||| PTE_W)
        let _ ← mappages root PLIC PLIC 0x400000 (PTE_R ||| PTE_W)
        let _ ← mappages root VIRTIO0 VIRTIO0 PGSIZE (PTE_R ||| PTE_W)
        let _ ← mappages root KERNBASE KERNBASE text (PTE_R ||| PTE_X)
        let _ ← mappages root etext etext data (PTE_R ||| PTE_W)
        return root : Prog Phys Nat).wp
      (fun root t => ∃ T m, Building root t T m ∧ T.leaf = kernelLeaf etext ∧ spare ≤ m.length) E s := by
  obtain ⟨e, he, hlo, hhi⟩ := htext.page
  have hpage : PGSIZE = 4096 := rfl
  have hbase : KERNBASE = 2147483648 := rfl
  refine wp_seq (h.wp_mappages 65536 0 rfl rfl fun w hw hw' => mappable_kernelNodes rfl (by omega)) ?_
  rintro _ t₁ ⟨T₁, m₁, h₁, hl₁⟩
  refine wp_seq (h₁.wp_mappages 49152 1023 rfl rfl fun w hw hw' => mappable_kernelNodes ?_ (by omega)) ?_
  · rw [hl₁, off_range (by omega)]
    rfl
  rintro _ t₂ ⟨T₂, m₂, h₂, hl₂⟩
  refine wp_seq (h₂.wp_mappages 65537 0 rfl rfl fun w hw hw' => mappable_kernelNodes ?_ (by omega)) ?_
  · rw [hl₂, off_range (by omega), hl₁, off_range (by omega)]
    rfl
  rintro _ t₃ ⟨T₃, m₃, h₃, hl₃⟩
  refine wp_seq (h₃.wp_mappages 524288 (e - 524289) rfl ?_ fun w hw hw' => mappable_kernelNodes ?_ (by omega)) ?_
  · rw [hts, he, hbase, hpage]
    omega
  · rw [hl₃, off_range (by omega), hl₂, off_range (by omega), hl₁, off_range (by omega)]
    rfl
  rintro _ t₄ ⟨T₄, m₄, h₄, hl₄⟩
  refine wp_seq (h₄.wp_mappages e (557055 - e) he ?_ fun w hw hw' => mappable_kernelNodes ?_ (by omega)) ?_
  · rw [hds, he, phystop_eq, hpage]
    omega
  · rw [hl₄, off_range (by omega), hl₃, off_range (by omega), hl₂, off_range (by omega), hl₁, off_range (by omega)]
    rfl
  rintro _ t₅ ⟨T₅, m₅, h₅, hl₅⟩
  refine ⟨T₅, m₅, h₅.building, ?_, Nat.le_of_add_left_le h₅.room⟩
  funext w
  rw [he, kernelLeaf_page, hl₅, hl₄, hl₃, hl₂, hl₁]
  split_ifs <;> first | rfl | omega

/-! The end of the kernel is where the linker put it. -/

section EndAddress
variable {root va : Nat} {alloc : Bool} {perm : UInt64}

theorem kalloc_endAddress (s : Phys) : kalloc.wp (fun _ t => t.endAddress = s.endAddress) (fun _ => True) s := by
  unfold kalloc
  simp only [wp_bind, wp_gets, wp_ite, wp_modify, wp_pure, implies_true, and_self]

theorem walkFrom_endAddress : ∀ (level root : Nat) (s : Phys),
    (walkFrom va alloc level root).wp (fun _ t => t.endAddress = s.endAddress) (fun _ => True) s
  | 0, _, _ => rfl
  | level + 1, _, s => by
      unfold walkFrom
      simp only [wp_bind, wp_gets, wp_ite]
      refine ⟨fun _ => walkFrom_endAddress level _ s, fun _ => ⟨fun _ => rfl, fun _ => ?_⟩⟩
      refine wp_post (kalloc_endAddress s) fun next t ht => ?_
      simp only [putWord, wp_modify, wp_pure]
      refine ⟨fun _ => ht, fun _ => ?_⟩
      exact wp_post (walkFrom_endAddress level next _) fun _ u hu => hu.trans ht

theorem walk_endAddress (s : Phys) :
    (walk root va alloc).wp (fun _ t => t.endAddress = s.endAddress) (fun _ => True) s :=
  (wp_ite _ _ _).2 ⟨fun _ => trivial, fun _ => walkFrom_endAddress 2 root s⟩

theorem mappagesFrom_endAddress {last : Nat} : ∀ (n a pa : Nat) (s : Phys),
    (mappagesFrom root perm last n a pa).wp (fun _ t => t.endAddress = s.endAddress) (fun _ => True) s
  | 0, _, _, _ => trivial
  | n + 1, a, pa, s => by
      unfold mappagesFrom
      refine wp_seq (walk_endAddress s) fun pte t ht => ?_
      simp only [wp_bind, wp_gets, wp_ite, putWord, wp_modify]
      refine ⟨fun _ => ht, fun _ => ⟨fun _ => trivial, fun _ => ⟨fun _ => ht, fun _ => ?_⟩⟩⟩
      exact wp_post (mappagesFrom_endAddress n _ _ _) fun _ u hu => hu.trans ht

theorem mappages_endAddress {pa size : Nat} (s : Phys) :
    (mappages root pa va size perm).wp (fun _ t => t.endAddress = s.endAddress) (fun _ => True) s :=
  (wp_ite _ _ _).2 ⟨fun _ => trivial, fun _ => mappagesFrom_endAddress _ _ _ s⟩

theorem mapKernel_endAddress {etext text data e : Nat} {s : Phys} (hs : s.endAddress = e) :
    (do let _ ← mappages root UART0 UART0 PGSIZE (PTE_R ||| PTE_W)
        let _ ← mappages root PLIC PLIC 0x400000 (PTE_R ||| PTE_W)
        let _ ← mappages root VIRTIO0 VIRTIO0 PGSIZE (PTE_R ||| PTE_W)
        let _ ← mappages root KERNBASE KERNBASE text (PTE_R ||| PTE_X)
        let _ ← mappages root etext etext data (PTE_R ||| PTE_W)
        return root : Prog Phys Nat).wp (fun _ t => t.endAddress = e) (fun _ => True) s := by
  have hmap {pa va size : Nat} {perm : UInt64} {u : Phys} (hu : u.endAddress = e) :
      (mappages root pa va size perm).wp (fun _ t => t.endAddress = e) (fun _ => True) u :=
    wp_post (mappages_endAddress u) fun _ t ht => ht.trans hu
  exact wp_seq (hmap hs) fun _ _ ht => wp_seq (hmap ht) fun _ _ ht => wp_seq (hmap ht) fun _ _ ht =>
    wp_seq (hmap ht) fun _ _ ht => wp_seq (hmap ht) fun _ _ ht => ht

theorem kvmininit_endAddress (etext : Nat) (s : Phys) :
    (kvmininit etext).wp (fun _ t => t.endAddress = s.endAddress) (fun _ => True) s := by
  unfold kvmininit
  refine wp_seq (kalloc_endAddress s) fun root t ht => ?_
  rw [wp_ite, wp_bind, wp_modify]
  refine ⟨fun _ => trivial, fun _ => ?_⟩
  generalize hu : ({ t with mem := zeroPage t.mem root } : Phys) = u
  refine mapKernel_endAddress ?_
  rw [← hu]
  exact ht

end EndAddress

/-- **`kvmininit`** gives the pages of the devices and of the kernel's memory their entries, and no other. -/
theorem wp_kvmininit {etext : Nat} {s : Phys} {l : List Nat} {E : Halt → Prop} (htext : TextEnd etext)
    (hfree : FreeList s l) {spare : Nat} (hroom : 70 + spare ≤ l.length) :
    (kvmininit etext).wp (fun root t => t.endAddress = s.endAddress ∧
      ∃ T m, Building root t T m ∧ T.leaf = kernelLeaf etext ∧ spare ≤ m.length) E s := by
  suffices hbuilt : (kvmininit etext).wp
      (fun root t => ∃ T m, Building root t T m ∧ T.leaf = kernelLeaf etext ∧ spare ≤ m.length) E s from
    wp_post (wp_and hbuilt (kvmininit_endAddress etext s)) fun _ _ ⟨hT, hend⟩ => ⟨hend, hT⟩
  unfold kvmininit
  rw [wp_bind]
  refine wp_post (wp_kalloc hfree) fun root t ht => ?_
  cases ht with
  | none =>
      rw [List.length_nil] at hroom
      omega
  | @page _ _ m hm hnew hpage hmem hend =>
      rw [wp_ite]
      refine ⟨fun hz => absurd hz (Nat.pos_iff_ne_zero.1 hpage.pos), fun _ => ?_⟩
      rw [wp_bind, wp_modify]
      have hzero : zeroPage t.mem root = t.mem := by
        funext a
        by_cases ha : OnPage root a
        · rw [zeroPage_on ha, hmem, zeroPage_on ha]
        · rw [zeroPage_off ha]
      have hstart : Building root { t with mem := zeroPage t.mem root } (emptyTable root) m := by
        refine ⟨holds_emptyTable hpage fun a ha => zeroPage_on ha, rfl, hm.congr (fun a _ => ?_) rfl rfl,
          fun a ha n hn => ?_⟩
        · rw [hzero]
        · exact hnew ((emptyTable_page hn).2 ▸ ha)
      have hmissing : (emptyTable root).missing kernelNodes + spare ≤ m.length := by
        have hle : (emptyTable root).missing kernelNodes ≤ kernelNodes.card := Finset.card_filter_le _ _
        have hcard := card_kernelNodes
        rw [List.length_cons] at hroom
        omega
      generalize hroot : ({ t with mem := zeroPage t.mem root } : Phys) = u at hstart
      exact wp_mapKernel htext rfl rfl ⟨hstart, hmissing⟩

end RiscvOsLab.Kernel
