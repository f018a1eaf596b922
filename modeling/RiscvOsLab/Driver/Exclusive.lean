import RiscvOsLab.Driver.Virtio
import Mathlib.Data.List.Perm.Basic
import Mathlib.Data.Fintype.Fin
import Mathlib.Data.Finset.Card

/-!
# Requests in flight are exclusive

`Exclusive` is what the callers of `virtio_disk_rw` rely on while several of them are inside. It holds in
every run in which a request is submitted only with three descriptors to spare and for a buffer without a
request that is still to be drained (`Room`); each of the two bounds is needed (`exclusive_fails`).

`Inv` sorts the requests in three queues: published and not yet read by the device, read and not yet
completed, completed and not yet drained.
-/

namespace RiscvOsLab.Driver

open Prog Function
open RiscvOsLab.Fs

variable {P : Type}

/-- The descriptors of a request. -/
def Req.Uses (r : Req P) (i : Fin NUM) : Prop := i = r.i₀ ∨ i = r.i₁ ∨ i = r.i₂

instance (r : Req P) (i : Fin NUM) : Decidable (r.Uses i) := inferInstanceAs (Decidable (_ ∨ _ ∨ _))

/-- The chain of `r` is in the table as it was published, and its descriptors are taken. -/
structure Chain (d : Disk) (r : Req P) : Prop where
  ne₀₁ : r.i₀ ≠ r.i₁
  ne₀₂ : r.i₀ ≠ r.i₂
  ne₁₂ : r.i₁ ≠ r.i₂
  d₀ : d.desc r.i₀ = ⟨.op r.i₀, 16, VRING_DESC_F_NEXT, r.i₁⟩
  d₁ : d.desc r.i₁ =
    ⟨.data r.buf, BSIZE, (if r.write then 0 else VRING_DESC_F_WRITE) ||| VRING_DESC_F_NEXT, r.i₂⟩
  d₂ : d.desc r.i₂ = ⟨.status r.i₀, 1, VRING_DESC_F_WRITE, 0⟩
  busy : ∀ i, r.Uses i → d.free i = false

/-- No panic; while a request is published and not completed its process is inside, its chain is in place and
taken, and shares no descriptor with the request of another process. -/
structure Exclusive (s : State P) : Prop where
  running : s.halted = none
  inside : ∀ r ∈ s.pending, s.proc r.owner = some r
  chain : ∀ r ∈ s.pending, Chain s.disk r
  apart : ∀ r ∈ s.pending, ∀ p r', s.proc p = some r' → p ≠ r.owner → ∀ i, r.Uses i → ¬ r'.Uses i

/-- The free descriptors. -/
def freeSet (d : Disk) : Finset (Fin NUM) := Finset.univ.filter fun i => d.free i = true

/-- Room for a request: three free descriptors, and no request on its buffer that is still to be drained. -/
def Room (s : State P) (b : Fin NBUF) : Prop := 3 ≤ (freeSet s.disk).card ∧ (s.disk.buf b).disk = false

instance (s : State P) (b : Fin NBUF) : Decidable (Room s b) := inferInstanceAs (Decidable (_ ∧ _))

/-! ## The driver's parts -/

theorem Chain.congr {d d' : Disk} {r : Req P} (h : Chain d r) (hdesc : ∀ i, r.Uses i → d'.desc i = d.desc i)
    (hfree : ∀ i, r.Uses i → d'.free i = d.free i) : Chain d' r :=
  ⟨h.ne₀₁, h.ne₀₂, h.ne₁₂, (hdesc _ (.inl rfl)).trans h.d₀, (hdesc _ (.inr (.inl rfl))).trans h.d₁,
    (hdesc _ (.inr (.inr rfl))).trans h.d₂, fun i hi => (hfree i hi).trans (h.busy i hi)⟩

/-- A descriptor is taken. -/
def take (d : Disk) (i : Fin NUM) : Disk := { d with free := update d.free i false }

theorem mem_freeSet {d : Disk} {i : Fin NUM} : i ∈ freeSet d ↔ d.free i = true := by
  simp only [freeSet, Finset.mem_filter, Finset.mem_univ, true_and]

theorem freeSet_take (d : Disk) (i : Fin NUM) : freeSet (take d i) = (freeSet d).erase i := by
  ext j
  rw [Finset.mem_erase, mem_freeSet, mem_freeSet, take]
  rcases eq_or_ne j i with rfl | hj
  · simp
  · simp [hj]

theorem allocDesc_wp {E : Halt → Prop} {d : Disk} (hE : freeSet d = ∅ → E (.panic "virtio: no desc")) :
    allocDesc.wp (fun i d' => d.free i = true ∧ d' = take d i) E d := by
  rw [allocDesc, wp_bind, wp_get]
  cases hf : (List.finRange NUM).find? d.free with
  | some i => exact ⟨List.find?_some hf, rfl⟩
  | none =>
      refine hE (Finset.eq_empty_of_forall_notMem fun i => ?_)
      have := List.find?_eq_none.1 hf i (List.mem_finRange i)
      rwa [mem_freeSet]

/-- What `submit` does once it has its descriptors. -/
structure Submitted (d d' : Disk) (b : Fin NBUF) (write : Bool) (i₀ i₁ i₂ : Fin NUM) : Prop where
  free₀ : d.free i₀ = true
  free₁ : d.free i₁ = true
  free₂ : d.free i₂ = true
  ne₀₁ : i₀ ≠ i₁
  ne₀₂ : i₀ ≠ i₂
  ne₁₂ : i₁ ≠ i₂
  eq : d' = publish (fillChain (take (take (take d i₀) i₁) i₂) b write i₀ i₁ i₂) i₀

/-- The chain of the new request is in place. -/
theorem Submitted.chain {d d' : Disk} {b : Fin NBUF} {write : Bool} {i₀ i₁ i₂ : Fin NUM}
    (h : Submitted d d' b write i₀ i₁ i₂) (p : P) : Chain d' (⟨p, i₀, i₁, i₂, b, write⟩ : Req P) := by
  refine ⟨h.ne₀₁, h.ne₀₂, h.ne₁₂, ?_, ?_, ?_, ?_⟩
  · simp [h.eq, publish, fillChain, h.ne₀₁, h.ne₀₂]
  · simp [h.eq, publish, fillChain, h.ne₁₂]
  · simp [h.eq, publish, fillChain]
  · rintro i (rfl | rfl | rfl)
    all_goals simp [h.eq, publish, fillChain, take, h.ne₀₁, h.ne₀₂, h.ne₁₂]

/-- The other descriptors stay as they are. -/
theorem Submitted.frame {d d' : Disk} {b : Fin NBUF} {write : Bool} {i₀ i₁ i₂ : Fin NUM}
    (h : Submitted d d' b write i₀ i₁ i₂) {i : Fin NUM} (h₀ : i ≠ i₀) (h₁ : i ≠ i₁) (h₂ : i ≠ i₂) :
    d'.desc i = d.desc i ∧ d'.free i = d.free i ∧ d'.info i = d.info i := by
  simp [h.eq, publish, fillChain, take, h₀, h₁, h₂]

theorem Submitted.flag {d d' : Disk} {b : Fin NBUF} {write : Bool} {i₀ i₁ i₂ : Fin NUM}
    (h : Submitted d d' b write i₀ i₁ i₂) (c : Fin NBUF) :
    (d'.buf c).disk = true ↔ c = b ∨ (d.buf c).disk = true := by
  rcases eq_or_ne c b with rfl | hc
  · simp [h.eq, publish, fillChain]
  · simp [h.eq, publish, fillChain, take, hc]

theorem free_of_take {d : Disk} {i j : Fin NUM} (h : (take d i).free j = true) : i ≠ j ∧ d.free j = true := by
  rcases eq_or_ne j i with rfl | hj
  · simp [take] at h
  · exact ⟨hj.symm, by simpa [take, hj] using h⟩

theorem submit_wp {E : Halt → Prop} {d : Disk} (b : Fin NBUF) (write : Bool)
    (hE : (freeSet d).card < 3 → E (.panic "virtio: no desc")) :
    (submit b write).wp (fun r d' => Submitted d d' b write r.1 r.2.1 r.2.2) E d := by
  rw [submit]
  refine wp_seq (allocDesc_wp fun he => hE (by simp [he])) fun i₀ d₁ ⟨h₀, e₁⟩ => ?_
  subst e₁
  have hc₀ := Finset.card_erase_of_mem (mem_freeSet.2 h₀)
  refine wp_seq (allocDesc_wp fun he => hE ?_) fun i₁ d₂ ⟨h₁, e₂⟩ => ?_
  · rw [freeSet_take] at he
    rw [he, Finset.card_empty] at hc₀
    omega
  subst e₂
  have hc₁ := Finset.card_erase_of_mem (mem_freeSet.2 h₁)
  refine wp_seq (allocDesc_wp fun he => hE ?_) fun i₂ d₃ ⟨h₂, e₃⟩ => ?_
  · rw [freeSet_take] at he
    rw [he, Finset.card_empty, freeSet_take, hc₀] at hc₁
    omega
  subst e₃
  obtain ⟨h01, h₁⟩ := free_of_take h₁
  obtain ⟨h12, h₂⟩ := free_of_take h₂
  obtain ⟨h02, h₂⟩ := free_of_take h₂
  exact ⟨h₀, h₁, h₂, h01, h02, h12, rfl⟩

/-- A round of `free_chain`. -/
def release (d : Disk) (i : Fin NUM) : Disk :=
  { d with free := update d.free i true, desc := update d.desc i { d.desc i with flags := 0 } }

theorem freeChainLoop_next {d : Disk} {i : Fin NUM} (h : (d.desc i).flags &&& VRING_DESC_F_NEXT ≠ 0) (n : Nat) :
    freeChainLoop d i (n + 1) = freeChainLoop (release d i) (d.desc i).next n := by
  rw [freeChainLoop, if_pos h, release]

theorem freeChainLoop_last {d : Disk} {i : Fin NUM} (h : (d.desc i).flags &&& VRING_DESC_F_NEXT = 0) (n : Nat) :
    freeChainLoop d i (n + 1) = release d i := by
  rw [freeChainLoop, if_neg (by simpa using h), release]

theorem release_of_ne {d : Disk} {i j : Fin NUM} (h : j ≠ i) :
    (release d i).desc j = d.desc j ∧ (release d i).free j = d.free j :=
  ⟨update_of_ne h _ _, update_of_ne h _ _⟩

/-- `free_chain` releases the three descriptors of a chain that is in place. -/
theorem freeChain_eq {d : Disk} {r : Req P} (h : Chain d r) :
    freeChain d r.i₀ = release (release (release d r.i₀) r.i₁) r.i₂ := by
  have hmid : ∀ w : Bool, ((if w then 0 else VRING_DESC_F_WRITE) ||| VRING_DESC_F_NEXT) &&& VRING_DESC_F_NEXT ≠ 0 := by
    decide
  have h₁ : (release d r.i₀).desc r.i₁ = d.desc r.i₁ := (release_of_ne h.ne₀₁.symm).1
  have h₂ : (release (release d r.i₀) r.i₁).desc r.i₂ = d.desc r.i₂ :=
    (release_of_ne h.ne₁₂.symm).1.trans (release_of_ne h.ne₀₂.symm).1
  have hr₀ : (d.desc r.i₀).flags &&& VRING_DESC_F_NEXT ≠ 0 := by simp [h.d₀, VRING_DESC_F_NEXT]
  have hr₁ : ((release d r.i₀).desc r.i₁).flags &&& VRING_DESC_F_NEXT ≠ 0 := by simpa [h₁, h.d₁] using hmid r.write
  have hr₂ : ((release (release d r.i₀) r.i₁).desc r.i₂).flags &&& VRING_DESC_F_NEXT = 0 := by
    rw [h₂, h.d₂]
    change VRING_DESC_F_WRITE &&& VRING_DESC_F_NEXT = 0
    decide
  calc freeChain d r.i₀
      = freeChainLoop (release d r.i₀) r.i₁ NUM := by rw [freeChain, freeChainLoop_next hr₀, h.d₀]
    _ = freeChainLoop (release (release d r.i₀) r.i₁) r.i₂ 7 := by
      rw [show NUM = 7 + 1 from rfl, freeChainLoop_next hr₁, h₁, h.d₁]
    _ = release (release (release d r.i₀) r.i₁) r.i₂ := freeChainLoop_last hr₂ 6

/-- The other descriptors stay as they are. -/
theorem freeChain_frame {d : Disk} {r : Req P} (h : Chain d r) {i : Fin NUM} (hi : ¬ r.Uses i) :
    (freeChain d r.i₀).desc i = d.desc i ∧ (freeChain d r.i₀).free i = d.free i := by
  have h0 : i ≠ r.i₀ := fun e => hi (.inl e)
  have h1 : i ≠ r.i₁ := fun e => hi (.inr (.inl e))
  have h2 : i ≠ r.i₂ := fun e => hi (.inr (.inr e))
  rw [freeChain_eq h, (release_of_ne h2).1, (release_of_ne h2).2, (release_of_ne h1).1, (release_of_ne h1).2]
  exact release_of_ne h0

/-! ## The device's part -/

/-- What the device leaves alone: everything but data, statuses and its ring. -/
structure Served (d d' : Disk) (h : Fin NUM) : Prop where
  desc : d'.desc = d.desc
  free : d'.free = d.free
  availRing : d'.availRing = d.availRing
  availIdx : d'.availIdx = d.availIdx
  seenIdx : d'.seenIdx = d.seenIdx
  usedRing : d'.usedRing = update d.usedRing (slot NUM d.usedIdx) h
  usedIdx : d'.usedIdx = d.usedIdx + 1
  flag : ∀ b, (d'.buf b).disk = (d.buf b).disk
  info : ∀ i, (d'.info i).b = (d.info i).b
  status : ∀ i, (d.info i).status = 0 → (d'.info i).status = 0

theorem transfer_frame (d : Disk) (d₀ d₁ : VirtqDesc) : ∃ buf blocks,
    transfer d d₀ d₁ = { d with buf := buf, blocks := blocks } ∧ ∀ b, (buf b).disk = (d.buf b).disk := by
  unfold transfer
  split
  · rename_i i b _ _
    simp only
    split
    · exact ⟨_, _, rfl, fun _ => rfl⟩
    · refine ⟨_, _, rfl, fun c => ?_⟩
      rcases eq_or_ne c b with rfl | hc
      · simp
      · simp [hc]
  · exact ⟨_, _, rfl, fun _ => rfl⟩

theorem putStatus_frame (d : Disk) (d₂ : VirtqDesc) : ∃ info, putStatus d d₂ = { d with info := info } ∧
    ∀ i, (info i).b = (d.info i).b ∧ ((info i).status = 0 ∨ (info i).status = (d.info i).status) := by
  unfold putStatus
  split
  · rename_i j _
    refine ⟨_, rfl, fun i => ?_⟩
    rcases eq_or_ne i j with rfl | hi
    · simp
    · simp [hi]
  · exact ⟨_, rfl, fun _ => ⟨rfl, .inr rfl⟩⟩

theorem serve_frame (d : Disk) (h : Fin NUM) : Served d (serve d h) h := by
  obtain ⟨buf, blocks, ht, hflag⟩ := transfer_frame d (d.desc h) (d.desc (d.desc h).next)
  obtain ⟨info, hp, hinfo⟩ := putStatus_frame (transfer d (d.desc h) (d.desc (d.desc h).next))
    (d.desc (d.desc (d.desc h).next).next)
  rw [ht] at hp hinfo
  have hs : serve d h = { d with
      buf := buf, blocks := blocks, info := info
      usedRing := update d.usedRing (slot NUM d.usedIdx) h, usedIdx := d.usedIdx + 1 } := by
    simp only [serve, ht, hp]
  rw [hs]
  refine ⟨rfl, rfl, rfl, rfl, rfl, rfl, rfl, hflag, fun i => (hinfo i).1, fun i hi => ?_⟩
  rcases (hinfo i).2 with he | he
  · exact he
  · exact he.trans hi

/-- The device clears the status of a chain that is in place. -/
theorem serve_status {d : Disk} {r : Req P} (h : Chain d r) : ((serve d r.i₀).info r.i₀).status = 0 := by
  simp only [serve, h.d₀, h.d₁, h.d₂, putStatus]
  simp

/-! ## The invariant -/

/-- The requests of the system by where they are: published and not read by the device (`un`), read and not
completed (`fe`), completed and not drained (`dn`). -/
structure Inv (s : State P) (un fe dn : List (Req P)) : Prop where
  running : s.halted = none
  own : ∀ p r, s.proc p = some r → r.owner = p ∧ Chain s.disk r
  apart : ∀ p q r r', s.proc p = some r → s.proc q = some r' → p ≠ q → ∀ i, r.Uses i → ¬ r'.Uses i
  avail : Queued s.disk.availRing s.lastAvail s.disk.availIdx (un.map Req.i₀)
  inflight : s.inflight = fe.map Req.i₀
  pending : s.pending.Perm (un ++ fe)
  used : Queued s.disk.usedRing s.disk.seenIdx s.disk.usedIdx (dn.map Req.i₀)
  inside : ∀ r ∈ un ++ fe ++ dn, s.proc r.owner = some r
  nodup : (un ++ fe ++ dn).Nodup
  flag : ∀ b, (s.disk.buf b).disk = true ↔ ∃ r ∈ un ++ fe ++ dn, r.buf = b
  bufs : ∀ r ∈ un ++ fe ++ dn, ∀ r' ∈ un ++ fe ++ dn, r.buf = r'.buf → r = r'
  info : ∀ r ∈ un ++ fe ++ dn, (s.disk.info r.i₀).b = some r.buf
  done : ∀ r ∈ dn, (s.disk.info r.i₀).status = 0

namespace Inv

variable {s : State P} {un fe dn : List (Req P)}

theorem exclusive (h : Inv s un fe dn) : Exclusive s := by
  have hmem : ∀ r ∈ s.pending, r ∈ un ++ fe ++ dn := fun r hr =>
    List.mem_append_left _ (h.pending.mem_iff.1 hr)
  refine ⟨h.running, fun r hr => h.inside r (hmem r hr), fun r hr => ?_, fun r hr p r' hp hne i hi hi' => ?_⟩
  · exact (h.own _ r (h.inside r (hmem r hr))).2
  · exact h.apart _ p r r' (h.inside r (hmem r hr)) hp hne.symm i hi hi'

/-- The head of a chain tells the request. -/
theorem head_inj (h : Inv s un fe dn) {r r' : Req P} (hr : r ∈ un ++ fe ++ dn) (hr' : r' ∈ un ++ fe ++ dn)
    (he : r.i₀ = r'.i₀) : r = r' := by
  by_contra hne
  have hin := h.inside r hr
  have hin' := h.inside r' hr'
  have howner : r.owner ≠ r'.owner := fun e => hne (Option.some.inj (hin.symm.trans (e ▸ hin')))
  exact h.apart _ _ r r' hin hin' howner r.i₀ (.inl rfl) (.inl he)

theorem heads_nodup (h : Inv s un fe dn) : ((un ++ fe ++ dn).map Req.i₀).Nodup :=
  List.Nodup.map_on (fun _ hr _ hr' he => h.head_inj hr hr' he) h.nodup

/-- A queue with room for one more head. -/
theorem length_lt {l : List (Fin NUM)} {i : Fin NUM} (h : (i :: l).Nodup) : l.length < NUM := by
  have hle := h.length_le_card
  rw [List.length_cons, Fintype.card_fin] at hle
  exact hle

theorem nil (buf : Fin NBUF → DiskBuf) (blocks : Nat → Block) :
    Inv { disk := .boot buf blocks, lastAvail := 0, inflight := [], proc := fun _ => none, pending := [],
          halted := none : State P } [] [] [] where
  running := rfl
  own := fun _ _ hr => absurd hr (by simp)
  apart := fun _ _ _ _ hr => absurd hr (by simp)
  avail := .nil _ _
  inflight := rfl
  pending := .refl _
  used := .nil _ _
  inside := by simp
  nodup := by simp
  flag := by simp [Disk.boot]
  bufs := by simp
  info := by simp
  done := by simp

theorem fetch (h : Inv s un fe dn) (hne : s.lastAvail ≠ s.disk.availIdx) :
    ∃ un' r, Inv { s with
      lastAvail := s.lastAvail + 1
      inflight := s.inflight ++ [s.disk.availRing (slot NUM s.lastAvail)] } un' (fe ++ [r]) dn := by
  cases un with
  | nil => exact absurd rfl ((h.avail.ne_iff (by decide)).1 hne)
  | cons r un =>
      obtain ⟨hcell, havail⟩ := h.avail.pop
      have hmem : ∀ x, x ∈ un ++ (fe ++ [r]) ++ dn ↔ x ∈ r :: un ++ fe ++ dn := by
        intro x
        simp only [List.mem_append, List.mem_cons, List.not_mem_nil, or_false]
        tauto
      have hperm : (un ++ (fe ++ [r])).Perm (r :: un ++ fe) := by
        rw [← List.append_assoc]
        exact List.perm_append_singleton r (un ++ fe)
      refine ⟨un, r, h.running, h.own, h.apart, havail, ?_, h.pending.trans hperm.symm, h.used,
        fun x hx => h.inside x ((hmem x).1 hx), (hperm.append_right dn).nodup_iff.2 h.nodup, fun c => ?_,
        fun x hx x' hx' => h.bufs x ((hmem x).1 hx) x' ((hmem x').1 hx'), fun x hx => h.info x ((hmem x).1 hx),
        h.done⟩
      · simp [h.inflight, hcell]
      · simp only [h.flag c, hmem]

variable [DecidableEq P]

theorem submit (h : Inv s un fe dn) {p : P} {b : Fin NBUF} {write : Bool} {i₀ i₁ i₂ : Fin NUM} {d : Disk}
    (hp : s.proc p = none) (hb : (s.disk.buf b).disk = false) (hs : Submitted s.disk d b write i₀ i₁ i₂) :
    Inv { s with
      disk := d
      proc := update s.proc p (some ⟨p, i₀, i₁, i₂, b, write⟩)
      pending := s.pending ++ [⟨p, i₀, i₁, i₂, b, write⟩] } (un ++ [⟨p, i₀, i₁, i₂, b, write⟩]) fe dn := by
  set r : Req P := ⟨p, i₀, i₁, i₂, b, write⟩ with hr
  have hmem : ∀ x, x ∈ un ++ [r] ++ fe ++ dn ↔ x = r ∨ x ∈ un ++ fe ++ dn := by
    intro x
    simp only [List.mem_append, List.mem_singleton]
    tauto
  have hbusy : ∀ q x, s.proc q = some x → ∀ i, x.Uses i → i ≠ i₀ ∧ i ≠ i₁ ∧ i ≠ i₂ := by
    intro q x hx i hi
    have := (h.own q x hx).2.busy i hi
    refine ⟨?_, ?_, ?_⟩
    · rintro rfl
      exact absurd (this.symm.trans hs.free₀) (by simp)
    · rintro rfl
      exact absurd (this.symm.trans hs.free₁) (by simp)
    · rintro rfl
      exact absurd (this.symm.trans hs.free₂) (by simp)
  have hold : ∀ x ∈ un ++ fe ++ dn, x.owner ≠ p := fun x hx e => by
    have := h.inside x hx
    rw [e, hp] at this
    exact absurd this (by simp)
  have hhead : ∀ x ∈ un ++ fe ++ dn, d.info x.i₀ = s.disk.info x.i₀ := fun x hx => by
    obtain ⟨h₀, h₁, h₂⟩ := hbusy _ x (h.inside x hx) x.i₀ (.inl rfl)
    exact (hs.frame h₀ h₁ h₂).2.2
  refine ⟨h.running, fun q x hx => ?_, fun q q' x x' hx hx' hne i hi hi' => ?_, ?_, h.inflight, ?_, ?_,
    fun x hx => ?_, ?_, fun c => ?_, fun x hx x' hx' he => ?_, fun x hx => ?_, fun x hx => ?_⟩
  · change update s.proc p (some r) q = some x at hx
    rcases eq_or_ne q p with rfl | hq
    · obtain rfl : r = x := by simpa using hx
      exact ⟨rfl, hs.chain q⟩
    · rw [update_of_ne hq] at hx
      obtain ⟨ho, hc⟩ := h.own q x hx
      refine ⟨ho, hc.congr (fun i hi => ?_) fun i hi => ?_⟩
      all_goals obtain ⟨h₀, h₁, h₂⟩ := hbusy q x hx i hi
      · exact (hs.frame h₀ h₁ h₂).1
      · exact (hs.frame h₀ h₁ h₂).2.1
  · change update s.proc p (some r) q = some x at hx
    change update s.proc p (some r) q' = some x' at hx'
    rcases eq_or_ne q p with rfl | hq
    · obtain rfl : r = x := by simpa using hx
      rw [update_of_ne hne.symm] at hx'
      obtain ⟨h₀, h₁, h₂⟩ := hbusy q' x' hx' i hi'
      rcases hi with e | e | e
      exacts [h₀ e, h₁ e, h₂ e]
    · rw [update_of_ne hq] at hx
      rcases eq_or_ne q' p with rfl | hq'
      · obtain rfl : r = x' := by simpa using hx'
        obtain ⟨h₀, h₁, h₂⟩ := hbusy q x hx i hi
        rcases hi' with e | e | e
        exacts [h₀ e, h₁ e, h₂ e]
      · rw [update_of_ne hq'] at hx'
        exact h.apart q q' x x' hx hx' hne i hi hi'
  · have hlt : (un.map Req.i₀).length < NUM := by
      have hnd := h.heads_nodup
      rw [List.map_append, List.map_append] at hnd
      refine length_lt (i := i₀) (List.nodup_cons.2 ⟨fun hi => ?_, hnd.of_append_left.of_append_left⟩)
      obtain ⟨x, hx, hxi⟩ := List.mem_map.1 hi
      exact (hbusy _ x (h.inside x (by simp [hx])) x.i₀ (.inl rfl)).1 hxi
    have := h.avail.push (by decide) hlt i₀
    rw [List.map_append]
    simpa [hs.eq, publish, fillChain, take] using this
  · refine (h.pending.append_right [r]).trans ?_
    rw [List.append_assoc, List.append_assoc]
    exact List.perm_append_comm.append_left un
  · simpa [hs.eq, publish, fillChain, take] using h.used
  · rcases (hmem x).1 hx with rfl | hx
    · simp [hr]
    · change update s.proc p (some r) x.owner = some x
      rw [update_of_ne (hold x hx)]
      exact h.inside x hx
  · have hperm : (un ++ [r] ++ fe ++ dn).Perm (r :: (un ++ fe ++ dn)) := by
      simp
    exact hperm.nodup_iff.2 (List.nodup_cons.2 ⟨fun hx => hold r hx rfl, h.nodup⟩)
  · rw [hs.flag, h.flag]
    constructor
    · rintro (rfl | ⟨x, hx, rfl⟩)
      · exact ⟨r, (hmem r).2 (.inl rfl), rfl⟩
      · exact ⟨x, (hmem x).2 (.inr hx), rfl⟩
    · rintro ⟨x, hx, rfl⟩
      rcases (hmem x).1 hx with rfl | hx
      · exact .inl rfl
      · exact .inr ⟨x, hx, rfl⟩
  · have hnew : ∀ y ∈ un ++ fe ++ dn, y.buf ≠ b := fun y hy e =>
      absurd (hb.symm.trans ((h.flag b).2 ⟨y, hy, e⟩)) (by simp)
    rcases (hmem x).1 hx with rfl | hx <;> rcases (hmem x').1 hx' with rfl | hx'
    · rfl
    · exact absurd he.symm (hnew x' hx')
    · exact absurd he (hnew x hx)
    · exact h.bufs x hx x' hx' he
  · rcases (hmem x).1 hx with rfl | hx
    · simp [hs.eq, publish, fillChain, hr]
    · exact hhead x hx ▸ h.info x hx
  · exact hhead x (by simp [hx]) ▸ h.done x hx

/-- Erasing by a key that tells the elements apart is erasing the element. -/
theorem eraseP_key {α β : Type} [DecidableEq α] [DecidableEq β] (key : α → β) (a : α) :
    ∀ l : List α, (∀ x ∈ l, key x = key a → x = a) → l.eraseP (fun x => key x = key a) = l.erase a
  | [], _ => rfl
  | x :: l, h => by
      rcases eq_or_ne x a with rfl | hx
      · simp
      · have hk : key x ≠ key a := fun e => hx (h x List.mem_cons_self e)
        rw [List.eraseP_cons_of_neg (by simpa using hk), List.erase_cons_tail (by simpa using hx),
          eraseP_key key a l fun y hy => h y (List.mem_cons_of_mem _ hy)]

theorem complete (h : Inv s un fe dn) {i : Fin NUM} (hi : i ∈ s.inflight) : ∃ fe' r, Inv { s with
      disk := serve s.disk i
      inflight := s.inflight.erase i
      pending := s.pending.eraseP fun r => r.i₀ = i } un fe' (dn ++ [r]) := by
  rw [h.inflight] at hi
  obtain ⟨r, hr, rfl⟩ := List.mem_map.1 hi
  have hlive : r ∈ un ++ fe ++ dn := by simp [hr]
  have hs := serve_frame s.disk r.i₀
  have hperm : (un ++ fe.erase r ++ (dn ++ [r])).Perm (un ++ fe ++ dn) := by
    have h₁ : (fe.erase r ++ (dn ++ [r])).Perm (fe ++ dn) := by
      rw [← List.append_assoc]
      refine (List.perm_append_singleton r _).trans ?_
      exact (List.perm_cons_erase hr).symm.append_right dn
    simpa [List.append_assoc] using h₁.append_left un
  have hmem : ∀ x, x ∈ un ++ fe.erase r ++ (dn ++ [r]) ↔ x ∈ un ++ fe ++ dn := fun x => hperm.mem_iff
  have hkey : ∀ l : List (Req P), (∀ x ∈ l, x ∈ un ++ fe ++ dn) →
      l.eraseP (fun x => x.i₀ = r.i₀) = l.erase r := fun l hl =>
    eraseP_key Req.i₀ r l fun x hx e => h.head_inj (hl x hx) hlive e
  refine ⟨fe.erase r, r, h.running, fun q x hx => ?_, h.apart, ?_, ?_, ?_, ?_, fun x hx => h.inside x ((hmem x).1 hx),
    hperm.nodup_iff.2 h.nodup, fun c => ?_, fun x hx x' hx' => h.bufs x ((hmem x).1 hx) x' ((hmem x').1 hx'),
    fun x hx => ?_, fun x hx => ?_⟩
  · obtain ⟨ho, hc⟩ := h.own q x hx
    exact ⟨ho, hc.congr (fun i _ => congrFun hs.desc i) fun i _ => congrFun hs.free i⟩
  · change Queued (serve s.disk r.i₀).availRing _ (serve s.disk r.i₀).availIdx _
    rw [hs.availRing, hs.availIdx]
    exact h.avail
  · change s.inflight.erase r.i₀ = _
    rw [h.inflight, List.erase_eq_eraseP', List.eraseP_map]
    congr 1
    rw [← hkey fe fun x hx => by simp [hx]]
    congr 1
  · change (s.pending.eraseP fun x => x.i₀ = r.i₀).Perm _
    rw [hkey s.pending fun x hx => List.mem_append_left _ (h.pending.mem_iff.1 hx)]
    have hun : r ∉ un := fun hu => by
      have := h.nodup.of_append_left
      exact (List.nodup_append.1 this).2.2 r hu r hr rfl
    rw [← List.erase_append_right _ hun]
    exact h.pending.erase r
  · have hlt : (dn.map Req.i₀).length < NUM := by
      have hnd := h.heads_nodup
      rw [List.map_append] at hnd
      refine length_lt (i := r.i₀) (List.nodup_cons.2 ⟨fun hd => ?_, hnd.of_append_right⟩)
      exact (List.nodup_append.1 hnd).2.2 r.i₀ (List.mem_map_of_mem (by simp [hr])) r.i₀ hd rfl
    have := h.used.push (by decide) hlt r.i₀
    change Queued (serve s.disk r.i₀).usedRing (serve s.disk r.i₀).seenIdx (serve s.disk r.i₀).usedIdx _
    rw [hs.usedRing, hs.seenIdx, hs.usedIdx, List.map_append]
    exact this
  · change ((serve s.disk r.i₀).buf c).disk = true ↔ _
    simp only [hs.flag, h.flag c, hmem]
  · exact (hs.info x.i₀).trans (h.info x ((hmem x).1 hx))
  · rcases List.mem_append.1 hx with hx | hx
    · exact hs.status _ (h.done x hx)
    · obtain rfl : x = r := by simpa using hx
      exact serve_status (h.own _ x (h.inside x hlive)).2

omit [DecidableEq P] in
theorem drain (h : Inv s un fe dn) (hne : s.disk.seenIdx ≠ s.disk.usedIdx) : ∃ d dn',
    drainOne.run s.disk = .ok ((), d) ∧ Inv { s with disk := d } un fe dn' := by
  cases dn with
  | nil => exact absurd rfl ((h.used.ne_iff (by decide)).1 hne)
  | cons r dn =>
      obtain ⟨hcell, hused⟩ := h.used.pop
      have hlive : r ∈ un ++ fe ++ r :: dn := by simp
      have hmem : ∀ x, x ∈ un ++ fe ++ dn → x ∈ un ++ fe ++ r :: dn := by
        intro x
        simp only [List.mem_append, List.mem_cons]
        tauto
      have hnd : r ∉ un ++ fe ++ dn ∧ (un ++ fe ++ dn).Nodup :=
        List.nodup_cons.1 (List.perm_middle.nodup_iff.1 h.nodup)
      refine ⟨{ s.disk with
          buf := update s.disk.buf r.buf { s.disk.buf r.buf with disk := false }
          seenIdx := s.disk.seenIdx + 1 }, dn, ?_, h.running, fun q x hx => ?_, h.apart, h.avail, h.inflight,
        h.pending, hused, fun x hx => h.inside x (hmem x hx), hnd.2, fun c => ?_,
        fun x hx x' hx' => h.bufs x (hmem x hx) x' (hmem x' hx'), fun x hx => h.info x (hmem x hx),
        fun x hx => h.done x (List.mem_cons_of_mem _ hx)⟩
      · simp [drainOne, run_bind, Prog.get, Prog.modify, Prog.run, hcell, h.done r, h.info r hlive]
      · obtain ⟨ho, hc⟩ := h.own q x hx
        exact ⟨ho, hc.congr (fun _ _ => rfl) fun _ _ => rfl⟩
      · rcases eq_or_ne c r.buf with rfl | hc
        · simp only [update_self, Bool.false_eq_true, false_iff]
          rintro ⟨x, hx, he⟩
          exact hnd.1 (h.bufs x (hmem x hx) r hlive he ▸ hx)
        · simp only [update_of_ne hc]
          rw [h.flag c]
          constructor
          · rintro ⟨x, hx, rfl⟩
            have hxr : x ≠ r := fun e => hc (e ▸ rfl)
            refine ⟨x, ?_, rfl⟩
            simp only [List.mem_append, List.mem_cons, hxr, false_or] at hx ⊢
            exact hx
          · rintro ⟨x, hx, rfl⟩
            exact ⟨x, hmem x hx, rfl⟩

theorem leave (h : Inv s un fe dn) {p : P} {r : Req P} (hp : s.proc p = some r)
    (hb : (s.disk.buf r.buf).disk = false) :
    Inv { s with disk := freeChain s.disk r.i₀, proc := update s.proc p none } un fe dn := by
  obtain ⟨hown, hchain⟩ := h.own p r hp
  have hout : r ∉ un ++ fe ++ dn := fun hr =>
    absurd (hb.symm.trans ((h.flag r.buf).2 ⟨r, hr, rfl⟩)) (by simp)
  have hne : ∀ x ∈ un ++ fe ++ dn, x.owner ≠ p := fun x hx e => by
    have hin := h.inside x hx
    rw [e, hp] at hin
    exact hout (Option.some.inj hin ▸ hx)
  have heq := freeChain_eq hchain
  refine ⟨h.running, fun q x hx => ?_, fun q q' x x' hx hx' => ?_, ?_, h.inflight, h.pending, ?_, fun x hx => ?_,
    h.nodup, fun c => ?_, h.bufs, fun x hx => ?_, fun x hx => ?_⟩
  · change update s.proc p none q = some x at hx
    have hqp : q ≠ p := by
      rintro rfl
      simp at hx
    rw [update_of_ne hqp] at hx
    obtain ⟨ho, hc⟩ := h.own q x hx
    have hno : ∀ i, x.Uses i → ¬ r.Uses i := h.apart q p x r hx hp hqp
    exact ⟨ho, hc.congr (fun i hi => (freeChain_frame hchain (hno i hi)).1) fun i hi =>
      (freeChain_frame hchain (hno i hi)).2⟩
  · have hold : ∀ q x, update s.proc p none q = some x → s.proc q = some x := by
      intro q x hq
      rcases eq_or_ne q p with rfl | hqp
      · simp at hq
      · rwa [update_of_ne hqp] at hq
    exact h.apart q q' x x' (hold q x hx) (hold q' x' hx')
  · simpa [heq, release] using h.avail
  · simpa [heq, release] using h.used
  · change update s.proc p none x.owner = some x
    rw [update_of_ne (hne x hx)]
    exact h.inside x hx
  · simpa [heq, release] using h.flag c
  · simpa [heq, release] using h.info x hx
  · simpa [heq, release] using h.done x hx

end Inv

/-! ## Runs -/

variable [DecidableEq P]

theorem inv_step {s t : State P} (h : ∃ un fe dn, Inv s un fe dn) (hs : Step Room s t) :
    ∃ un fe dn, Inv t un fe dn := by
  obtain ⟨un, fe, dn, h⟩ := h
  cases hs with
  | @submit p b write _ _ _ _ _ hp hroom hr =>
      exact ⟨_, _, _, h.submit hp hroom.2 (wp_ok (submit_wp (E := fun _ => True) b write fun _ => trivial) hr)⟩
  | @noDesc p b write e _ _ hroom hr =>
      have htotal := submit_wp (E := fun _ => False) (d := s.disk) b write fun hlt =>
        absurd hroom.1 (by omega)
      obtain ⟨_, _, hok, -⟩ := wp_total htotal
      exact absurd (hr.symm.trans hok) (by simp)
  | fetch _ hne =>
      obtain ⟨_, _, hinv⟩ := h.fetch hne
      exact ⟨_, _, _, hinv⟩
  | complete _ hi =>
      obtain ⟨_, _, hinv⟩ := h.complete hi
      exact ⟨_, _, _, hinv⟩
  | drain _ _ hne hr =>
      obtain ⟨d, dn', hok, hinv⟩ := h.drain hne
      obtain rfl : d = _ := by simpa using hok.symm.trans hr
      exact ⟨_, _, _, hinv⟩
  | statusError _ _ hne hr =>
      obtain ⟨_, _, hok, -⟩ := h.drain hne
      exact absurd (hr.symm.trans hok) (by simp)
  | leave _ hp hb => exact ⟨_, _, _, h.leave hp hb⟩

/-- **Requests in flight are exclusive in every run that submits with room.** -/
theorem exclusive_reach {s : State P} (h : Reach Init (Step Room) s) : Exclusive s := by
  obtain ⟨_, _, _, hinv⟩ := h.invariant (fun s => ∃ un fe dn, Inv s un fe dn)
    (fun s ⟨buf, blocks, e⟩ => ⟨_, _, _, e ▸ Inv.nil buf blocks⟩) fun _ _ => inv_step
  exact hinv.exclusive

/-! ## Three processes -/

/-- Nobody is inside, over a disk of zeros. -/
def idle : State (Fin 3) where
  disk := .boot (fun _ => ⟨false, 0, fun _ => 0⟩) fun _ _ => 0
  lastAvail := 0
  inflight := []
  proc := fun _ => none
  pending := []
  halted := none

theorem init_idle : Init idle := ⟨_, _, rfl⟩

/-- Process `p` submits a read into buffer `b`. -/
def submits (s : State (Fin 3)) (p : Fin 3) (b : Fin NBUF) (i₀ i₁ i₂ : Fin NUM) : State (Fin 3) :=
  { s with
    disk := (submit b false).exec s.disk
    proc := update s.proc p (some ⟨p, i₀, i₁, i₂, b, false⟩)
    pending := s.pending ++ [⟨p, i₀, i₁, i₂, b, false⟩] }

theorem step_submits {ok : State (Fin 3) → Fin NBUF → Prop} {s : State (Fin 3)} {p : Fin 3} {b : Fin NBUF}
    {i₀ i₁ i₂ : Fin NUM} (hh : s.halted = none) (hp : s.proc p = none) (hok : ok s b)
    (hr : ((submit b false).run s.disk).toOption.map Prod.fst = some (i₀, i₁, i₂)) :
    Step ok s (submits s p b i₀ i₁ i₂) := by
  refine .submit hh hp hok ?_
  unfold exec
  cases hrun : (submit b false).run s.disk with
  | ok r =>
      rw [hrun] at hr
      obtain ⟨i, d⟩ := r
      obtain rfl : i = (i₀, i₁, i₂) := by simpa [Except.toOption] using hr
      rfl
  | error e => simp [hrun, Except.toOption] at hr

/-- Two processes read two blocks. -/
def twoReads : State (Fin 3) := submits (submits idle 0 0 0 1 2) 1 1 3 4 5

/-- Two requests in flight, on two buffers. -/
theorem exclusive_twoReads : Reach Init (Step Room) twoReads ∧ twoReads.pending.length = 2 ∧
    Exclusive twoReads := by
  have hreach : Reach Init (Step Room) twoReads :=
    ((Reach.start init_idle).next (step_submits rfl rfl (by decide +kernel) (by decide +kernel))).next
      (step_submits rfl (by decide +kernel) (by decide +kernel) (by decide +kernel))
  exact ⟨hreach, rfl, exclusive_reach hreach⟩

/-- Two processes read one block that is not cached. -/
def sameBlock : State (Fin 3) := submits (submits idle 0 0 0 1 2) 1 0 3 4 5

/-- The device reads the first head. -/
def fetched (s : State (Fin 3)) : State (Fin 3) :=
  { s with
    lastAvail := s.lastAvail + 1
    inflight := s.inflight ++ [s.disk.availRing (slot NUM s.lastAvail)] }

def completed (s : State (Fin 3)) (h : Fin NUM) : State (Fin 3) :=
  { s with
    disk := serve s.disk h
    inflight := s.inflight.erase h
    pending := s.pending.eraseP fun r => r.i₀ = h }

def drained (s : State (Fin 3)) : State (Fin 3) := { s with disk := drainOne.exec s.disk }

/-- The first request is completed and drained, and the second process leaves. -/
def leftEarly : State (Fin 3) :=
  let s := drained (completed (fetched sameBlock) 0)
  { s with disk := freeChain s.disk 3, proc := update s.proc 1 none }

/-- Without the bounds: three processes run out of descriptors, and of two that read the same block the second
leaves, and frees its chain, while its request is published and not completed. -/
theorem exclusive_fails :
    (∃ s : State (Fin 3), Reach Init (Step fun _ _ => True) s ∧ s.halted = some (.panic "virtio: no desc")) ∧
    ∃ s : State (Fin 3), Reach Init (Step fun _ _ => True) s ∧ ∃ r ∈ s.pending, s.proc r.owner = none ∧
      s.disk.free r.i₀ = true := by
  have h₀ : Reach Init (Step fun _ _ => True) idle := .start init_idle
  constructor
  · have h₂ : Reach Init (Step fun _ _ => True) twoReads :=
      (h₀.next (step_submits rfl rfl trivial (by decide +kernel))).next
        (step_submits rfl (by decide +kernel) trivial (by decide +kernel))
    have hpanic : (submit 2 false).run twoReads.disk = .error (.panic "virtio: no desc") := by
      have hno : (((submit 2 false).run twoReads.disk).toOption.isNone) = true := by decide +kernel
      cases hr : (submit 2 false).run twoReads.disk with
      | ok r => simp [hr, Except.toOption] at hno
      | error e =>
          have hw := submit_wp (E := fun e => e = .panic "virtio: no desc") (d := twoReads.disk) 2 false
            fun _ => rfl
          rw [((wp_iff _).1 hw).2 e hr]
    exact ⟨_, h₂.next (.noDesc (p := 2) rfl (by decide +kernel) trivial hpanic), rfl⟩
  · have h₂ : Reach Init (Step fun _ _ => True) sameBlock :=
      (h₀.next (step_submits rfl rfl trivial (by decide +kernel))).next
        (step_submits rfl (by decide +kernel) trivial (by decide +kernel))
    have h₃ : Reach Init (Step fun _ _ => True) (fetched sameBlock) := h₂.next (.fetch rfl (by decide +kernel))
    have h₄ : Reach Init (Step fun _ _ => True) (completed (fetched sameBlock) 0) :=
      h₃.next (.complete rfl (by decide +kernel))
    obtain ⟨_, hr⟩ := run_exec (p := drainOne) (s := (completed (fetched sameBlock) 0).disk) (by decide +kernel)
    have h₅ : Reach Init (Step fun _ _ => True) (drained (completed (fetched sameBlock) 0)) :=
      h₄.next (.drain (p := 0) (r := ⟨0, 0, 1, 2, 0, false⟩) rfl (by decide +kernel) (by decide +kernel) hr)
    refine ⟨leftEarly, h₅.next (.leave (p := 1) (r := ⟨1, 3, 4, 5, 0, false⟩) rfl (by decide +kernel)
      (by decide +kernel)), ⟨1, 3, 4, 5, 0, false⟩, ?_⟩
    decide +kernel

end RiscvOsLab.Driver
