import RiscvOsLab.Fs.Bio
import Mathlib.Data.Fintype.Card
import Mathlib.Data.Fintype.Fin
import Mathlib.Data.List.Perm.Basic
import Mathlib.Data.Finset.Card

/-!
# The invariant of the buffer cache

`CacheInv s order held` relates the cache to its LRU list `order` and to the outstanding breads `held`:
the links are one ring through all buffers, a block has at most one buffer, reference counts count the
breads, and a buffer nobody has touched since its last `bwrite` equals its disk block.

One lemma for each operation: `bread_run`, `store_run` (a client writes into a buffer it holds),
`bwrite_run`, `brelse_run`. `Coherent s held` forgets the order of the list.
-/

namespace RiscvOsLab.Fs

open Prog Function

/-- An outstanding bread: the buffer it returned, the block asked for, and whether its holder has
changed the data since its last `bwrite`. -/
structure Hold where
  buf : Fin NBUF
  blk : Nat
  touched : Bool
  deriving DecidableEq

/-- The number of outstanding breads of a buffer. -/
def holds (held : List Hold) (b : Fin NBUF) : Nat := held.countP (·.buf = b)

/-- The buffers that are held. -/
def heldBufs (held : List Hold) : Finset (Fin NBUF) := (held.map Hold.buf).toFinset

/-! ## The LRU list -/

/-- The links are one ring through all buffers, in this order. -/
structure Listed (s : Dev) (order : List (Fin NBUF)) : Prop where
  ring : Ring s.links .head (order.map .buf)
  full : ∀ b, b ∈ order

namespace Listed

variable {s : Dev} {order : List (Fin NBUF)}

theorem nodup (h : Listed s order) : order.Nodup := List.Nodup.of_map _ h.ring.nodup_tail

theorem length_lt (h : Listed s order) : (order.map Node.buf).length < NBUF + 1 := by
  have := h.nodup.length_le_card
  simpa [Nat.lt_succ_iff] using this

theorem scan_next (h : Listed s order) (test : Buf → Bool) :
    s.scan s.links.next test = some (order.find? fun b => test (s.buf b)) := by
  rw [Dev.scan, h.ring.walk_next _ h.length_lt, List.find?_map]
  change some (((order.find? fun b => test (s.buf b)).map Node.buf).bind Node.buf?) = _
  cases order.find? fun b => test (s.buf b) <;> rfl

theorem scan_prev (h : Listed s order) (test : Buf → Bool) :
    s.scan s.links.prev test = some (order.reverse.find? fun b => test (s.buf b)) := by
  rw [Dev.scan, h.ring.walk_prev _ h.length_lt, ← List.map_reverse, List.find?_map]
  change some (((order.reverse.find? fun b => test (s.buf b)).map Node.buf).bind Node.buf?) = _
  cases order.reverse.find? fun b => test (s.buf b) <;> rfl

/-- A buffer is moved to the front. -/
theorem toFront (h : Listed s order) (b : Fin NBUF) {t : Dev}
    (ht : t.links = (s.links.unlink (.buf b)).insertHead .head (.buf b)) : Listed t (b :: order.erase b) := by
  have hring := h.ring.unlink (List.mem_map_of_mem (h.full b))
  have hmap : (order.map Node.buf).erase (.buf b) = (order.erase b).map Node.buf :=
    (List.map_erase (fun _ _ e => Node.buf.inj e) _).symm
  rw [hmap] at hring
  have hin := hring.insertHead (b := .buf b) (by simpa using h.nodup.not_mem_erase)
  rw [← ht] at hin
  refine ⟨hin, fun c => ?_⟩
  rcases eq_or_ne c b with rfl | hc
  · exact List.mem_cons_self
  · exact List.mem_cons_of_mem _ ((List.mem_erase_of_ne hc).2 (h.full c))

end Listed

/-! ## The invariant -/

structure CacheInv (s : Dev) (order : List (Fin NBUF)) (held : List Hold) : Prop where
  ring : Ring s.links .head (order.map .buf)
  full : ∀ b, b ∈ order
  free : ∀ b, (s.buf b).dev ≠ ROOTDEV → (s.buf b).valid = false
  valid : ∀ b, (s.buf b).dev = ROOTDEV → (s.buf b).valid = true
  key : ∀ b c, (s.buf b).dev = ROOTDEV → (s.buf c).dev = ROOTDEV →
    (s.buf b).blockno = (s.buf c).blockno → b = c
  refs : ∀ b, (s.buf b).refcnt = UInt32.ofNat (holds held b)
  keys : ∀ h ∈ held, (s.buf h.buf).dev = ROOTDEV ∧ (s.buf h.buf).blockno = h.blk
  few : held.length < 2 ^ 32
  clean : ∀ b, (s.buf b).dev = ROOTDEV → (∀ h ∈ held, h.buf = b → h.touched = false) →
    (s.buf b).data = s.disk (s.buf b).blockno

/-! ## Counting holds -/

theorem holds_cons (h : Hold) (held : List Hold) (b : Fin NBUF) :
    holds (h :: held) b = holds held b + if h.buf = b then 1 else 0 := by
  simp [holds, List.countP_cons]

theorem holds_le (held : List Hold) (b : Fin NBUF) : holds held b ≤ held.length := List.countP_le_length

theorem holds_eq_zero {held : List Hold} {b : Fin NBUF} :
    holds held b = 0 ↔ ∀ h ∈ held, h.buf ≠ b := by
  simp [holds, List.countP_eq_zero]

theorem holds_erase {held : List Hold} {h : Hold} (hh : h ∈ held) (b : Fin NBUF) :
    holds (held.erase h) b + (if h.buf = b then 1 else 0) = holds held b := by
  rw [← holds_cons]
  exact (List.perm_cons_erase hh).symm.countP_eq _

theorem length_erase {held : List Hold} {h : Hold} (hh : h ∈ held) :
    (held.erase h).length + 1 = held.length := by
  have := List.length_pos_of_mem hh
  rw [List.length_erase_of_mem hh]
  omega

theorem ofNat_eq_zero {n : Nat} (h : n < 2 ^ 32) : UInt32.ofNat n = 0 ↔ n = 0 := by
  constructor
  · intro e
    have := congrArg UInt32.toNat e
    rwa [UInt32.toNat_ofNat', Nat.mod_eq_of_lt h] at this
  · rintro rfl
    rfl

theorem ofNat_add_one (n : Nat) : UInt32.ofNat (n + 1) = UInt32.ofNat n + 1 := by
  simp [UInt32.ofNat_add]

namespace CacheInv

variable {s : Dev} {order : List (Fin NBUF)} {held : List Hold} {b : Fin NBUF} {k : Nat}

theorem refcnt_eq_zero (hI : CacheInv s order held) :
    (s.buf b).refcnt = 0 ↔ ∀ h ∈ held, h.buf ≠ b := by
  rw [hI.refs b, ofNat_eq_zero (lt_of_le_of_lt (holds_le held b) hI.few), holds_eq_zero]

theorem listed (hI : CacheInv s order held) : Listed s order := ⟨hI.ring, hI.full⟩

theorem nodup (hI : CacheInv s order held) : order.Nodup := hI.listed.nodup

/-- A buffer with a positive count belongs to the root device. -/
theorem dev_of_ref (hI : CacheInv s order held) (h : (s.buf b).refcnt ≠ 0) :
    (s.buf b).dev = ROOTDEV := by
  rw [ne_eq, hI.refcnt_eq_zero] at h
  push Not at h
  obtain ⟨x, hx, rfl⟩ := h
  exact (hI.keys x hx).1

/-- With a buffer to spare, some buffer is free. -/
theorem exists_free (hI : CacheInv s order held) (hspare : (heldBufs held).card < NBUF) :
    ∃ b, (s.buf b).refcnt = 0 := by
  by_contra hall
  push Not at hall
  have : heldBufs held = Finset.univ := by
    refine Finset.eq_univ_of_forall fun b => ?_
    have hb := hall b
    rw [ne_eq, hI.refcnt_eq_zero] at hb
    push Not at hb
    obtain ⟨h, hh, rfl⟩ := hb
    simpa [heldBufs] using ⟨h, hh, rfl⟩
  rw [this, Finset.card_univ, Fintype.card_fin] at hspare
  exact absurd hspare (lt_irrefl _)

/-! ## Steps that change reference counts only -/

/-- Same buffers up to their reference counts. -/
structure SameButRefs (s s' : Dev) : Prop where
  disk : s'.disk = s.disk
  buf : ∀ c, ∃ r, s'.buf c = { s.buf c with refcnt := r }

theorem sameButRefs_setBuf (s : Dev) (b : Fin NBUF) (r : UInt32) :
    SameButRefs s (s.setBuf b { s.buf b with refcnt := r }) := by
  refine ⟨rfl, fun c => ?_⟩
  rcases eq_or_ne c b with rfl | hc
  · exact ⟨_, Dev.setBuf_buf_self _ _ _⟩
  · exact ⟨_, Dev.setBuf_buf_of_ne hc _ _⟩

/-- The invariant moves along a step that only counts: the new holds are of cached blocks, and no
buffer becomes untouched by it. -/
theorem of_sameButRefs {s' : Dev} {order' : List (Fin NBUF)} {held' : List Hold}
    (hI : CacheInv s order held) (hs : SameButRefs s s')
    (hring : Ring s'.links .head (order'.map .buf)) (hfull : ∀ b, b ∈ order')
    (hrefs : ∀ b, (s'.buf b).refcnt = UInt32.ofNat (holds held' b))
    (hkeys : ∀ h ∈ held', (s.buf h.buf).dev = ROOTDEV ∧ (s.buf h.buf).blockno = h.blk)
    (hfew : held'.length < 2 ^ 32)
    (hclean : ∀ b, (∀ h ∈ held', h.buf = b → h.touched = false) →
      ∀ h ∈ held, h.buf = b → h.touched = false) : CacheInv s' order' held' := by
  have hdev : ∀ c, (s'.buf c).dev = (s.buf c).dev := fun c => by obtain ⟨r, hr⟩ := hs.buf c; rw [hr]
  have hblk : ∀ c, (s'.buf c).blockno = (s.buf c).blockno := fun c => by
    obtain ⟨r, hr⟩ := hs.buf c; rw [hr]
  have hval : ∀ c, (s'.buf c).valid = (s.buf c).valid := fun c => by obtain ⟨r, hr⟩ := hs.buf c; rw [hr]
  have hdat : ∀ c, (s'.buf c).data = (s.buf c).data := fun c => by obtain ⟨r, hr⟩ := hs.buf c; rw [hr]
  refine ⟨hring, hfull, fun c hc => ?_, fun c hc => ?_, fun c e hc he hce => ?_, hrefs, fun h hh => ?_,
    hfew, fun c hc hu => ?_⟩
  · rw [hval]
    exact hI.free c (hdev c ▸ hc)
  · rw [hval]
    exact hI.valid c (hdev c ▸ hc)
  · exact hI.key c e (hdev c ▸ hc) (hdev e ▸ he) (hblk c ▸ hblk e ▸ hce)
  · rw [hdev, hblk]
    exact hkeys h hh
  · rw [hdat, hblk, hs.disk]
    exact hI.clean c (hdev c ▸ hc) (hclean c hu)

/-! ## `bread` -/

/-- What a bread leaves alone: the disk, and every buffer somebody holds. -/
structure Kept (s s' : Dev) : Prop where
  disk : s'.disk = s.disk
  buf : ∀ c, (s.buf c).refcnt ≠ 0 → (s'.buf c).dev = (s.buf c).dev ∧
    (s'.buf c).blockno = (s.buf c).blockno ∧ (s'.buf c).data = (s.buf c).data

theorem SameButRefs.kept {s' : Dev} (h : SameButRefs s s') : Kept s s' :=
  ⟨h.disk, fun c _ => by obtain ⟨r, hr⟩ := h.buf c; rw [hr]; exact ⟨rfl, rfl, rfl⟩⟩

/-- A bread of a cached block returns its buffer, counted once more. -/
theorem bread_hit_run (hI : CacheInv s order held) (hd : (s.buf b).dev = ROOTDEV)
    (hk : (s.buf b).blockno = k) :
    (bread ROOTDEV k).run s =
      .ok (b, s.setBuf b { s.buf b with refcnt := (s.buf b).refcnt + 1 }) := by
  have hfind : order.find? (fun c => (s.buf c).dev == ROOTDEV && (s.buf c).blockno == k) = some b := by
    cases hc : order.find? fun c => (s.buf c).dev == ROOTDEV && (s.buf c).blockno == k with
    | none =>
        have := List.find?_eq_none.1 hc b (hI.full b)
        simp [hd, hk] at this
    | some c =>
        have := List.find?_some hc
        simp only [Bool.and_eq_true, beq_iff_eq] at this
        rw [hI.key c b this.1 hd (this.2.trans hk.symm)]
  simp [bread, bget, run_bind, hI.listed.scan_next, hfind, Prog.get, Prog.gets, Prog.modify, Prog.run, hI.valid b hd]

theorem bread_hit (hI : CacheInv s order held) (hfew : held.length + 1 < 2 ^ 32)
    (hd : (s.buf b).dev = ROOTDEV) (hk : (s.buf b).blockno = k) :
    CacheInv (s.setBuf b { s.buf b with refcnt := (s.buf b).refcnt + 1 }) order
      (⟨b, k, false⟩ :: held) := by
  refine hI.of_sameButRefs (sameButRefs_setBuf s b _) hI.ring hI.full (fun c => ?_) (fun h hh => ?_)
    (by simpa using hfew) (fun c hc h hh => hc h (List.mem_cons_of_mem _ hh))
  · rw [holds_cons]
    rcases eq_or_ne c b with rfl | hc
    · rw [Dev.setBuf_buf_self, if_pos rfl, ofNat_add_one, hI.refs]
    · rw [Dev.setBuf_buf_of_ne hc, if_neg hc.symm, hI.refs, Nat.add_zero]
  · rcases List.mem_cons.1 hh with rfl | hh
    · exact ⟨hd, hk⟩
    · exact hI.keys h hh

/-- A bread of a block that is not cached: the last free buffer of the list is given to it. -/
theorem bread_miss (hI : CacheInv s order held) (hfew : held.length + 1 < 2 ^ 32)
    (hmiss : ∀ c, (s.buf c).dev = ROOTDEV → (s.buf c).blockno ≠ k)
    (hb : order.reverse.find? (fun c => (s.buf c).refcnt == 0) = some b) :
    (bread ROOTDEV k).run s = .ok (b, s.setBuf b ⟨true, ROOTDEV, k, 1, s.disk k⟩) ∧
      CacheInv (s.setBuf b ⟨true, ROOTDEV, k, 1, s.disk k⟩) order (⟨b, k, false⟩ :: held) := by
  have hfind : order.find? (fun c => (s.buf c).dev == ROOTDEV && (s.buf c).blockno == k) = none := by
    simpa using fun c _ => hmiss c
  have hb0 : (s.buf b).refcnt = 0 := by simpa using List.find?_some hb
  have hnot : ∀ h ∈ held, h.buf ≠ b := hI.refcnt_eq_zero.1 hb0
  refine ⟨?_, hI.ring, hI.full, fun c hc => ?_, fun c hc => ?_, fun c e hc he hce => ?_, fun c => ?_,
    fun h hh => ?_, by simpa using hfew, fun c hc hu => ?_⟩
  · simp [bread, bget, run_bind, hI.listed.scan_next, hI.listed.scan_prev, hfind, hb, Prog.get, Prog.gets, Prog.modify,
      Prog.run, virtioDiskRw, Prog.pause, Dev.setBuf]
  · rcases eq_or_ne c b with rfl | hcb
    · simp at hc
    · rw [Dev.setBuf_buf_of_ne hcb] at hc ⊢
      exact hI.free c hc
  · rcases eq_or_ne c b with rfl | hcb
    · simp
    · rw [Dev.setBuf_buf_of_ne hcb] at hc ⊢
      exact hI.valid c hc
  · rcases eq_or_ne c b with rfl | hcb <;> rcases eq_or_ne e c with rfl | hec
    · rfl
    · rw [Dev.setBuf_buf_of_ne hec] at he hce
      exact absurd (by simpa using hce.symm) (hmiss e he)
    · rfl
    · rw [Dev.setBuf_buf_of_ne hcb] at hc hce
      rcases eq_or_ne e b with rfl | heb
      · exact absurd (by simpa using hce) (hmiss c hc)
      · rw [Dev.setBuf_buf_of_ne heb] at he hce
        exact hI.key c e hc he hce
  · rw [holds_cons]
    rcases eq_or_ne c b with rfl | hc
    · rw [Dev.setBuf_buf_self, if_pos rfl, holds_eq_zero.2 hnot]
      rfl
    · rw [Dev.setBuf_buf_of_ne hc, if_neg hc.symm, hI.refs, Nat.add_zero]
  · rcases List.mem_cons.1 hh with rfl | hh
    · simp
    · rw [Dev.setBuf_buf_of_ne (hnot h hh)]
      exact hI.keys h hh
  · rcases eq_or_ne c b with rfl | hcb
    · simp
    · rw [Dev.setBuf_buf_of_ne hcb] at hc ⊢
      exact hI.clean c hc fun h hh => hu h (List.mem_cons_of_mem _ hh)

/-- A bread with a buffer to spare returns. -/
theorem bread_run (hI : CacheInv s order held) (hfew : held.length + 1 < 2 ^ 32)
    (hspare : (heldBufs held).card < NBUF) (k : Nat) :
    ∃ b s', (bread ROOTDEV k).run s = .ok (b, s') ∧ CacheInv s' order (⟨b, k, false⟩ :: held) ∧
      Kept s s' := by
  by_cases hhit : ∃ c, (s.buf c).dev = ROOTDEV ∧ (s.buf c).blockno = k
  · obtain ⟨c, hd, hk⟩ := hhit
    exact ⟨c, _, hI.bread_hit_run hd hk, hI.bread_hit hfew hd hk, (sameButRefs_setBuf s c _).kept⟩
  · push Not at hhit
    obtain ⟨c, hc⟩ := hI.exists_free hspare
    obtain ⟨b, hb⟩ : ∃ b, order.reverse.find? (fun c => (s.buf c).refcnt == 0) = some b := by
      rw [← Option.isSome_iff_exists, List.find?_isSome]
      exact ⟨c, by simpa using hI.full c, by simpa using hc⟩
    obtain ⟨hrun, hinv⟩ := hI.bread_miss hfew hhit hb
    refine ⟨b, _, hrun, hinv, rfl, fun e he => ?_⟩
    have hb0 : (s.buf b).refcnt = 0 := by simpa using List.find?_some hb
    rw [Dev.setBuf_buf_of_ne (fun h : e = b => he (h ▸ hb0))]
    exact ⟨rfl, rfl, rfl⟩

/-! ## Writing into a held buffer, and `bwrite` -/

/-- The holder of `h` changes the data. -/
theorem store_inv (hI : CacheInv s order held) {h : Hold} (hh : h ∈ held) (d : Block) :
    CacheInv (s.setBuf h.buf { s.buf h.buf with data := d }) order
      (⟨h.buf, h.blk, true⟩ :: held.erase h) := by
  have hbuf : ∀ c, ∃ x, (s.setBuf h.buf { s.buf h.buf with data := d }).buf c = { s.buf c with data := x } := by
    intro c
    rcases eq_or_ne c h.buf with rfl | hc
    · exact ⟨_, Dev.setBuf_buf_self _ _ _⟩
    · exact ⟨_, Dev.setBuf_buf_of_ne hc _ _⟩
  refine ⟨hI.ring, hI.full, fun c hc => ?_, fun c hc => ?_, fun c e hc he hce => ?_, fun c => ?_,
    fun x hx => ?_, ?_, fun c hc hu => ?_⟩
  · obtain ⟨x, hx⟩ := hbuf c
    rw [hx] at hc ⊢
    exact hI.free c hc
  · obtain ⟨x, hx⟩ := hbuf c
    rw [hx] at hc ⊢
    exact hI.valid c hc
  · obtain ⟨x, hx⟩ := hbuf c
    obtain ⟨y, hy⟩ := hbuf e
    rw [hx] at hc hce
    rw [hy] at he hce
    exact hI.key c e hc he hce
  · obtain ⟨x, hx⟩ := hbuf c
    rw [hx, holds_cons, holds_erase hh]
    exact hI.refs c
  · obtain ⟨y, hy⟩ := hbuf x.buf
    rw [hy]
    rcases List.mem_cons.1 hx with rfl | hx
    · exact hI.keys h hh
    · exact hI.keys x (List.mem_of_mem_erase hx)
  · simpa [length_erase hh] using hI.few
  · have hcb : c ≠ h.buf := by
      rintro rfl
      exact Bool.noConfusion (hu _ List.mem_cons_self rfl)
    rw [Dev.setBuf_buf_of_ne hcb] at hc ⊢
    refine hI.clean c hc fun x hx hxc => hu x (List.mem_cons_of_mem _ ?_) hxc
    exact (List.mem_erase_of_ne fun e : x = h => hcb (by rw [← hxc, e])).2 hx

/-- The holder of `h` writes the buffer through. -/
theorem bwrite_run (hI : CacheInv s order held) {h : Hold} (hh : h ∈ held) :
    (bwrite h.buf).run s = .ok ((), { s with disk := update s.disk h.blk (s.buf h.buf).data }) ∧
      CacheInv { s with disk := update s.disk h.blk (s.buf h.buf).data } order
        (⟨h.buf, h.blk, false⟩ :: held.erase h) := by
  obtain ⟨hd, hk⟩ := hI.keys h hh
  refine ⟨by simp [bwrite, virtioDiskRw, run_bind, Prog.pause, Prog.modify, Prog.run, hk], hI.ring, hI.full,
    hI.free, hI.valid, hI.key, fun c => ?_, fun x hx => ?_, ?_, fun c hc hu => ?_⟩
  · rw [holds_cons, holds_erase hh]
    exact hI.refs c
  · rcases List.mem_cons.1 hx with rfl | hx
    · exact ⟨hd, hk⟩
    · exact hI.keys x (List.mem_of_mem_erase hx)
  · simpa [length_erase hh] using hI.few
  · rcases eq_or_ne c h.buf with rfl | hcb
    · simp [hk]
    · have hne : (s.buf c).blockno ≠ h.blk := fun e => hcb (hI.key c h.buf hc hd (e.trans hk.symm))
      simp only [update_of_ne hne]
      refine hI.clean c hc fun x hx hxc => hu x (List.mem_cons_of_mem _ ?_) hxc
      exact (List.mem_erase_of_ne fun e : x = h => hcb (by rw [← hxc, e])).2 hx

/-! ## `brelse` -/

/-- The LRU list after the release of `h`: a buffer nobody holds any more moves to the front. -/
def releaseOrder (order : List (Fin NBUF)) (held : List Hold) (h : Hold) : List (Fin NBUF) :=
  if holds (held.erase h) h.buf = 0 then h.buf :: order.erase h.buf else order

theorem brelse_run (hI : CacheInv s order held) {h : Hold} (hh : h ∈ held) (hclean : h.touched = false) :
    ∃ s', (brelse h.buf).run s = .ok ((), s') ∧ SameButRefs s s' ∧
      CacheInv s' (releaseOrder order held h) (held.erase h) := by
  have hcount : holds (held.erase h) h.buf + 1 = holds held h.buf := by simpa using holds_erase hh h.buf
  have hlt : holds (held.erase h) h.buf < 2 ^ 32 := by
    have := holds_le held h.buf
    have := hI.few
    omega
  have href : (s.buf h.buf).refcnt - 1 = UInt32.ofNat (holds (held.erase h) h.buf) := by
    rw [hI.refs, ← hcount, ofNat_add_one, UInt32.add_sub_cancel]
  have hsame := sameButRefs_setBuf s h.buf ((s.buf h.buf).refcnt - 1)
  have hrefs : ∀ c, ((s.setBuf h.buf { s.buf h.buf with refcnt := (s.buf h.buf).refcnt - 1 }).buf c).refcnt =
      UInt32.ofNat (holds (held.erase h) c) := by
    intro c
    rcases eq_or_ne c h.buf with rfl | hc
    · rw [Dev.setBuf_buf_self, href]
    · rw [Dev.setBuf_buf_of_ne hc, hI.refs, ← holds_erase hh c, if_neg hc.symm, Nat.add_zero]
  have hfew : (held.erase h).length < 2 ^ 32 := by
    have := hI.few
    have := length_erase hh
    omega
  have hkeys : ∀ x ∈ held.erase h, (s.buf x.buf).dev = ROOTDEV ∧ (s.buf x.buf).blockno = x.blk :=
    fun x hx => hI.keys x (List.mem_of_mem_erase hx)
  have huntouched : ∀ b, (∀ x ∈ held.erase h, x.buf = b → x.touched = false) →
      ∀ x ∈ held, x.buf = b → x.touched = false := by
    intro b hu x hx hxb
    rcases eq_or_ne x h with rfl | hxh
    · exact hclean
    · exact hu x ((List.mem_erase_of_ne hxh).2 hx) hxb
  by_cases hlast : holds (held.erase h) h.buf = 0
  · refine ⟨{ s.setBuf h.buf { s.buf h.buf with refcnt := (s.buf h.buf).refcnt - 1 } with
      links := (s.links.unlink (.buf h.buf)).insertHead .head (.buf h.buf) }, ?_, ⟨rfl, hsame.buf⟩, ?_⟩
    · simp [brelse, run_bind, Prog.gets, Prog.modify, Prog.run, href, hlast]
    · have hlisted := hI.listed.toFront h.buf (t := { s.setBuf h.buf { s.buf h.buf with
        refcnt := (s.buf h.buf).refcnt - 1 } with
        links := (s.links.unlink (.buf h.buf)).insertHead .head (.buf h.buf) }) rfl
      rw [releaseOrder, if_pos hlast]
      exact hI.of_sameButRefs ⟨rfl, hsame.buf⟩ hlisted.ring hlisted.full hrefs hkeys hfew huntouched
  · refine ⟨s.setBuf h.buf { s.buf h.buf with refcnt := (s.buf h.buf).refcnt - 1 }, ?_, hsame, ?_⟩
    · have hne : (s.buf h.buf).refcnt - 1 ≠ 0 := fun e => hlast ((ofNat_eq_zero hlt).1 (href ▸ e))
      simp [brelse, run_bind, Prog.gets, Prog.modify, Prog.run, hne]
    · rw [releaseOrder, if_neg hlast]
      exact hI.of_sameButRefs hsame hI.ring hI.full hrefs hkeys hfew huntouched

/-! ## `binit` -/

end CacheInv

/-- The ring that a run of head insertions builds. -/
theorem ring_foldl_insertHead (bs : List (Fin NBUF)) : ∀ (k : Links Node) (l : List (Fin NBUF)),
    Ring k .head (l.map .buf) → (bs ++ l).Nodup →
    Ring (bs.foldl (fun k b => k.insertHead .head (.buf b)) k) .head ((bs.reverse ++ l).map .buf) := by
  induction bs with
  | nil => intro k l hr _; simpa using hr
  | cons b bs ih =>
      intro k l hr hnd
      have hb : b ∉ bs ++ l := (List.nodup_cons.1 hnd).1
      have := ih (k.insertHead .head (.buf b)) (b :: l)
        (hr.insertHead (by simpa using fun e => hb (List.mem_append_right _ e)))
        (by simpa using List.nodup_middle.2 hnd)
      simpa using this

/-- The list `binit` leaves: the last buffer first. -/
def initOrder : List (Fin NBUF) := (List.finRange NBUF).reverse

theorem binit_inv (disk : Nat → Block) : ∃ s, binit.run (Dev.boot disk) = .ok ((), s) ∧ s.disk = disk ∧
    CacheInv s initOrder [] := by
  refine ⟨{ Dev.boot disk with links := initLinks (Dev.boot disk).links }, rfl, rfl, ?_⟩
  have hring := ring_foldl_insertHead (List.finRange NBUF)
    ⟨update (Dev.boot disk).links.next .head .head, update (Dev.boot disk).links.prev .head .head⟩ []
    (Ring.nil (by simp) (by simp)) (by simpa using List.nodup_finRange NBUF)
  rw [List.append_nil] at hring
  refine ⟨hring, fun b => by simp [initOrder], fun _ _ => rfl, ?_, ?_, fun b => rfl, by simp, by simp, ?_⟩
  all_goals
    intro b
    simp [Dev.boot, ROOTDEV]

end RiscvOsLab.Fs
