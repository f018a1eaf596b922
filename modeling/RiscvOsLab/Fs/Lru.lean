import RiscvOsLab.Fs.BioInv
import RiscvOsLab.Lib.Recency
import RiscvOsLab.Lib.Trans

/-!
# The buffer that is reused is the least recently used

A `Clocked` cache has a history: the time of the last release of each buffer to a count of zero, or of its
insertion by `binit`. In every run of breads and releases the list behind `bcache.head` stands in the order of
these times (`dated_reach`), the buffers in use among them, and only the last release of a buffer moves it. So the
search from the back meets the oldest free buffer first.

Nothing is asked of the calls: any block of any device is read, any buffer released, counts wrap.
-/

namespace RiscvOsLab.Fs

open Prog Function

structure Clocked where
  dev : Dev
  /-- The last release of a buffer to a count of zero; before any, its turn in `binit`. -/
  stamp : Fin NBUF → Nat
  now : Nat

namespace Clocked

/-- After `binit`. -/
def Init (s : Clocked) : Prop := ∃ disk, binit.run (Dev.boot disk) = .ok ((), s.dev) ∧ s.stamp = Fin.val ∧ s.now = NBUF

/-- A call that returns. -/
inductive Step (s : Clocked) : Clocked → Prop
  | bread {dev blockno : Nat} {b : Fin NBUF} {t : Dev} : (bread dev blockno).run s.dev = .ok (b, t) →
      Step s { s with dev := t }
  | brelse {b : Fin NBUF} {t : Dev} : (brelse b).run s.dev = .ok ((), t) →
      Step s ⟨t, if (t.buf b).refcnt = 0 then update s.stamp b s.now else s.stamp, s.now + 1⟩

end Clocked

/-- The buffers in the order of the list, from `bcache.head.next` on. -/
def lruList (s : Dev) : List (Fin NBUF) :=
  ((List.range NBUF).map fun i => s.links.next^[i + 1] .head).filterMap Node.buf?

/-! ## The list -/

theorem lruList_congr {s t : Dev} (h : t.links = s.links) : lruList t = lruList s := by
  rw [lruList, lruList, h]

theorem Listed.congr {s t : Dev} {order : List (Fin NBUF)} (h : Listed s order) (ht : t.links = s.links) :
    Listed t order := ⟨ht ▸ h.ring, h.full⟩

theorem Listed.length_eq {s : Dev} {order : List (Fin NBUF)} (h : Listed s order) : order.length = NBUF := by
  have hle := h.nodup.length_le_card
  have hge : Fintype.card (Fin NBUF) ≤ order.length := by
    rw [← List.toFinset_card_of_nodup h.nodup]
    apply Finset.card_le_card
    intro b _
    exact List.mem_toFinset.2 (h.full b)
  rw [Fintype.card_fin] at hle hge
  omega

theorem Listed.lruList_eq {s : Dev} {order : List (Fin NBUF)} (h : Listed s order) : lruList s = order := by
  have hlen := h.length_eq
  have hmap : ((List.range NBUF).map fun i => s.links.next^[i + 1] .head) = order.map .buf := by
    apply List.ext_getElem
    · rw [List.length_map, List.length_range, List.length_map, hlen]
    · intro i _ hi
      rw [List.getElem_map, List.getElem_range]
      exact h.ring.iterate_next hi
  rw [lruList, hmap, List.filterMap_map]
  exact List.filterMap_some

/-! ## What the calls do to the list -/

variable {s t : Dev}

theorem bget_links (dev blockno : Nat) : (bget dev blockno).wp (fun _ t => t.links = s.links) (fun _ => True) s := by
  rw [bget, wp_bind, wp_get]
  cases s.scan s.links.next fun v => v.dev == dev && v.blockno == blockno with
  | none => trivial
  | some found =>
      cases found with
      | some b => rfl
      | none =>
          cases s.scan s.links.prev fun v => v.refcnt == 0 with
          | none => trivial
          | some free =>
              cases free with
              | some b => rfl
              | none => trivial

/-- A bread, hit or not, leaves the list as it is. -/
theorem bread_links {dev blockno : Nat} {b : Fin NBUF} (h : (bread dev blockno).run s = .ok (b, t)) :
    t.links = s.links := by
  have hwp : (bread dev blockno).wp (fun _ t => t.links = s.links) (fun _ => True) s := by
    rw [bread]
    apply wp_seq (bget_links dev blockno)
    intro c u hu
    rw [wp_bind, wp_gets]
    by_cases hv : (u.buf c).valid
    · rw [if_pos hv]
      exact hu
    · rw [if_neg hv]
      exact hu
  exact wp_ok hwp h

theorem brelse_result (s : Dev) (b : Fin NBUF) : ∃ t, (brelse b).run s = .ok ((), t) ∧
    t.buf = (s.setBuf b { s.buf b with refcnt := (s.buf b).refcnt - 1 }).buf ∧
    t.links = if (t.buf b).refcnt = 0 then (s.links.unlink (.buf b)).insertHead .head (.buf b) else s.links := by
  by_cases hz : (s.buf b).refcnt - 1 = 0
  · refine ⟨{ s.setBuf b { s.buf b with refcnt := (s.buf b).refcnt - 1 } with
      links := (s.links.unlink (.buf b)).insertHead .head (.buf b) }, ?_, rfl, ?_⟩
    · simp [brelse, run_bind, Prog.gets, Prog.modify, Prog.run, hz]
    · simp [hz]
  · refine ⟨s.setBuf b { s.buf b with refcnt := (s.buf b).refcnt - 1 }, ?_, rfl, ?_⟩
    · simp [brelse, run_bind, Prog.gets, Prog.modify, Prog.run, hz]
    · simp [hz]

/-- A release moves the buffer to the front if it is the last one, and does nothing to the list otherwise. -/
theorem brelse_listed {order : List (Fin NBUF)} {b : Fin NBUF} (hl : Listed s order)
    (h : (brelse b).run s = .ok ((), t)) :
    Listed t (if (t.buf b).refcnt = 0 then b :: order.erase b else order) := by
  obtain ⟨u, hu, -, hlinks⟩ := brelse_result s b
  obtain rfl : u = t := by
    rw [h] at hu
    cases hu
    rfl
  split
  · rename_i hz
    rw [if_pos hz] at hlinks
    exact hl.toFront b hlinks
  · rename_i hz
    rw [if_neg hz] at hlinks
    exact hl.congr hlinks

/-! ## The order of the list -/

/-- The list is in the order of the stamps. -/
structure Dated (s : Clocked) : Prop where
  listed : Listed s.dev (lruList s.dev)
  newest : Newest s.stamp (lruList s.dev)
  past : ∀ b, s.stamp b < s.now

theorem dated_init {s : Clocked} (h : s.Init) : Dated s := by
  obtain ⟨disk, hrun, hstamp, hnow⟩ := h
  obtain ⟨d, hd, -, hinv⟩ := binit_inv disk
  obtain rfl : d = s.dev := by
    rw [hrun] at hd
    cases hd
    rfl
  have heq := hinv.listed.lruList_eq
  refine ⟨heq ▸ hinv.listed, ?_, ?_⟩
  · rw [heq, hstamp]
    have hinc : (List.finRange NBUF).Pairwise fun a b => a.val < b.val := by
      exact List.pairwise_lt_finRange NBUF
    exact List.pairwise_reverse.2 hinc
  · intro b
    rw [hstamp, hnow]
    exact b.isLt

theorem dated_step {s t : Clocked} (h : Dated s) (hst : s.Step t) : Dated t := by
  cases hst with
  | bread hrun =>
      have hlinks := bread_links hrun
      have heq := lruList_congr hlinks
      exact ⟨heq ▸ h.listed.congr hlinks, heq ▸ h.newest, h.past⟩
  | @brelse b u hrun =>
      have hlisted := brelse_listed h.listed hrun
      have heq := hlisted.lruList_eq
      refine ⟨heq ▸ hlisted, ?_, ?_⟩
      · change Newest _ (lruList u)
        rw [heq]
        split
        · exact h.newest.touch h.listed.nodup h.past b
        · exact h.newest
      · intro c
        have := h.past c
        change (if (u.buf b).refcnt = 0 then update s.stamp b s.now else s.stamp) c < s.now + 1
        split
        · rcases eq_or_ne c b with rfl | hc
          · rw [update_self]
            omega
          · rw [update_of_ne hc]
            omega
        · omega

theorem dated_reach {s : Clocked} (h : Reach Clocked.Init Clocked.Step s) : Dated s :=
  h.invariant Dated (fun _ => dated_init) fun _ _ => dated_step

/-! ## Eviction -/

/-- No buffer has the block. -/
def Misses (s : Dev) (dev blockno : Nat) : Prop := ∀ b, (s.buf b).dev = dev → (s.buf b).blockno ≠ blockno

/-- A buffer is given to another block. -/
def recycle (s : Dev) (b : Fin NBUF) (dev blockno : Nat) : Dev :=
  s.setBuf b { s.buf b with dev, blockno, valid := false, refcnt := 1 }

theorem bget_miss {order : List (Fin NBUF)} {dev blockno : Nat} (hl : Listed s order)
    (hmiss : Misses s dev blockno) :
    (bget dev blockno).run s = match order.reverse.find? fun b => (s.buf b).refcnt == 0 with
      | some b => .ok (b, recycle s b dev blockno)
      | none => .error (.panic "bget: no buffers") := by
  have hfind : (order.find? fun b => (s.buf b).dev == dev && (s.buf b).blockno == blockno) = none := by
    apply List.find?_eq_none.2
    intro b _ htest
    rw [Bool.and_eq_true, beq_iff_eq, beq_iff_eq] at htest
    exact hmiss b htest.1 htest.2
  cases hlast : order.reverse.find? fun b => (s.buf b).refcnt == 0 with
  | some b =>
      simp [bget, run_bind, hl.scan_next, hl.scan_prev, hfind, hlast, Prog.get, Prog.modify, Prog.run, recycle]
  | none => simp [bget, run_bind, hl.scan_next, hl.scan_prev, hfind, hlast, Prog.get, Prog.panic, Prog.run]

/-- On a miss the free buffer with the oldest stamp is reused, if there is one. -/
theorem Dated.evicts {s : Clocked} (h : Dated s) {dev blockno : Nat} (hmiss : Misses s.dev dev blockno)
    {c : Fin NBUF} (hc : (s.dev.buf c).refcnt = 0) :
    ∃ b, (bget dev blockno).run s.dev = .ok (b, recycle s.dev b dev blockno) ∧ (s.dev.buf b).refcnt = 0 ∧
      ∀ c, (s.dev.buf c).refcnt = 0 → c ≠ b → s.stamp b < s.stamp c := by
  obtain ⟨b, hb⟩ : ∃ b, (lruList s.dev).reverse.find? (fun b => (s.dev.buf b).refcnt == 0) = some b := by
    rw [← Option.isSome_iff_exists, List.find?_isSome]
    exact ⟨c, List.mem_reverse.2 (h.listed.full c), beq_iff_eq.2 hc⟩
  refine ⟨b, ?_, beq_iff_eq.1 (List.find?_some hb :), ?_⟩
  · rw [bget_miss h.listed hmiss, hb]
  · intro e he hne
    exact h.newest.oldest hb e (h.listed.full e) (beq_iff_eq.2 he) hne

/-- On a miss there is a panic exactly when every buffer is in use. -/
theorem Dated.panics_iff {s : Clocked} (h : Dated s) {dev blockno : Nat} (hmiss : Misses s.dev dev blockno) :
    (bget dev blockno).run s.dev = .error (.panic "bget: no buffers") ↔ ∀ b, (s.dev.buf b).refcnt ≠ 0 := by
  constructor
  · intro hp b hb
    obtain ⟨c, hrun, -⟩ := h.evicts hmiss hb
    rw [hp] at hrun
    cases hrun
  · intro hall
    have hnone : (lruList s.dev).reverse.find? (fun b => (s.dev.buf b).refcnt == 0) = none := by
      apply List.find?_eq_none.2
      intro b _ hb
      exact hall b (beq_iff_eq.1 hb)
    rw [bget_miss h.listed hmiss, hnone]

/-- Eviction is exactly least recently used, in every state a sequence of breads and releases leads to. -/
theorem lru_reach {s : Clocked} (h : Reach Clocked.Init Clocked.Step s) :
    (∀ dev blockno, Misses s.dev dev blockno →
      ((∃ c, (s.dev.buf c).refcnt = 0) →
        ∃ b, (bget dev blockno).run s.dev = .ok (b, recycle s.dev b dev blockno) ∧ (s.dev.buf b).refcnt = 0 ∧
          ∀ c, (s.dev.buf c).refcnt = 0 → c ≠ b → s.stamp b < s.stamp c) ∧
      ((bget dev blockno).run s.dev = .error (.panic "bget: no buffers") ↔ ∀ b, (s.dev.buf b).refcnt ≠ 0)) ∧
    (∀ dev blockno b t, (bread dev blockno).run s.dev = .ok (b, t) → lruList t = lruList s.dev) ∧
    ∀ b t, (brelse b).run s.dev = .ok ((), t) →
      lruList t = if (t.buf b).refcnt = 0 then b :: (lruList s.dev).erase b else lruList s.dev := by
  have hd := dated_reach h
  refine ⟨?_, ?_, ?_⟩
  · intro dev blockno hmiss
    constructor
    · intro ⟨c, hc⟩
      exact hd.evicts hmiss hc
    · exact hd.panics_iff hmiss
  · intro dev blockno b t hrun
    exact lruList_congr (bread_links hrun)
  · intro b t hrun
    exact (brelse_listed hd.listed hrun).lruList_eq

/-- After `binit` the first block that is read goes into the first buffer. -/
theorem lru_reach_first : ∃ d t, binit.run (Dev.boot fun _ _ => 0) = .ok ((), d) ∧
    (bget 1 5).run d = .ok (⟨0, by decide⟩, t) := by
  obtain ⟨d, hrun, -, -⟩ := binit_inv fun _ _ => 0
  have hbuf : d.buf = (Dev.boot fun _ _ => 0).buf := by
    cases hrun
    rfl
  have hreach : Reach Clocked.Init Clocked.Step ⟨d, Fin.val, NBUF⟩ := .start ⟨_, hrun, rfl, rfl⟩
  have hmiss : Misses d 1 5 := by
    intro b hb
    rw [hbuf] at hb
    cases hb
  have hfree : ∀ b, (d.buf b).refcnt = 0 := fun b => by rw [hbuf]; rfl
  obtain ⟨b, hget, -, hold⟩ := ((lru_reach hreach).1 1 5 hmiss).1 ⟨⟨0, by decide⟩, hfree _⟩
  have hzero : b = ⟨0, by decide⟩ := by
    by_contra hne
    exact absurd (hold ⟨0, by decide⟩ (hfree _) (Ne.symm hne)) (Nat.not_lt_zero _)
  subst hzero
  exact ⟨d, _, hrun, hget⟩

end RiscvOsLab.Fs
