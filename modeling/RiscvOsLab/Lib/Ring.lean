import Mathlib.Data.List.Chain
import Mathlib.Data.List.Nodup
import Mathlib.Logic.Function.Basic

/-!
# Circular doubly linked lists

The links of a set of nodes are two functions `next prev : N → N`. `Ring next prev h l` says that they
form one circle through the sentinel `h`, whose other nodes are those of `l`, each once, in the order of
`next`.

* `insertHead`, `unlink` : the pointer assignments of the two usual operations, in the usual order;
* `Ring.insertHead`, `Ring.unlink` : what they do to the list;
* `walk` : the loop that follows `next` (or `prev`) from the sentinel until a node satisfies a test;
  `Ring.walk_next`, `Ring.walk_prev` : it finds what `List.find?` finds, within `l.length + 1` rounds.
-/

namespace RiscvOsLab

open Function

variable {N : Type}

/-- The links of a set of nodes. -/
structure Links (N : Type) where
  next : N → N
  prev : N → N

namespace Links

variable [DecidableEq N]

/-- `b` is made the first node behind `h`. -/
def insertHead (k : Links N) (h b : N) : Links N :=
  let next₁ := update k.next b (k.next h)
  let prev₁ := update k.prev b h
  let prev₂ := update prev₁ (next₁ h) b
  ⟨update next₁ h b, prev₂⟩

/-- `b` is taken out of its place: `b->next->prev = b->prev; b->prev->next = b->next`. -/
def unlink (k : Links N) (b : N) : Links N :=
  let prev₁ := update k.prev (k.next b) (k.prev b)
  ⟨update k.next (prev₁ b) (k.next b), prev₁⟩

/-- The loop `for (b = start; b != stop; b = step(b)) if (test(b)) return b;`: `none` when `fuel` rounds
did not end it, `some none` when it came to `stop`. -/
def walk (step : N → N) (stop : N) (test : N → Bool) : Nat → N → Option (Option N)
  | 0, _ => none
  | fuel + 1, b =>
      if b = stop then some none
      else if test b then some (some b)
      else walk step stop test fuel (step b)

end Links

/-- The links form one circle through `h` and the nodes of `l`, in this order. -/
structure Ring (k : Links N) (h : N) (l : List N) : Prop where
  nodup : (h :: l).Nodup
  chain : (h :: (l ++ [h])).IsChain fun a b => k.next a = b ∧ k.prev b = a

namespace Ring

variable {k : Links N} {h b : N} {l : List N}

theorem not_mem (r : Ring k h l) : h ∉ l := (List.nodup_cons.1 r.nodup).1

theorem nodup_tail (r : Ring k h l) : l.Nodup := (List.nodup_cons.1 r.nodup).2

/-- A sentinel linked to itself is the empty ring. -/
theorem nil (hn : k.next h = h) (hp : k.prev h = h) : Ring k h [] :=
  ⟨by simp, by simp [hn, hp]⟩

/-- A segment of the circle is left alone by assignments that hit none of its inner links. -/
theorem segment {k' : Links N} {s : List N}
    (hs : s.IsChain fun a b => k.next a = b ∧ k.prev b = a)
    (hnext : ∀ a ∈ s, k.next a ∈ s.tail → k'.next a = k.next a)
    (hprev : ∀ a ∈ s.tail, k'.prev a = k.prev a) :
    s.IsChain fun a b => k'.next a = b ∧ k'.prev b = a := by
  refine List.IsChain.imp_of_mem_tail_imp (fun a c ha hc hac => ?_) hs
  exact ⟨(hnext a ha (hac.1 ▸ hc)).trans hac.1, (hprev c hc).trans hac.2⟩

variable [DecidableEq N]

theorem insertHead (r : Ring k h l) (hb : b ∉ h :: l) : Ring (k.insertHead h b) h (b :: l) := by
  have hbh : b ≠ h := fun e => hb (e ▸ List.mem_cons_self)
  have hbl : b ∉ l := fun e => hb (List.mem_cons_of_mem _ e)
  have hh := r.not_mem
  refine ⟨by simp [hbl, hbh.symm, hh, r.nodup_tail], ?_⟩
  obtain ⟨c, t, hct⟩ : ∃ c t, l ++ [h] = c :: t := by cases l <;> simp
  have hchain := r.chain
  rw [hct, List.isChain_cons_cons] at hchain
  obtain ⟨⟨hnext, hprev⟩, hrest⟩ := hchain
  have hcb : c ≠ b := by
    rintro rfl
    have : c ∈ l ++ [h] := hct ▸ List.mem_cons_self
    simp [hbl, hbh] at this
  have hbt : b ∉ t := by
    intro e
    have : b ∈ l ++ [h] := hct ▸ List.mem_cons_of_mem _ e
    simp [hbl, hbh] at this
  have hcnodup : (c :: t).Nodup := by
    rw [← hct]
    exact List.nodup_append.2 ⟨r.nodup_tail, by simp, by simpa using fun a ha (e : a = h) => hh (e ▸ ha)⟩
  have hcl := (List.nodup_cons.1 hcnodup).1
  rw [List.cons_append, hct, List.isChain_cons_cons, List.isChain_cons_cons]
  refine ⟨⟨?_, ?_⟩, ⟨?_, ?_⟩, ?_⟩
  · simp [Links.insertHead]
  · simp [Links.insertHead, update_of_ne hbh.symm, hnext, update_of_ne hcb.symm]
  · simp [Links.insertHead, update_of_ne hbh, hnext]
  · simp [Links.insertHead, update_of_ne hbh.symm, hnext]
  · refine segment hrest (fun a ha hat => ?_) (fun a ha => ?_)
    · have hab : a ≠ b := fun e => by
        rcases List.mem_cons.1 ha with h1 | h1
        · exact hcb (h1.symm.trans e)
        · exact hbt (e ▸ h1)
      have hah : a ≠ h := by
        rintro rfl
        exact hcl (hnext ▸ hat)
      simp [Links.insertHead, update_of_ne hah, update_of_ne hab]
    · have hab : a ≠ b := fun e => hbt (e ▸ ha)
      have hac : a ≠ c := fun e => hcl (e ▸ ha)
      simp [Links.insertHead, update_of_ne hbh.symm, hnext, update_of_ne hac, update_of_ne hab]

theorem unlink (r : Ring k h l) (hb : b ∈ l) : Ring (k.unlink b) h (l.erase b) := by
  obtain ⟨l₁, l₂, -, rfl, he⟩ := List.exists_erase_eq hb
  rw [he]
  -- `p` and `n` are the neighbours of `b`
  obtain ⟨i, p, hp⟩ : ∃ i p, h :: l₁ = i ++ [p] := ⟨_, _, (List.dropLast_append_getLast (by simp)).symm⟩
  obtain ⟨n, t, hn⟩ : ∃ n t, l₂ ++ [h] = n :: t := by cases l₂ <;> simp
  have hnodup := r.nodup
  have hbi : b ∉ h :: l₁ := by grind
  have hbn : b ∉ n :: t := by rw [← hn]; grind
  have hpn : ∀ a ∈ (h :: l₁).tail, a ≠ n := by
    have : n ∈ l₂ ++ [h] := hn ▸ List.mem_cons_self
    grind
  have hnt : n ∉ t := by
    have : (n :: t).Nodup := by rw [← hn]; grind
    exact (List.nodup_cons.1 this).1
  have hchain := r.chain
  rw [show h :: (l₁ ++ b :: l₂ ++ [h]) = i ++ p :: b :: n :: t by
    rw [← List.cons_append, ← List.cons_append, hp]; simp [hn]] at hchain
  rw [List.isChain_append_cons_cons, List.isChain_cons_cons] at hchain
  obtain ⟨hfst, ⟨hpb, hbp⟩, ⟨hbn', hnb⟩, hsnd⟩ := hchain
  refine ⟨hnodup.sublist (by simp), ?_⟩
  rw [show h :: (l₁ ++ l₂ ++ [h]) = i ++ p :: n :: t by
    rw [List.append_assoc, hn, ← List.cons_append, hp]; simp]
  have hbne : b ≠ n := fun e => hbn (e ▸ List.mem_cons_self)
  have hnext : (k.unlink b).next = update k.next p n := by
    simp [Links.unlink, hbn', update_of_ne hbne, hbp]
  have hprev : (k.unlink b).prev = update k.prev n p := by
    simp [Links.unlink, hbn', hbp]
  rw [List.isChain_append_cons_cons]
  refine ⟨segment hfst (fun a ha hat => ?_) (fun a ha => ?_), ⟨?_, ?_⟩,
    segment hsnd (fun a ha hat => ?_) (fun a ha => ?_)⟩
  · have hap : a ≠ p := by
      rintro rfl
      rw [hpb, ← hp] at hat
      exact hbi (List.mem_of_mem_tail hat)
    rw [hnext, update_of_ne hap]
  · rw [← hp] at ha
    rw [hprev, update_of_ne (hpn a ha)]
  · rw [hnext, update_self]
  · rw [hprev, update_self]
  · have hap : a ≠ p := by
      rintro rfl
      rw [hpb] at hat
      exact hbn (List.mem_of_mem_tail hat)
    rw [hnext, update_of_ne hap]
  · have han : a ≠ n := fun e => hnt (e ▸ ha)
    rw [hprev, update_of_ne han]

/-! ## Walking round the ring -/

omit [DecidableEq N] in
/-- The nodes in order are met by following `next`. -/
theorem iterate_next (r : Ring k h l) : ∀ {i : Nat} (hi : i < l.length), k.next^[i + 1] h = l[i] := by
  have hstep : ∀ {i : Nat} (hi : i < l.length), k.next ((h :: l).get ⟨i, Nat.lt_succ_of_lt hi⟩) = l[i] := by
    intro i hi
    rw [List.get_eq_getElem]
    have hchain : ((h :: l) ++ [h]).IsChain fun a b => k.next a = b ∧ k.prev b = a := r.chain
    have hnext := (List.isChain_iff_getElem.1 hchain i (by simp; omega)).1
    rwa [List.getElem_append_left (by simp; omega), List.getElem_append_left (by simpa using hi)] at hnext
  intro i
  induction i with
  | zero =>
      intro hi
      exact hstep hi
  | succ i ih =>
      intro hi
      rw [Function.iterate_succ_apply', ih (Nat.lt_of_succ_lt hi)]
      exact hstep hi

theorem walk_chain {step : N → N} {test : N → Bool} :
    ∀ (s : List N) (start : N), (start :: s).IsChain (fun a b => step a = b) → h ∉ (start :: s).dropLast →
      (start :: s).getLast (by simp) = h → ∀ fuel, s.length < fuel →
      Links.walk step h test fuel start = some ((start :: s).dropLast.find? test)
  | [], start, _, _, hlast, fuel + 1, _ => by
      simp only [List.getLast_singleton] at hlast
      simp [Links.walk, hlast]
  | c :: s, start, hchain, hnot, hlast, fuel + 1, hfuel => by
      rw [List.isChain_cons_cons] at hchain
      have hne : start ≠ h := fun e => hnot (by simp [e])
      have ih : Links.walk step h test fuel c = some ((c :: s).dropLast.find? test) :=
        walk_chain s c hchain.2 (fun e => hnot (by simp [List.dropLast, e])) (by simpa using hlast) fuel
          (by simpa using hfuel)
      simp only [Links.walk, if_neg hne, hchain.1, ih, List.dropLast_cons_cons, List.find?_cons]
      cases test start <;> rfl

/-- Following `next` from the first node finds the first node of `l` that passes the test. -/
theorem walk_next (r : Ring k h l) (test : N → Bool) {fuel : Nat} (hf : l.length < fuel) :
    Links.walk k.next h test fuel (k.next h) = some (l.find? test) := by
  obtain ⟨c, t, hct⟩ : ∃ c t, l ++ [h] = c :: t := by cases l <;> simp
  have hchain := r.chain
  rw [hct, List.isChain_cons_cons] at hchain
  have hlen : t.length = l.length := by simpa using (congrArg List.length hct).symm
  rw [hchain.1.1, walk_chain t c (hchain.2.imp fun a b hab => hab.1) (by simpa [← hct] using r.not_mem)
    (by simp [← hct]) fuel (by omega)]
  simp [← hct]

/-- Following `prev` from the last node finds the last node of `l` that passes the test. -/
theorem walk_prev (r : Ring k h l) (test : N → Bool) {fuel : Nat} (hf : l.length < fuel) :
    Links.walk k.prev h test fuel (k.prev h) = some (l.reverse.find? test) := by
  have hrev : Ring ⟨k.prev, k.next⟩ h l.reverse := by
    refine ⟨by simpa using r.nodup, ?_⟩
    have := List.isChain_reverse.2 (r.chain.imp fun a b hab => And.comm.1 hab)
    simpa using this
  exact hrev.walk_next test (by simpa using hf)

end Ring

end RiscvOsLab
