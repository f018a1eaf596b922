import Mathlib.Logic.Function.Basic

/-!
# Open descriptions

Files are sequences of elements, and every descriptor of a process is bound to a description of its own: a file, an
offset in it, and what it was opened for. `read`, `write` and `close` work through a descriptor; `Step` are the calls
with their results, among them `open`, which binds the smallest free descriptor of the caller and may fail for want of
room. A call changes no description but its own (`Step.desc_other`).
-/

namespace RiscvOsLab.Descriptions

open Function

/-- An open description. -/
structure Desc (K : Type) where
  file : K
  off : Nat
  readable : Bool
  writable : Bool

/-- The files, and the descriptions of each process `P` by descriptor. -/
structure State (P K α : Type) (n : Nat) where
  file : K → Option (List α)
  desc : P → Fin n → Option (Desc K)

/-- The elements from `off` on are replaced. -/
def splice {α : Type} (bytes : List α) (off : Nat) (src : List α) : List α :=
  bytes.take off ++ src ++ bytes.drop (off + src.length)

theorem getElem?_splice {α : Type} {bytes : List α} {off : Nat} (h : off ≤ bytes.length) (src : List α) (i : Nat) :
    (splice bytes off src)[i]? = if off ≤ i ∧ i < off + src.length then src[i - off]? else bytes[i]? := by
  have hlen : (bytes.take off).length = off := by
    rw [List.length_take]
    omega
  unfold splice
  rcases Nat.lt_or_ge i off with hlo | hlo
  · rw [if_neg (by omega), List.append_assoc, List.getElem?_append_left (by omega), List.getElem?_take, if_pos hlo]
  · rw [List.append_assoc, List.getElem?_append_right (by omega), hlen]
    rcases Nat.lt_or_ge i (off + src.length) with hhi | hhi
    · rw [if_pos ⟨hlo, hhi⟩, List.getElem?_append_left (by omega)]
    · rw [if_neg (by omega), List.getElem?_append_right (by omega), List.getElem?_drop]
      congr 1
      omega

/-- Where the path of an `open` leads. -/
inductive Target (K N : Type) where
  | missing
  | found (k : K)
  | create (dir : K) (name : N)

inductive Op (K N α : Type) where
  | open (target : Target K N) (readable writable : Bool)
  | read (fd : Int) (count : Nat)
  | write (fd : Int) (src : List α)
  | close (fd : Int)

/-- The descriptor that a call works through. -/
def Op.fd {K N α : Type} : Op K N α → Option Int
  | .open _ _ _ => none
  | .read fd _ | .write fd _ | .close fd => some fd

variable {P K N α : Type} {n : Nat}

namespace State

/-- The description behind descriptor `fd` of `p`. -/
def find (s : State P K α n) (p : P) (fd : Int) : Option (Fin n × Desc K) :=
  if h : 0 ≤ fd ∧ fd < n then (s.desc p ⟨fd.toNat, by omega⟩).map fun d => (⟨fd.toNat, by omega⟩, d) else none

theorem find_eq_some {s : State P K α n} {p : P} {fd : Int} {i : Fin n} {d : Desc K} :
    s.find p fd = some (i, d) ↔ fd = i ∧ s.desc p i = some d := by
  unfold find
  split
  · rename_i h
    rw [Option.map_eq_some_iff]
    constructor
    · rintro ⟨d', hd, he⟩
      obtain ⟨rfl, rfl⟩ := Prod.mk.inj he
      refine ⟨?_, hd⟩
      show fd = (fd.toNat : Int)
      omega
    · rintro ⟨rfl, hd⟩
      exact ⟨d, hd, rfl⟩
  · rename_i h
    refine ⟨fun hn => absurd hn (by simp), fun ⟨hfd, _⟩ => absurd ⟨?_, ?_⟩ h⟩
    · omega
    · have hi := i.isLt
      omega

variable [DecidableEq P]

def setDesc (s : State P K α n) (p : P) (i : Fin n) (d : Option (Desc K)) : State P K α n :=
  { s with desc := update s.desc p (update (s.desc p) i d) }

theorem setDesc_self (s : State P K α n) (p : P) (i : Fin n) (d : Option (Desc K)) : (s.setDesc p i d).desc p i = d := by
  unfold setDesc
  simp only [update_self]

theorem setDesc_of_ne {p q : P} {i j : Fin n} (h : ¬ (q = p ∧ j = i)) (s : State P K α n) (d : Option (Desc K)) :
    (s.setDesc p i d).desc q j = s.desc q j := by
  unfold setDesc
  by_cases hq : q = p
  · rw [hq]
    simp only [update_self]
    exact update_of_ne (fun hj => h ⟨hq, hj⟩) _ _
  · simp only [update_of_ne hq]

variable [DecidableEq K]

def setFile (s : State P K α n) (k : K) (bytes : List α) : State P K α n :=
  { s with file := update s.file k (some bytes) }

/-- The elements from the offset on, at most `count`. -/
def read (s : State P K α n) (p : P) (fd : Int) (count : Nat) : (Int × List α) × State P K α n :=
  match s.find p fd with
  | none => ((-1, []), s)
  | some (i, d) =>
      if d.readable then
        let out := (((s.file d.file).getD []).drop d.off).take count
        ((out.length, out), s.setDesc p i (some { d with off := d.off + out.length }))
      else ((-1, []), s)

/-- All of `src` is written at the offset, or nothing. -/
def write (limit : Nat) (s : State P K α n) (p : P) (fd : Int) (src : List α) : Int × State P K α n :=
  match s.find p fd with
  | none => (-1, s)
  | some (i, d) =>
      if d.writable ∧ d.off + src.length ≤ limit then
        (src.length, (s.setFile d.file (splice ((s.file d.file).getD []) d.off src)).setDesc p i
          (some { d with off := d.off + src.length }))
      else (-1, s)

def close (s : State P K α n) (p : P) (fd : Int) : Int × State P K α n :=
  match s.find p fd with
  | none => (-1, s)
  | some (i, _) => (0, s.setDesc p i none)

end State

open State

variable [DecidableEq P] [DecidableEq K]

/-- The file that a path leads to, made if need be: an empty file, and its entry written into the directory. -/
inductive Leads (entry : K → N → List α) (s : State P K α n) : Target K N → K → State P K α n → Prop
  | found {k : K} : s.file k ≠ none → Leads entry s (.found k) k s
  | create {dir k : K} {name : N} {bytes : List α} {off : Nat} : s.file k = none → s.file dir = some bytes →
      off ≤ bytes.length → Leads entry s (.create dir name) k ((s.setFile k []).setFile dir (splice bytes off (entry k name)))

/-- A call of `p`, with its result. -/
inductive Step (limit : Nat) (entry : K → N → List α) (s : State P K α n) (p : P) :
    Op K N α → Int × List α → State P K α n → Prop
  | missing {r w : Bool} : Step limit entry s p (.open .missing r w) (-1, []) s
  | full {target : Target K N} {k : K} {t : State P K α n} {r w : Bool} : Leads entry s target k t →
      Step limit entry s p (.open target r w) (-1, []) t
  | opened {target : Target K N} {k : K} {t : State P K α n} {i : Fin n} {r w : Bool} : Leads entry s target k t →
      s.desc p i = none → (∀ j < i, s.desc p j ≠ none) →
      Step limit entry s p (.open target r w) ((i.val : Int), []) (t.setDesc p i (some ⟨k, 0, r, w⟩))
  | read {fd : Int} {count : Nat} : Step limit entry s p (.read fd count) (s.read p fd count).1 (s.read p fd count).2
  | write {fd : Int} {src : List α} :
      Step limit entry s p (.write fd src) ((s.write limit p fd src).1, []) (s.write limit p fd src).2
  | close {fd : Int} : Step limit entry s p (.close fd) ((s.close p fd).1, []) (s.close p fd).2

section Results
variable {limit : Nat} {entry : K → N → List α} {s t : State P K α n} {p : P} {fd r : Int}

theorem Step.of_read {count : Nat} {out : List α} (h : s.read p fd count = ((r, out), t)) :
    Step limit entry s p (.read fd count) (r, out) t := by
  have hstep : Step limit entry s p (.read fd count) _ _ := .read
  rw [h] at hstep
  exact hstep

theorem Step.of_write {src : List α} (h : s.write limit p fd src = (r, t)) :
    Step limit entry s p (.write fd src) (r, []) t := by
  have hstep : Step limit entry s p (.write fd src) _ _ := .write
  rw [h] at hstep
  exact hstep

theorem Step.of_close (h : s.close p fd = (r, t)) : Step limit entry s p (.close fd) (r, []) t := by
  have hstep : Step limit entry s p (.close fd) _ _ := .close
  rw [h] at hstep
  exact hstep

end Results

omit [DecidableEq P] in
theorem Leads.desc {entry : K → N → List α} {s t : State P K α n} {target : Target K N} {k : K}
    (h : Leads entry s target k t) : t.desc = s.desc := by
  cases h <;> rfl

/-- The descriptions of other descriptors stay as they are. -/
theorem Step.desc_other {limit : Nat} {entry : K → N → List α} {s t : State P K α n} {p q : P} {op : Op K N α}
    {r : Int × List α} (h : Step limit entry s p op r t) {j : Fin n} {d : Desc K} (hd : s.desc q j = some d)
    (hne : ¬ (q = p ∧ op.fd = some (j.val : Int))) : t.desc q j = some d := by
  have hfound {fd : Int} {i : Fin n} {d' : Desc K} (hf : s.find p fd = some (i, d')) (hop : op.fd = some fd) :
      ¬ (q = p ∧ j = i) := by
    rintro ⟨hq, rfl⟩
    exact hne ⟨hq, by rw [hop, (find_eq_some.1 hf).1]⟩
  cases h with
  | missing => exact hd
  | full hl =>
      rw [hl.desc]
      exact hd
  | @opened target k t i r w hl hfree _ =>
      have hout : ¬ (q = p ∧ j = i) := by
        rintro ⟨rfl, rfl⟩
        rw [hfree] at hd
        exact absurd hd (by simp)
      rw [setDesc_of_ne hout, hl.desc]
      exact hd
  | read =>
      unfold State.read
      split
      · exact hd
      · rename_i i d' hf
        split
        · rw [setDesc_of_ne (hfound hf rfl)]
          exact hd
        · exact hd
  | write =>
      unfold State.write
      split
      · exact hd
      · rename_i i d' hf
        split
        · rw [setDesc_of_ne (hfound hf rfl)]
          exact hd
        · exact hd
  | close =>
      unfold State.close
      split
      · exact hd
      · rename_i i d' hf
        rw [setDesc_of_ne (hfound hf rfl)]
        exact hd

end RiscvOsLab.Descriptions
