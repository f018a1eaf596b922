import RiscvOsLab.Lib.Prog

/-!
# Every moment of a run, and code that gives back what it takes

`p.moments s` are the states the run of `p` from `s` goes through, one for each action. `p.during I Q E s` says `I`
of all of them, and of the end what `wp` says.

`Borrows lent max E k bs p` : whoever runs `p` has the resources `bs`; `p` gives them back, with all that it takes
itself, and takes `k` at a time at most. `lent l s` says that in `s` the resources `l` are out, of which there may
be `max`. The rules are one for each form of code.
-/

namespace RiscvOsLab

namespace Prog

variable {σ τ α β : Type}

/-- The states after each action of the run. -/
def moments : Prog σ α → σ → List σ
  | .ret _, _ => []
  | .halt _, _ => []
  | .act upd next, s => upd s :: (next s).moments (upd s)
  | .wait next, s => next.moments s

/-- `I` after each action, and `Q` or `E` at the end. -/
def during (p : Prog σ α) (I : σ → Prop) (Q : α → σ → Prop) (E : Halt → Prop) (s : σ) : Prop :=
  match p with
  | .ret a => Q a s
  | .halt h => E h
  | .act upd next => I (upd s) ∧ (next s).during I Q E (upd s)
  | .wait next => next.during I Q E s

section During
variable {I : σ → Prop} {Q Q' : α → σ → Prop} {E E' : Halt → Prop} {s : σ}

@[simp] theorem during_pure (a : α) : (pure a : Prog σ α).during I Q E s ↔ Q a s := Iff.rfl

@[simp] theorem during_bind (p : Prog σ β) (f : β → Prog σ α) :
    (p >>= f).during I Q E s ↔ p.during I (fun b t => (f b).during I Q E t) E s := by
  change (p.bind f).during I Q E s ↔ _
  induction p generalizing s with
  | ret a => rfl
  | halt h => rfl
  | act upd next ih => exact and_congr_right fun _ => ih s
  | wait next ih => exact ih

theorem during_mono {p : Prog σ α} (h : p.during I Q E s) (hQ : ∀ a t, Q a t → Q' a t) (hE : ∀ e, E e → E' e) :
    p.during I Q' E' s := by
  induction p generalizing s with
  | ret a => exact hQ a s h
  | halt e => exact hE e h
  | act upd next ih => exact ⟨h.1, ih s h.2⟩
  | wait next ih => exact ih h

theorem during_gets {f : σ → α} (hI : I s) (hQ : Q (f s) s) : (gets f).during I Q E s := ⟨hI, hQ⟩

theorem during_get {Q : σ → σ → Prop} (hI : I s) (hQ : Q s s) : (get : Prog σ σ).during I Q E s := ⟨hI, hQ⟩

theorem during_modify {Q : Unit → σ → Prop} {f : σ → σ} (hI : I (f s)) (hQ : Q () (f s)) :
    (modify f).during I Q E s := ⟨hI, hQ⟩

/-- Code over a component is judged on the component. -/
theorem during_zoom {J : τ → Prop} (view : σ → τ) (put : τ → σ → σ) (hview : ∀ t s, view (put t s) = t)
    (hput : ∀ t u s, put t (put u s) = put t s) (hself : ∀ s, put (view s) s = s) (p : Prog τ α) :
    (p.zoom view put).during (fun s => J (view s)) Q E s ↔ p.during J (fun a t => Q a (put t s)) E (view s) := by
  induction p generalizing s with
  | ret a =>
      unfold zoom during
      rw [hself]
  | halt h => rfl
  | act upd next ih =>
      unfold zoom during
      rw [ih, hview]
      simp only [hput]
  | wait next ih => exact ih

end During

end Prog

/-! ## Borrowing -/

section Borrow
variable {σ τ ρ α β : Type}

open Prog

/-- At most `max` resources are out. -/
def AtMost (lent : List ρ → σ → Prop) (max : Nat) (s : σ) : Prop := ∃ l : List ρ, l.length ≤ max ∧ lent l s

/-- `p` gives back `bs` and what it takes, and takes `k` at a time at most. -/
def Borrows (lent : List ρ → σ → Prop) (max : Nat) (E : Halt → Prop) (k : Nat) (bs : List ρ) (p : Prog σ α) : Prop :=
  ∀ s held, held.length + bs.length + k ≤ max → lent (bs ++ held) s →
    p.during (AtMost lent max) (fun _ t => lent held t) E s

/-- `p` takes one resource, and returns it. -/
def Takes (lent : List ρ → σ → Prop) (max : Nat) (E : Halt → Prop) (p : Prog σ ρ) : Prop :=
  ∀ s held, held.length < max → lent held s → p.during (AtMost lent max) (fun b t => lent (b :: held) t) E s

/-- `p` gives `b` back. -/
def Gives (lent : List ρ → σ → Prop) (max : Nat) (E : Halt → Prop) (b : ρ) (p : Prog σ α) : Prop :=
  ∀ s held, held.length < max → lent (b :: held) s → p.during (AtMost lent max) (fun _ t => lent held t) E s

variable {lent : List ρ → σ → Prop} {max k : Nat} {E : Halt → Prop} {bs : List ρ} {b : ρ}

theorem borrows_pure (a : α) : Borrows lent max E k [] (pure a : Prog σ α) := fun _ _ _ h => h

theorem borrows_panic {msg : String} (h : E (.panic msg)) : Borrows lent max E k bs (Prog.panic msg : Prog σ α) :=
  fun _ _ _ _ => h

/-- An action that does not concern the resources. -/
theorem borrows_modify {f : σ → σ} (hf : ∀ s l, lent l s → lent l (f s)) :
    Borrows lent max E k [] (modify f) := by
  intro s held hlen h
  have hmoved := hf s held h
  exact during_modify ⟨held, by omega, hmoved⟩ hmoved

theorem borrows_gets (f : σ → α) : Borrows lent max E k [] (gets f) := by
  intro s held hlen h
  exact during_gets ⟨held, by omega, h⟩ h

theorem borrows_get : Borrows lent max E k [] (get : Prog σ σ) := by
  intro s held hlen h
  exact during_get ⟨held, by omega, h⟩ h

theorem borrows_bind {p : Prog σ β} {f : β → Prog σ α} (hp : Borrows lent max E k [] p)
    (hf : ∀ a, Borrows lent max E k bs (f a)) : Borrows lent max E k bs (p >>= f) := by
  intro s held hlen h
  rw [during_bind]
  refine during_mono (hp s (bs ++ held) ?_ h) (fun a t ht => hf a t held hlen ht) fun _ he => he
  rw [List.length_append, List.length_nil]
  omega

/-- One is taken, to be given back by what follows. -/
theorem borrows_take {p : Prog σ ρ} {f : ρ → Prog σ α} (hp : Takes lent max E p)
    (hf : ∀ b, Borrows lent max E k (b :: bs) (f b)) : Borrows lent max E (k + 1) bs (p >>= f) := by
  intro s held hlen h
  rw [during_bind]
  refine during_mono (hp s (bs ++ held) ?_ h) (fun b t ht => hf b t held ?_ ht) fun _ he => he
  · rw [List.length_append]
    omega
  · rw [List.length_cons]
    omega

/-- One is given back, so that what follows may take one more. -/
theorem borrows_give {p : Prog σ β} {f : β → Prog σ α} (hp : Gives lent max E b p)
    (hf : ∀ a, Borrows lent max E (k + 1) bs (f a)) : Borrows lent max E k (b :: bs) (p >>= f) := by
  intro s held hlen h
  rw [List.length_cons] at hlen
  rw [during_bind]
  refine during_mono (hp s (bs ++ held) ?_ h) (fun a t ht => hf a t held (by omega) ht) fun _ he => he
  rw [List.length_append]
  omega

theorem borrows_ite {c : Prop} [Decidable c] {p q : Prog σ α} (hp : Borrows lent max E k bs p)
    (hq : Borrows lent max E k bs q) : Borrows lent max E k bs (if c then p else q) := by
  split
  · exact hp
  · exact hq

theorem Gives.borrows {p : Prog σ α} (hp : Gives lent max E b p) : Borrows lent max E k [b] p := by
  intro s held hlen h
  rw [List.length_singleton] at hlen
  exact hp s held (by omega) h

theorem Borrows.mono {p : Prog σ α} (hp : Borrows lent max E k bs p) {n : Nat} (hn : k ≤ n) :
    Borrows lent max E n bs p := fun s held hlen h => hp s held (by omega) h

section Zoom
variable {lent : List ρ → τ → Prop} (view : σ → τ) (put : τ → σ → σ) (hview : ∀ t s, view (put t s) = t)
  (hput : ∀ t u s, put t (put u s) = put t s) (hself : ∀ s, put (view s) s = s)
include hview hput hself

theorem during_few_zoom {l : α → List ρ} {p : Prog τ α} {s : σ}
    (h : p.during (AtMost lent max) (fun a t => lent (l a) t) E (view s)) :
    (p.zoom view put).during (AtMost (fun l s => lent l (view s)) max) (fun a t => lent (l a) (view t)) E s := by
  refine (during_zoom view put hview hput hself p).2 (during_mono h (fun a t ht => ?_) fun _ he => he)
  rwa [hview]

theorem borrows_zoom {p : Prog τ α} (hp : Borrows lent max E k bs p) :
    Borrows (fun l s => lent l (view s)) max E k bs (p.zoom view put) := fun s held hlen h =>
  during_few_zoom view put hview hput hself (hp (view s) held hlen h)

theorem takes_zoom {p : Prog τ ρ} (hp : Takes lent max E p) :
    Takes (fun l s => lent l (view s)) max E (p.zoom view put) := fun s held hlen h =>
  during_few_zoom view put hview hput hself (hp (view s) held hlen h)

theorem gives_zoom {p : Prog τ α} (hp : Gives lent max E b p) :
    Gives (fun l s => lent l (view s)) max E b (p.zoom view put) := fun s held hlen h =>
  during_few_zoom view put hview hput hself (hp (view s) held hlen h)

end Zoom

end Borrow

end RiscvOsLab
