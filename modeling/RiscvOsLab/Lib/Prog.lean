/-!
# Resumptions: stateful code with panics and switch points

`Prog σ α` is sequential code over a state `σ`: atomic actions, a `panic`, a loop that never ends
(`spin`) and marked points at which the processor may be given away (`wait`). The same term has two
readings: run alone (`Prog.run`, which walks through the switch points) and interleaved with others,
action by action.

`Prog.wp p Q E s` is the weakest precondition of the run alone: `Q` for a result and the state
reached, `E` for the way it stopped when there is none. `E := fun _ => False` is total correctness,
`E := fun _ => True` partial correctness.
-/

namespace RiscvOsLab

/-- The ways code ends without a result. -/
inductive Halt where
  | panic (msg : String)
  | spin
  deriving DecidableEq

inductive Prog (σ α : Type) : Type where
  | ret (a : α)
  | halt (h : Halt)
  | act (upd : σ → σ) (next : σ → Prog σ α)
  | wait (next : Prog σ α)

namespace Prog

variable {σ τ α β : Type}

protected def bind : Prog σ α → (α → Prog σ β) → Prog σ β
  | .ret a, f => f a
  | .halt h, _ => .halt h
  | .act upd next, f => .act upd (fun s => (next s).bind f)
  | .wait next, f => .wait (next.bind f)

instance : Monad (Prog σ) where
  pure := .ret
  bind := Prog.bind

def get : Prog σ σ := .act id .ret

def gets (f : σ → α) : Prog σ α := .act id (fun s => .ret (f s))

def modify (f : σ → σ) : Prog σ Unit := .act f (fun _ => .ret ())

protected def panic (msg : String) : Prog σ α := .halt (.panic msg)

def spin : Prog σ α := .halt .spin

/-- A switch point. -/
def pause : Prog σ Unit := .wait (.ret ())

/-- Code over a component `τ` of the state `σ`. -/
def zoom (view : σ → τ) (put : τ → σ → σ) : Prog τ α → Prog σ α
  | .ret a => .ret a
  | .halt h => .halt h
  | .act upd next =>
      .act (fun s => put (upd (view s)) s) (fun s => (next (view s)).zoom view put)
  | .wait next => .wait (next.zoom view put)

/-- `for (i = 0; i < n; i++) body(i);` -/
def forN (body : Nat → Prog σ Unit) : Nat → Prog σ Unit
  | 0 => .ret ()
  | n + 1 => (forN body n).bind fun _ => body n

/-- The run alone: switch points are walked through. -/
def run : Prog σ α → σ → Except Halt (α × σ)
  | .ret a, s => .ok (a, s)
  | .halt h, _ => .error h
  | .act upd next, s => (next s).run (upd s)
  | .wait next, s => next.run s

/-- The state a run ends in; the first state, if it stops. -/
def exec (p : Prog σ α) (s : σ) : σ :=
  match p.run s with
  | .ok (_, s') => s'
  | .error _ => s

/-- Weakest precondition of the run alone. -/
def wp (p : Prog σ α) (Q : α → σ → Prop) (E : Halt → Prop) (s : σ) : Prop :=
  match p.run s with
  | .ok (a, s') => Q a s'
  | .error h => E h

/-- Sequencing is associative. -/
theorem seq_assoc {γ : Type} (p : Prog σ α) (f : α → Prog σ β) (g : β → Prog σ γ) :
    (p >>= f) >>= g = p >>= fun a => f a >>= g := by
  change (p.bind f).bind g = p.bind fun a => (f a).bind g
  induction p with
  | ret a => rfl
  | halt h => rfl
  | act upd next ih => exact congrArg (act upd) (funext ih)
  | wait next ih => exact congrArg wait ih

theorem pure_seq (a : α) (f : α → Prog σ β) : (pure a >>= f) = f a := rfl

theorem seq_pure (p : Prog σ α) : p >>= pure = p := by
  change p.bind ret = p
  induction p with
  | ret a => rfl
  | halt h => rfl
  | act upd next ih => exact congrArg (act upd) (funext ih)
  | wait next ih => exact congrArg wait ih

/-! ## Running -/

@[simp] theorem run_pure (a : α) (s : σ) : (pure a : Prog σ α).run s = .ok (a, s) := rfl

theorem run_bind (p : Prog σ α) (f : α → Prog σ β) (s : σ) :
    (p >>= f).run s = match p.run s with
      | .ok (a, s') => (f a).run s'
      | .error h => .error h := by
  change (p.bind f).run s = _
  induction p generalizing s with
  | ret a => rfl
  | halt h => rfl
  | act upd next ih => exact ih s (upd s)
  | wait next ih => exact ih s

/-- A run known to have a result ends in `exec`. -/
theorem run_exec {p : Prog σ α} {s : σ} (h : (p.run s).isOk = true) : ∃ a, p.run s = .ok (a, p.exec s) := by
  unfold exec
  cases hr : p.run s with
  | ok r => exact ⟨r.1, rfl⟩
  | error e => simp [hr, Except.isOk, Except.toBool] at h

/-- A run known to return `a` ends in `exec`. -/
theorem run_exec_eq {p : Prog σ α} {s : σ} {a : α} (h : (p.run s).toOption.map Prod.fst = some a) :
    p.run s = .ok (a, p.exec s) := by
  cases hr : p.run s with
  | error e => simp [hr, Except.toOption] at h
  | ok r =>
      obtain ⟨b, t⟩ := r
      obtain rfl : b = a := by simpa [hr, Except.toOption] using h
      simp [exec, hr]

/-! ## The rules of `wp` -/

variable {Q Q' : α → σ → Prop} {E E' : Halt → Prop} {s : σ}

theorem wp_iff (p : Prog σ α) :
    p.wp Q E s ↔ (∀ a s', p.run s = .ok (a, s') → Q a s') ∧ (∀ h, p.run s = .error h → E h) := by
  unfold wp
  cases h : p.run s with
  | ok r =>
      obtain ⟨a, s'⟩ := r
      simp
  | error e => simp

theorem wp_ok {p : Prog σ α} (h : p.wp Q E s) {a : α} {s' : σ} (hr : p.run s = .ok (a, s')) :
    Q a s' :=
  ((wp_iff p).1 h).1 a s' hr

/-- With no way to stop allowed, the run has a result. -/
theorem wp_total {p : Prog σ α} (h : p.wp Q (fun _ => False) s) :
    ∃ a s', p.run s = .ok (a, s') ∧ Q a s' := by
  unfold wp at h
  cases hr : p.run s with
  | ok r => exact ⟨r.1, r.2, rfl, by simpa [hr] using h⟩
  | error e => simp [hr] at h

/-- With no result allowed and one way to stop, the run stops this way. -/
theorem wp_stuck {p : Prog σ α} {e : Halt} (h : p.wp (fun _ _ => False) (fun x => x = e) s) :
    p.run s = .error e := by
  unfold wp at h
  cases hr : p.run s with
  | ok r => simp [hr] at h
  | error x =>
      rw [hr] at h
      exact congrArg Except.error h

theorem wp_mono {p : Prog σ α} (h : p.wp Q E s) (hQ : ∀ a s', Q a s' → Q' a s')
    (hE : ∀ e, E e → E' e) : p.wp Q' E' s := by
  rw [wp_iff] at h ⊢
  exact ⟨fun a s' hr => hQ a s' (h.1 a s' hr), fun e hr => hE e (h.2 e hr)⟩

/-- Strengthening the postcondition alone. -/
theorem wp_post {p : Prog σ α} (h : p.wp Q E s) (hQ : ∀ a s', Q a s' → Q' a s') : p.wp Q' E s :=
  wp_mono h hQ fun _ he => he

/-- What is known of the results that there are. -/
theorem wp_and {p : Prog σ α} (h : p.wp Q E s) (h' : p.wp Q' (fun _ => True) s) :
    p.wp (fun a s' => Q a s' ∧ Q' a s') E s := by
  rw [wp_iff] at h h' ⊢
  exact ⟨fun a s' hr => ⟨h.1 a s' hr, h'.1 a s' hr⟩, h.2⟩

/-- Partial correctness of code about whose run nothing is known. -/
theorem wp_any (p : Prog σ α) (h : ∀ a s', Q a s') : p.wp Q (fun _ => True) s :=
  (wp_iff p).2 ⟨fun a s' _ => h a s', fun _ _ => trivial⟩

/-- A fact about the result of a run that is already known. -/
theorem wp_of_run {p : Prog σ α} {a : α} {s' : σ} (hr : p.run s = .ok (a, s')) :
    p.wp Q E s ↔ Q a s' := by
  simp [wp, hr]

@[simp] theorem wp_pure (a : α) : (pure a : Prog σ α).wp Q E s ↔ Q a s := Iff.rfl

@[simp] theorem wp_bind (p : Prog σ β) (f : β → Prog σ α) :
    (p >>= f).wp Q E s ↔ p.wp (fun b s' => (f b).wp Q E s') E s := by
  unfold wp
  rw [run_bind]
  cases p.run s with
  | ok r => rfl
  | error e => rfl

/-- The sequencing rule: what the first part establishes is enough for the second. -/
theorem wp_seq {p : Prog σ β} {f : β → Prog σ α} {R : β → σ → Prop} (hp : p.wp R E s)
    (hf : ∀ b s', R b s' → (f b).wp Q E s') : (p >>= f).wp Q E s :=
  (wp_bind p f).2 (wp_post hp hf)

@[simp] theorem wp_get {Q : σ → σ → Prop} : (get : Prog σ σ).wp Q E s ↔ Q s s := Iff.rfl

@[simp] theorem wp_gets (f : σ → α) : (gets f).wp Q E s ↔ Q (f s) s := Iff.rfl

@[simp] theorem wp_modify {Q : Unit → σ → Prop} (f : σ → σ) :
    (modify f).wp Q E s ↔ Q () (f s) := Iff.rfl

@[simp] theorem wp_panic (msg : String) :
    (Prog.panic msg : Prog σ α).wp Q E s ↔ E (.panic msg) := Iff.rfl

@[simp] theorem wp_spin : (spin : Prog σ α).wp Q E s ↔ E .spin := Iff.rfl

@[simp] theorem wp_pause {Q : Unit → σ → Prop} : (pause : Prog σ Unit).wp Q E s ↔ Q () s := Iff.rfl

theorem wp_ite (c : Prop) [Decidable c] (p q : Prog σ α) :
    (if c then p else q).wp Q E s ↔ (c → p.wp Q E s) ∧ (¬ c → q.wp Q E s) := by
  split <;> simp_all

/-- The loop rule: an invariant indexed by the rounds done. -/
theorem wp_forN {body : Nat → Prog σ Unit} (I : Nat → σ → Prop) {n : Nat} (h0 : I 0 s)
    (hbody : ∀ i s', i < n → I i s' → (body i).wp (fun _ => I (i + 1)) E s') :
    (forN body n).wp (fun _ => I n) E s := by
  induction n with
  | zero => exact h0
  | succ n ih =>
      exact wp_seq (ih fun i s' hi hs => hbody i s' (Nat.lt_succ_of_lt hi) hs)
        fun _ s' hs => hbody n s' (Nat.lt_succ_self n) hs

theorem run_zoom (view : σ → τ) (put : τ → σ → σ) (hview : ∀ t s, view (put t s) = t)
    (hput : ∀ t u s, put t (put u s) = put t s) (hself : ∀ s, put (view s) s = s)
    (p : Prog τ α) (s : σ) :
    (p.zoom view put).run s = match p.run (view s) with
      | .ok (a, t) => .ok (a, put t s)
      | .error h => .error h := by
  induction p generalizing s with
  | ret a => simp [zoom, run, hself]
  | halt h => rfl
  | act upd next ih =>
      simp only [zoom, run]
      rw [ih, hview]
      simp only [hput]
  | wait next ih => exact ih s

/-- Code over a component is judged on the component. -/
theorem wp_zoom (view : σ → τ) (put : τ → σ → σ) (hview : ∀ t s, view (put t s) = t)
    (hput : ∀ t u s, put t (put u s) = put t s) (hself : ∀ s, put (view s) s = s)
    (p : Prog τ α) :
    (p.zoom view put).wp Q E s ↔ p.wp (fun a t => Q a (put t s)) E (view s) := by
  unfold wp
  rw [run_zoom view put hview hput hself]
  cases p.run (view s) with
  | ok r => rfl
  | error e => rfl

end Prog

end RiscvOsLab
