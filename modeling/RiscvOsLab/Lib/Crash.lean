import RiscvOsLab.Lib.Prog

/-!
# Code that may be cut off

`Prog.visits p s` are the states through which the run alone of `p` passes, from `s` on, whether it has a result or
stops. `Prog.wpc p Q I s` is the weakest precondition with a crash condition: `Q` of the result, if there is one, and
`I` of every state on the way, in which the power may fail.

* `wpc_pure`, `wpc_bind`, `wpc_modify`, `wpc_zoom` : the rules, as those of `wp`;
* `Steady view p` : a part of the state that `p` never touches, however it is started; `Steady.wpc` : of such code `wp`
  is enough.
-/

namespace RiscvOsLab

namespace Prog

variable {σ τ α β γ : Type}

def visits : Prog σ α → σ → List σ
  | .ret _, s => [s]
  | .halt _, s => [s]
  | .act upd next, s => s :: (next s).visits (upd s)
  | .wait next, s => next.visits s

/-- The weakest precondition with a crash condition. -/
def wpc (p : Prog σ α) (Q : α → σ → Prop) (I : σ → Prop) (s : σ) : Prop :=
  p.wp Q (fun _ => True) s ∧ ∀ t ∈ p.visits s, I t

/-- Code that leaves a part of the state alone, however it is started. -/
def Steady (view : σ → γ) (p : Prog σ α) : Prop := ∀ s, ∀ t ∈ p.visits s, view t = view s

theorem mem_visits_start (p : Prog σ α) (s : σ) : s ∈ p.visits s := by
  induction p generalizing s with
  | ret a => exact List.mem_cons_self
  | halt h => exact List.mem_cons_self
  | act upd next ih => exact List.mem_cons_self
  | wait next ih => exact ih s

/-- The state with the result is one of those passed through. -/
theorem mem_visits_end {p : Prog σ α} {s t : σ} {a : α} (h : p.run s = .ok (a, t)) : t ∈ p.visits s := by
  induction p generalizing s with
  | ret b =>
      obtain ⟨-, rfl⟩ := Prod.mk.inj (Except.ok.inj h)
      exact List.mem_cons_self
  | halt e => exact absurd h (by simp [run])
  | act upd next ih => exact List.mem_cons_of_mem _ (ih s h)
  | wait next ih => exact ih h

theorem visits_bind (p : Prog σ α) (f : α → Prog σ β) (s t : σ) :
    t ∈ (p >>= f).visits s ↔ t ∈ p.visits s ∨ ∃ a s', p.run s = .ok (a, s') ∧ t ∈ (f a).visits s' := by
  change t ∈ (p.bind f).visits s ↔ _
  induction p generalizing s with
  | ret a =>
      have hrun : (ret a : Prog σ α).run s = .ok (a, s) := rfl
      have hfirst := mem_visits_start (f a) s
      simp only [Prog.bind, visits, List.mem_singleton, hrun, Except.ok.injEq, Prod.mk.injEq]
      constructor
      · exact fun ht => .inr ⟨a, s, ⟨rfl, rfl⟩, ht⟩
      · rintro (rfl | ⟨b, s', ⟨rfl, rfl⟩, ht⟩)
        · exact hfirst
        · exact ht
  | halt h => simp [Prog.bind, visits, run]
  | act upd next ih =>
      simp only [Prog.bind, visits, List.mem_cons, ih, run]
      exact or_assoc.symm
  | wait next ih => exact ih s

theorem visits_zoom (view : σ → τ) (put : τ → σ → σ) (hview : ∀ t s, view (put t s) = t)
    (hput : ∀ t u s, put t (put u s) = put t s) (hself : ∀ s, put (view s) s = s) (p : Prog τ α) (s : σ) :
    (p.zoom view put).visits s = (p.visits (view s)).map fun t => put t s := by
  induction p generalizing s with
  | ret a => simp [zoom, visits, hself]
  | halt h => simp [zoom, visits, hself]
  | act upd next ih =>
      simp only [zoom, visits, List.map_cons, hself]
      rw [ih, hview]
      simp only [hput]
  | wait next ih => exact ih s

/-! ## The rules of `wpc` -/

section Rules
variable {Q Q' : α → σ → Prop} {I I' : σ → Prop} {s : σ}

theorem wpc_mono {p : Prog σ α} (h : p.wpc Q I s) (hQ : ∀ a t, Q a t → Q' a t) (hI : ∀ t, I t → I' t) :
    p.wpc Q' I' s := ⟨wp_post h.1 hQ, fun t ht => hI t (h.2 t ht)⟩

theorem wpc_post {p : Prog σ α} (h : p.wpc Q I s) (hQ : ∀ a t, Q a t → Q' a t) : p.wpc Q' I s :=
  wpc_mono h hQ fun _ ht => ht

/-- The crash condition and the postcondition may be proved one by one. -/
theorem wpc_of_wp {p : Prog σ α} (hwp : p.wp Q (fun _ => True) s) (h : p.wpc (fun _ _ => True) I s) : p.wpc Q I s :=
  ⟨hwp, h.2⟩

/-- The power may fail at the end. -/
theorem wpc_last {p : Prog σ α} (h : p.wpc Q I s) : p.wpc (fun a t => Q a t ∧ I t) I s := by
  refine ⟨(wp_iff p).2 ⟨fun a t hr => ⟨wp_ok h.1 hr, h.2 t (mem_visits_end hr)⟩, fun _ _ => trivial⟩, h.2⟩

/-- The power may fail at once. -/
theorem wpc_start {p : Prog σ α} (h : p.wpc Q I s) : I s := h.2 s (mem_visits_start p s)

@[simp] theorem wpc_pure (a : α) : (pure a : Prog σ α).wpc Q I s ↔ Q a s ∧ I s := by
  refine and_congr_right fun _ => ⟨fun h => h s List.mem_cons_self, fun h t ht => ?_⟩
  rwa [List.mem_singleton.1 ht]

@[simp] theorem wpc_bind (p : Prog σ β) (f : β → Prog σ α) :
    (p >>= f).wpc Q I s ↔ p.wpc (fun b t => (f b).wpc Q I t) I s := by
  constructor
  · rintro ⟨hwp, hI⟩
    rw [wp_bind, wp_iff] at hwp
    refine ⟨(wp_iff p).2 ⟨fun b t hr => ⟨hwp.1 b t hr, fun u hu => ?_⟩, fun _ _ => trivial⟩, fun t ht => ?_⟩
    · exact hI u ((visits_bind p f s u).2 (.inr ⟨b, t, hr, hu⟩))
    · exact hI t ((visits_bind p f s t).2 (.inl ht))
  · rintro ⟨hwp, hI⟩
    have hall := ((wp_iff p).1 hwp).1
    refine ⟨(wp_bind p f).2 ((wp_iff p).2 ⟨fun b t hr => (hall b t hr).1, fun _ _ => trivial⟩), fun t ht => ?_⟩
    rcases (visits_bind p f s t).1 ht with ht | ⟨b, u, hr, ht⟩
    · exact hI t ht
    · exact (hall b u hr).2 t ht

/-- The sequencing rule. -/
theorem wpc_seq {p : Prog σ β} {f : β → Prog σ α} {R : β → σ → Prop} (hp : p.wpc R I s)
    (hf : ∀ b t, R b t → (f b).wpc Q I t) : (p >>= f).wpc Q I s := (wpc_bind p f).2 (wpc_post hp hf)

@[simp] theorem wpc_get {Q : σ → σ → Prop} : (get : Prog σ σ).wpc Q I s ↔ Q s s ∧ I s := by
  refine and_congr_right fun _ => ⟨fun h => h s List.mem_cons_self, fun h t ht => ?_⟩
  simp only [visits, id_eq, List.mem_cons, List.not_mem_nil, or_false, or_self, get] at ht
  rwa [ht]

@[simp] theorem wpc_gets (f : σ → α) : (gets f).wpc Q I s ↔ Q (f s) s ∧ I s := by
  refine and_congr_right fun _ => ⟨fun h => h s List.mem_cons_self, fun h t ht => ?_⟩
  simp only [visits, id_eq, List.mem_cons, List.not_mem_nil, or_false, or_self, gets] at ht
  rwa [ht]

@[simp] theorem wpc_modify {Q : Unit → σ → Prop} (f : σ → σ) :
    (modify f).wpc Q I s ↔ Q () (f s) ∧ I s ∧ I (f s) := by
  refine and_congr_right fun _ => ⟨fun h => ?_, fun h t ht => ?_⟩
  · exact ⟨h _ (by simp [modify, visits]), h _ (by simp [modify, visits])⟩
  · simp only [modify, visits, List.mem_cons, List.not_mem_nil, or_false] at ht
    rcases ht with rfl | rfl
    · exact h.1
    · exact h.2

@[simp] theorem wpc_panic (msg : String) : (Prog.panic msg : Prog σ α).wpc Q I s ↔ I s := by
  refine ⟨fun h => wpc_start h, fun h => ⟨trivial, fun t ht => ?_⟩⟩
  rwa [List.mem_singleton.1 ht]

@[simp] theorem wpc_pause {Q : Unit → σ → Prop} : (pause : Prog σ Unit).wpc Q I s ↔ Q () s ∧ I s := by
  refine and_congr_right fun _ => ⟨fun h => h s List.mem_cons_self, fun h t ht => ?_⟩
  rwa [List.mem_singleton.1 ht]

theorem wpc_ite (c : Prop) [Decidable c] (p q : Prog σ α) :
    (if c then p else q).wpc Q I s ↔ (c → p.wpc Q I s) ∧ (¬ c → q.wpc Q I s) := by
  split <;> simp_all

/-- Code over a component is judged on the component. -/
theorem wpc_zoom (view : σ → τ) (put : τ → σ → σ) (hview : ∀ t s, view (put t s) = t)
    (hput : ∀ t u s, put t (put u s) = put t s) (hself : ∀ s, put (view s) s = s) (p : Prog τ α) :
    (p.zoom view put).wpc Q I s ↔ p.wpc (fun a t => Q a (put t s)) (fun t => I (put t s)) (view s) := by
  unfold wpc
  rw [wp_zoom view put hview hput hself, visits_zoom view put hview hput hself]
  simp only [List.mem_map, forall_exists_index, and_imp, forall_apply_eq_imp_iff₂]

end Rules

/-! ## Code that leaves a part of the state alone -/

section Steady
variable {view : σ → γ} {Q : α → σ → Prop} {C : γ → Prop} {s : σ}

theorem Steady.wpc {p : Prog σ α} (h : p.Steady view) (hwp : p.wp Q (fun _ => True) s) (hC : C (view s)) :
    p.wpc Q (fun t => C (view t)) s := by
  refine ⟨hwp, fun t ht => ?_⟩
  show C (view t)
  rwa [h s t ht]

theorem steady_pure (a : α) : (pure a : Prog σ α).Steady view := fun s t ht => by rw [List.mem_singleton.1 ht]

theorem steady_panic (msg : String) : (Prog.panic msg : Prog σ α).Steady view :=
  fun s t ht => by rw [List.mem_singleton.1 ht]

theorem steady_spin : (spin : Prog σ α).Steady view := fun s t ht => by rw [List.mem_singleton.1 ht]

theorem steady_bind {p : Prog σ β} {f : β → Prog σ α} (hp : p.Steady view) (hf : ∀ b, (f b).Steady view) :
    (p >>= f).Steady view := by
  intro s t ht
  rcases (visits_bind p f s t).1 ht with ht | ⟨b, u, hr, ht⟩
  · exact hp s t ht
  · rw [hf b u t ht, hp s u (mem_visits_end hr)]

theorem steady_modify {f : σ → σ} (hf : ∀ s, view (f s) = view s) : (modify f).Steady view := by
  intro s t ht
  simp only [modify, visits, List.mem_cons, List.not_mem_nil, or_false] at ht
  rcases ht with rfl | rfl
  · rfl
  · exact hf s

theorem steady_get : (get : Prog σ σ).Steady view := by
  intro s t ht
  simp only [get, visits, id_eq, List.mem_cons, List.not_mem_nil, or_false, or_self] at ht
  rw [ht]

theorem steady_gets (f : σ → α) : (gets f).Steady view := by
  intro s t ht
  simp only [gets, visits, id_eq, List.mem_cons, List.not_mem_nil, or_false, or_self] at ht
  rw [ht]

theorem steady_pause : (pause : Prog σ Unit).Steady view := fun s t ht => by rw [List.mem_singleton.1 ht]

theorem steady_ite (c : Prop) [Decidable c] {p q : Prog σ α} (hp : p.Steady view) (hq : q.Steady view) :
    (if c then p else q).Steady view := by
  split
  · exact hp
  · exact hq

/-- The part lies in the component the code works on. -/
theorem steady_zoom {view' : τ → γ} (get : σ → τ) (put : τ → σ → σ) (hview : ∀ t s, get (put t s) = t)
    (hput : ∀ t u s, put t (put u s) = put t s) (hself : ∀ s, put (get s) s = s) {p : Prog τ α}
    (hp : p.Steady view') : (p.zoom get put).Steady fun s => view' (get s) := by
  intro s t ht
  rw [visits_zoom get put hview hput hself] at ht
  obtain ⟨u, hu, rfl⟩ := List.mem_map.1 ht
  show view' (get (put u s)) = view' (get s)
  rw [hview, hp _ u hu]

end Steady

end Prog

end RiscvOsLab
