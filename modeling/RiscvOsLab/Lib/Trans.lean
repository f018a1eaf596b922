/-!
# Runs of a transition system

`Reach init step s`: `s` is reached from an initial state by steps. An invariant that holds at the start
and is kept by every step holds in every reachable state (`Reach.invariant`); `Guarded guard step` are the
steps that meet a condition, so that `Reach init (Guarded guard step)` are the states of the runs all of
whose steps meet it. `Trace step s es t` : the events `es` of the steps that lead from `s` to `t`; a function that
takes steps to steps takes traces to traces (`Trace.simulate`), also when it takes some steps to none
(`Trace.refine`).
-/

namespace RiscvOsLab

variable {σ : Type}

inductive Reach (init : σ → Prop) (step : σ → σ → Prop) : σ → Prop
  | start {s : σ} : init s → Reach init step s
  | next {s t : σ} : Reach init step s → step s t → Reach init step t

/-- The steps that meet a condition on the state before and the state after. -/
def Guarded (guard step : σ → σ → Prop) (s t : σ) : Prop := guard s t ∧ step s t

namespace Reach

variable {init : σ → Prop} {step step' : σ → σ → Prop}

theorem invariant (I : σ → Prop) (h0 : ∀ s, init s → I s) (hs : ∀ s t, I s → step s t → I t) {s : σ}
    (h : Reach init step s) : I s := by
  induction h with
  | start hi => exact h0 _ hi
  | next _ hst ih => exact hs _ _ ih hst

/-- An invariant whose preservation may use that the state is reachable. -/
theorem invariant_of_reach (I : σ → Prop) (h0 : ∀ s, init s → I s)
    (hs : ∀ s t, Reach init step s → I s → step s t → I t) {s : σ} (h : Reach init step s) : I s := by
  induction h with
  | start hi => exact h0 _ hi
  | next hr hst ih => exact hs _ _ hr ih hst

theorem mono (hm : ∀ s t, step s t → step' s t) {s : σ} (h : Reach init step s) : Reach init step' s := by
  induction h with
  | start hi => exact .start hi
  | next _ hst ih => exact ih.next (hm _ _ hst)

/-- A guarded run is a run. -/
theorem of_guarded {guard : σ → σ → Prop} {s : σ} (h : Reach init (Guarded guard step) s) :
    Reach init step s :=
  h.mono fun _ _ hst => hst.2

end Reach

section Trace
variable {τ ε : Type}

inductive Trace (step : σ → ε → σ → Prop) : σ → List ε → σ → Prop
  | nil {s : σ} : Trace step s [] s
  | cons {s t u : σ} {e : ε} {es : List ε} : step s e t → Trace step t es u → Trace step s (e :: es) u

theorem Trace.append {step : σ → ε → σ → Prop} {s t u : σ} {es es' : List ε} (h : Trace step s es t)
    (h' : Trace step t es' u) : Trace step s (es ++ es') u := by
  induction h with
  | nil => exact h'
  | cons hst _ ih => exact .cons hst (ih h')

/-- Forward simulation, with an invariant. -/
theorem Trace.simulate {step : σ → ε → σ → Prop} {step' : τ → ε → τ → Prop} (f : σ → τ) (I : σ → Prop)
    (hstep : ∀ s e t, I s → step s e t → I t ∧ step' (f s) e (f t)) {s t : σ} {es : List ε}
    (h : Trace step s es t) (hs : I s) : I t ∧ Trace step' (f s) es (f t) := by
  induction h with
  | nil => exact ⟨hs, .nil⟩
  | cons hst _ ih =>
      obtain ⟨ht, hst'⟩ := hstep _ _ _ hs hst
      obtain ⟨hu, htr⟩ := ih ht
      exact ⟨hu, .cons hst' htr⟩

/-- An invariant that knows the events of the past, the newest first. -/
theorem Trace.history {step : σ → ε → σ → Prop} (I : List ε → σ → Prop)
    (hstep : ∀ past s e t, I past s → step s e t → I (e :: past) t) {s t : σ} {es past : List ε}
    (h : Trace step s es t) (hs : I past s) : I (es.reverse ++ past) t := by
  induction h generalizing past with
  | nil => exact hs
  | @cons _ _ _ e es hst _ ih =>
      have ht := ih (hstep _ _ _ _ hs hst)
      rw [List.reverse_cons, List.append_assoc]
      exact ht

/-- Refinement with stutters: a step is one of the abstract system, with the event that is seen of it, or none. -/
theorem Trace.refine {ε' : Type} {step : σ → ε → σ → Prop} {step' : τ → ε' → τ → Prop} (f : σ → τ) (seen : ε → Option ε')
    (I : σ → Prop)
    (hstep : ∀ s e t, I s → step s e t → I t ∧ (seen e).elim (f t = f s) fun e' => step' (f s) e' (f t))
    {s t : σ} {es : List ε} (h : Trace step s es t) (hs : I s) :
    I t ∧ Trace step' (f s) (es.filterMap seen) (f t) := by
  induction h with
  | nil => exact ⟨hs, .nil⟩
  | @cons _ _ _ e _ hst _ ih =>
      obtain ⟨ht, hst'⟩ := hstep _ _ _ hs hst
      obtain ⟨hu, htr⟩ := ih ht
      refine ⟨hu, ?_⟩
      rw [List.filterMap_cons]
      cases he : seen e with
      | some e' =>
          rw [he] at hst'
          exact .cons hst' htr
      | none =>
          rw [he] at hst'
          exact hst' ▸ htr

end Trace

end RiscvOsLab
