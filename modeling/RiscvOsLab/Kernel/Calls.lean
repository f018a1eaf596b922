import RiscvOsLab.Kernel.Proc

/-!
# What the calls on processes do

`allocproc`, `fork`, `exit` and a pass of `wait`, each as a relation between the process tables before and after.

* `Edited` : one slot is assigned;
* `Alloced`, `Forked`, `Exited`, `Waited` : the results, with `wp_allocproc`, `wp_fork`, `wp_exit`, `wp_waitPass`.
-/

namespace RiscvOsLab.Kernel

open Prog Function

/-- Slot `c` has become `v`, and the next pid is `n`. -/
structure Edited (s : Machine) (c : Fin NPROC) (n : Nat) (v : Proc) (t : Machine) : Prop where
  proc : t.proc = update s.proc c v
  nextpid : t.nextpid = n

namespace Edited

variable {s t : Machine} {c : Fin NPROC} {n : Nat} {v : Proc}

theorem self (h : Edited s c n v t) : t.proc c = v := by
  rw [h.proc, update_self]

theorem of_ne (h : Edited s c n v t) {q : Fin NPROC} (hq : q ≠ c) : t.proc q = s.proc q := by
  rw [h.proc, update_of_ne hq]

theorem modProc (h : Edited s c n v t) (f : Proc → Proc) : Edited s c n (f v) (t.modProc c f) := by
  refine ⟨?_, h.nextpid⟩
  show update t.proc c (f (t.proc c)) = _
  rw [h.self, h.proc, update_idem]

theorem wp_phys {α : Type} (h : Edited s c n v t) (p : Prog Phys α) {Q : α → Machine → Prop}
    (hQ : ∀ r u, Edited s c n v u → Q r u) : (liftPhys p).wp Q (fun _ => True) t := by
  rw [wp_liftPhys]
  exact wp_any _ fun r u => hQ r _ ⟨h.proc, h.nextpid⟩

end Edited

theorem edited_self (s : Machine) (c : Fin NPROC) : Edited s c s.nextpid (s.proc c) s :=
  ⟨(update_eq_self c s.proc).symm, rfl⟩

/-- The result of `allocproc`. -/
inductive Alloced (s : Machine) : Option (Fin NPROC) → Machine → Prop
  | full {t : Machine} : freeSlot s = none → t.proc = s.proc → t.nextpid = s.nextpid → Alloced s none t
  | failed {t : Machine} {c : Fin NPROC} {v : Proc} : freeSlot s = some c → Edited s c (s.nextpid + 1) v t →
      v.status = .free → v.parent = (s.proc c).parent → Alloced s none t
  | done {t : Machine} {c : Fin NPROC} {v : Proc} : freeSlot s = some c → Edited s c (s.nextpid + 1) v t →
      v.pid = s.nextpid → v.parent = none → v.chan = none → Alloced s (some c) t

theorem freeSlot_free {s : Machine} {c : Fin NPROC} (h : freeSlot s = some c) : (s.proc c).status = .free := by
  simpa using List.find?_some h

theorem wp_allocproc (s : Machine) : allocproc.wp (Alloced s) (fun _ => True) s := by
  unfold allocproc
  rw [wp_bind, wp_get]
  cases hc : freeSlot s with
  | none => exact .full hc rfl rfl
  | some c =>
      have hfree := freeSlot_free hc
      have hstart : Edited s c (s.nextpid + 1) (s.proc c) { s with nextpid := s.nextpid + 1 } :=
        ⟨(update_eq_self c s.proc).symm, rfl⟩
      simp only [allocpid, wp_bind, wp_gets, wp_modify, wp_pure]
      refine (hstart.modProc _).wp_phys _ fun trapframe t ht => ?_
      have ht' := ht.modProc fun v => { v with trapframe }
      rw [wp_ite]
      refine ⟨fun _ => ?_, fun _ => ?_⟩
      · exact .failed hc (ht'.modProc fun v => { v with status := .free }) rfl rfl
      · exact .done hc (ht'.modProc fun v => { v with status := .allocated, parent := none, chan := none, xstate := 0 })
          rfl rfl rfl

/-- The result of `fork`. -/
inductive Forked (s : Machine) (p : Fin NPROC) : Option (Fin NPROC) → Machine → Prop
  | full {t : Machine} : freeSlot s = none → t.proc = s.proc → t.nextpid = s.nextpid → Forked s p none t
  | failed {t : Machine} {c : Fin NPROC} {v : Proc} : freeSlot s = some c → Edited s c (s.nextpid + 1) v t →
      v.status = .free → v.parent = none ∨ v.parent = (s.proc c).parent → Forked s p none t
  | done {t : Machine} {c : Fin NPROC} {v : Proc} : freeSlot s = some c → Edited s c (s.nextpid + 1) v t →
      v.status = .ready → v.pid = s.nextpid → v.parent = some p → v.chan = none → Forked s p (some c) t

theorem wp_fork (s : Machine) (p : Fin NPROC) : (fork p).wp (Forked s p) (fun _ => True) s := by
  unfold fork
  refine wp_seq (wp_allocproc s) fun r t ht => ?_
  cases ht with
  | full hc hproc hnext => exact .full hc hproc hnext
  | failed hc ht hfree hparent => exact .failed hc ht hfree (.inr hparent)
  | @done _ c v hc ht hpid hparent hchan =>
      simp only [wp_bind, wp_modify]
      refine ht.wp_phys _ fun kstack u hu => ?_
      have hu' := hu.modProc fun v => { v with kstack }
      rw [wp_ite]
      refine ⟨fun _ => ?_, fun _ => ?_⟩
      · exact .failed hc (hu'.modProc fun v => { v with status := .free }) rfl (.inl hparent)
      · simp only [wp_bind, wp_modify, wp_gets, wp_pure]
        refine hu'.wp_phys _ fun _ w hw => hw.wp_phys _ fun _ x hx => ?_
        exact .done hc ((hx.modProc fun v => { v with parent := some p }).modProc fun v => { v with status := .ready })
          rfl hpid rfl hchan

/-- The table after `exit`. -/
structure Exited (s : Machine) (p : Fin NPROC) (status : Int32) (t : Machine) : Prop where
  nextpid : t.nextpid = s.nextpid
  pid : ∀ q, (t.proc q).pid = (s.proc q).pid
  zombie : (t.proc p).status = .zombie
  xstate : (t.proc p).xstate = status
  parent : ∀ q, (t.proc q).parent = if (s.proc q).parent = some p then some ⟨0, by decide⟩ else (s.proc q).parent
  status : ∀ q, q ≠ p → (t.proc q).status = (s.proc q).status ∨
    (s.proc q).status = .sleeping ∧ (t.proc q).status = .ready
  other : ∀ q, q ≠ p → (t.proc q).xstate = (s.proc q).xstate
  phys : t.phys = s.phys
  trapframe : ∀ q, (t.proc q).trapframe = (s.proc q).trapframe
  kstack : ∀ q, (t.proc q).kstack = (s.proc q).kstack
  chan : ∀ q, (t.proc q).chan = (s.proc q).chan

/-- `wakeup` changes nothing but the status of sleepers. -/
theorem Machine.wake_proc (s : Machine) (p : Fin NPROC) (chan : Option (Fin NPROC)) (q : Fin NPROC) :
    (s.wake p chan).proc q = s.proc q ∨
      q ≠ p ∧ (s.proc q).status = .sleeping ∧ (s.wake p chan).proc q = { s.proc q with status := .ready } := by
  unfold wake
  simp only
  split
  · rename_i h
    exact .inr ⟨h.1, h.2.1, rfl⟩
  · exact .inl rfl

theorem Machine.reparent_proc (s : Machine) (p q : Fin NPROC) : (s.reparent p).proc q =
    { s.proc q with parent := if (s.proc q).parent = some p then some ⟨0, by decide⟩ else (s.proc q).parent } := by
  unfold reparent
  simp only
  split
  · rfl
  · rfl

theorem wp_exit {E : Halt → Prop} (s : Machine) (p : Fin NPROC) (status : Int32) :
    (exit p status).wp (fun _ t => Exited s p status t) E s := by
  simp only [exit, wakeup, wp_bind, wp_modify, wp_gets]
  -- the exit status of one slot is all that differs from the table before
  generalize hs₁ : (s.modProc p fun v => { v with xstate := status }) = s₁
  have hself : s₁.proc p = { s.proc p with xstate := status } := by
    rw [← hs₁, Machine.modProc_self]
  have hother (q : Fin NPROC) (hq : q ≠ p) : s₁.proc q = s.proc q := by
    rw [← hs₁, Machine.modProc_of_ne hq]
  have hnext : s₁.nextpid = s.nextpid := by
    rw [← hs₁]
    rfl
  have hfield {α : Type} (f : Proc → α) (hf : ∀ v x, f { v with xstate := x } = f v) (q : Fin NPROC) :
      f (s₁.proc q) = f (s.proc q) := by
    by_cases hq : q = p
    · rw [hq, hself, hf]
    · rw [hother q hq]
  generalize hs₂ : s₁.reparent p = s₂
  have hrep (q : Fin NPROC) : s₂.proc q = { s₁.proc q with
      parent := if (s₁.proc q).parent = some p then some ⟨0, by decide⟩ else (s₁.proc q).parent } := by
    rw [← hs₂, Machine.reparent_proc]
  generalize hchan : (s₂.proc p).parent = chan
  generalize hs₃ : s₂.wake p chan = s₃
  have hwake (q : Fin NPROC) : s₃.proc q = s₂.proc q ∨
      q ≠ p ∧ (s₂.proc q).status = .sleeping ∧ s₃.proc q = { s₂.proc q with status := .ready } := by
    rw [← hs₃]
    exact s₂.wake_proc p chan q
  have hkeep {α : Type} (f : Proc → α) (hf : ∀ v st, f { v with status := st } = f v) (q : Fin NPROC) :
      f ((s₃.modProc p fun v => { v with status := .zombie }).proc q) = f (s₂.proc q) := by
    have hwoken : f (s₃.proc q) = f (s₂.proc q) := by
      rcases hwake q with he | ⟨-, -, he⟩
      · rw [he]
      · rw [he, hf]
    by_cases hq : q = p
    · rw [← hwoken, hq, Machine.modProc_self, hf]
    · rw [Machine.modProc_of_ne hq, hwoken]
  refine ⟨?_, fun q => ?_, ?_, ?_, fun q => ?_, fun q hq => ?_, fun q hq => ?_, ?_, fun q => ?_, fun q => ?_, fun q => ?_⟩
  · show s₃.nextpid = s.nextpid
    rw [← hs₃, ← hs₂]
    exact hnext
  · rw [hkeep Proc.pid fun _ _ => rfl, hrep]
    exact hfield Proc.pid (fun _ _ => rfl) q
  · rw [Machine.modProc_self]
  · rw [hkeep Proc.xstate fun _ _ => rfl, hrep, hself]
  · rw [hkeep Proc.parent fun _ _ => rfl, hrep]
    simp only
    rw [hfield Proc.parent (fun _ _ => rfl) q]
  · rw [Machine.modProc_of_ne hq]
    have hst : (s₂.proc q).status = (s.proc q).status := by
      rw [hrep]
      exact hfield Proc.status (fun _ _ => rfl) q
    rcases hwake q with he | ⟨-, hsl, he⟩
    · exact .inl (by rw [he, hst])
    · exact .inr ⟨hst ▸ hsl, by rw [he]⟩
  · rw [hkeep Proc.xstate fun _ _ => rfl, hrep, hother q hq]
  · show s₃.phys = s.phys
    rw [← hs₃, ← hs₂, ← hs₁]
    rfl
  · rw [hkeep Proc.trapframe fun _ _ => rfl, hrep]
    exact hfield Proc.trapframe (fun _ _ => rfl) q
  · rw [hkeep Proc.kstack fun _ _ => rfl, hrep]
    exact hfield Proc.kstack (fun _ _ => rfl) q
  · rw [hkeep Proc.chan fun _ _ => rfl, hrep]
    exact hfield Proc.chan (fun _ _ => rfl) q

/-- The result of a pass of `wait`. -/
inductive Waited (s : Machine) (p : Fin NPROC) : WaitEnd → Machine → Prop
  | reaped {t : Machine} {c : Fin NPROC} {v : Proc} : (s.proc c).parent = some p → (s.proc c).status = .zombie →
      Edited s c s.nextpid v t → v.status = .free → v.parent = none → v.trapframe = 0 →
      Waited s p (.reaped (s.proc c).pid (s.proc c).xstate) t
  | nokids : (∀ c, (s.proc c).parent ≠ some p) → Waited s p .nokids s
  | asleep {t : Machine} : Edited s p s.nextpid { s.proc p with chan := some p, status := .sleeping } t →
      Waited s p .asleep t

theorem wp_waitPass (s : Machine) (p : Fin NPROC) : (waitPass p).wp (Waited s p) (fun _ => True) s := by
  have hfree {c : Fin NPROC} {v : Proc} {t : Machine} (ht : Edited s c s.nextpid v t) (pa : Nat)
      {Q : Unit → Machine → Prop} (hQ : ∀ u, Edited s c s.nextpid v u → Q () u) :
      (kfreePtr pa).wp Q (fun _ => True) t := by
    unfold kfreePtr
    rw [wp_ite]
    exact ⟨fun _ => ht.wp_phys _ fun _ u hu => hQ u hu, fun _ => hQ t ht⟩
  unfold waitPass
  simp only [wp_bind, wp_get]
  split
  · rename_i c hc
    have hfound : (s.proc c).parent = some p ∧ (s.proc c).status = .zombie := by simpa using List.find?_some hc
    simp only [wp_bind, wp_gets, wp_modify, wp_pure]
    refine hfree ((edited_self s c).modProc fun v => { v with status := .free, pid := 0, parent := none }) _ fun t ht => ?_
    refine hfree (ht.modProc fun v => { v with trapframe := 0 }) _ fun u hu => ?_
    exact .reaped hfound.1 hfound.2 (hu.modProc fun v => { v with kstack := 0 }) rfl rfl rfl
  · rw [wp_ite]
    refine ⟨fun _ => ?_, fun hno => .nokids fun c hc => hno ?_⟩
    · simp only [wp_bind, wp_modify, wp_pure]
      exact .asleep (((edited_self s p).modProc fun v => { v with chan := some p }).modProc fun v => { v with status := .sleeping })
    · rw [List.any_eq_true]
      exact ⟨c, List.mem_finRange c, by simp [hc]⟩

end RiscvOsLab.Kernel
