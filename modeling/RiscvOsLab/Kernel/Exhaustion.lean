import RiscvOsLab.Kernel.Descriptors
import RiscvOsLab.Kernel.Pages
import Mathlib.Logic.Relation

/-!
# A `fork` that fails

`fork` fails when the process table is full, when there is no page for the trapframe, or when there is none for the kernel
stack. The last exit frees the slot and keeps its trapframe.

* `ForkFailed` : the state after each exit;
* `fork_failing_iff` : when nothing is lost, in every reachable state.
-/

namespace RiscvOsLab.Kernel

open Prog Function

/-- What a failing `fork` has to leave alone. -/
structure Unchanged (s t : Machine) : Prop where
  free : ∀ l, FreeList s.phys l → ∃ m, FreeList t.phys m ∧ m.Perm l
  status : ∀ q, (t.proc q).status = (s.proc q).status
  parent : ∀ q, (t.proc q).parent = (s.proc q).parent
  trapframe : ∀ q, (t.proc q).trapframe = (s.proc q).trapframe
  kstack : ∀ q, (t.proc q).kstack = (s.proc q).kstack
  ofile : ∀ q, (t.proc q).ofile = (s.proc q).ofile

/-- The table is full, or there is no free page and the first free slot has no trapframe from before. -/
def Harmless (s : Machine) : Prop :=
  freeSlot s = none ∨ s.phys.freeMemList = 0 ∧ ∀ c, freeSlot s = some c → (s.proc c).trapframe = 0

/-- There is a free slot, and the trapframe would take the last page. -/
def LastPage (s : Machine) : Prop := freeSlot s ≠ none ∧ ∃ a, FreeList s.phys [a]

/-- The exits of `fork`. -/
inductive ForkFailed (s : Machine) : List Nat → Machine → Prop
  | full {l : List Nat} : freeSlot s = none → ForkFailed s l s
  | noTrapframe {t : Machine} {c : Fin NPROC} : freeSlot s = some c →
      Edited s c (s.nextpid + 1) { s.proc c with pid := s.nextpid, trapframe := 0, status := .free } t →
      t.phys = s.phys → ForkFailed s [] t
  | noStack {t : Machine} {c : Fin NPROC} {a : Nat} : freeSlot s = some c → FreeList t.phys [] → ForkFailed s [a] t

section Fork
variable {s t : Machine} {l : List Nat} {p : Fin NPROC}

theorem wp_fork_failed {E : Halt → Prop} (h : FreeList s.phys l) :
    (fork p).wp (fun r t => r = none → ForkFailed s l t) E s := by
  unfold fork
  refine wp_seq (wp_allocproc_pages h) fun r t ht => ?_
  cases ht with
  | full hc => exact fun _ => .full hc
  | failed hc he hphys => exact fun _ => .noTrapframe hc he hphys
  | done hc he _ hfree =>
      simp only [wp_bind, wp_modify, wp_liftPhys, wp_ite, wp_gets, wp_pure]
      refine wp_post (wp_kalloc hfree) fun k u hu => ?_
      cases hu with
      | none => exact ⟨fun _ _ => .noStack hc hfree, fun hne => absurd rfl hne⟩
      | page _ _ hpage =>
          refine ⟨fun hz => absurd hz (Nat.pos_iff_ne_zero.1 hpage.pos), fun _ => ?_⟩
          simp [copyPage, putWord]

theorem unchanged_refl (s : Machine) : Unchanged s s :=
  ⟨fun l hl => ⟨l, hl, .refl l⟩, fun _ => rfl, fun _ => rfl, fun _ => rfl, fun _ => rfl, fun _ => rfl⟩

theorem Unchanged.trans {u : Machine} (h : Unchanged s t) (h' : Unchanged t u) : Unchanged s u := by
  refine ⟨fun l hl => ?_, fun q => (h'.status q).trans (h.status q), fun q => (h'.parent q).trans (h.parent q),
    fun q => (h'.trapframe q).trans (h.trapframe q), fun q => (h'.kstack q).trans (h.kstack q),
    fun q => (h'.ofile q).trans (h.ofile q)⟩
  obtain ⟨m, hm, hperm⟩ := h.free l hl
  obtain ⟨m', hm', hperm'⟩ := h'.free m hm
  exact ⟨m', hm', hperm'.trans hperm⟩

theorem freeSlot_congr (h : ∀ q, (t.proc q).status = (s.proc q).status) : freeSlot t = freeSlot s := by
  unfold freeSlot
  simp only [h]

namespace ForkFailed

/-- The first two exits undo what was done, but for a pointer to a trapframe that the slot had kept. -/
theorem unchanged (h : ForkFailed s l t) (hl : FreeList s.phys l) (hs : Harmless s) : Unchanged s t := by
  cases h with
  | full => exact unchanged_refl s
  | @noTrapframe t c hc he hphys =>
      have hnull : (s.proc c).trapframe = 0 := by
        rcases hs with hnone | ⟨-, hnull⟩
        · exact absurd (hnone.symm.trans hc) (by simp)
        · exact hnull c hc
      have hfield {α : Type} (f : Proc → α)
          (hf : f { s.proc c with pid := s.nextpid, trapframe := 0, status := .free } = f (s.proc c)) (q : Fin NPROC) :
          f (t.proc q) = f (s.proc q) := by
        by_cases hq : q = c
        · rw [hq, he.self, hf]
        · rw [he.of_ne hq]
      refine ⟨fun m hm => ⟨m, hphys ▸ hm, .refl m⟩, hfield Proc.status ?_, hfield Proc.parent rfl,
        hfield Proc.trapframe hnull.symm, hfield Proc.kstack rfl, hfield Proc.ofile rfl⟩
      exact (freeSlot_free hc).symm
  | @noStack t c a hc _ =>
      rcases hs with hnone | ⟨hnull, -⟩
      · exact absurd (hnone.symm.trans hc) (by simp)
      · exact absurd (hl.nil_iff.2 hnull) (by simp)

/-- The last exit loses a page. -/
theorem harmless (h : ForkFailed s l t) (hl : FreeList s.phys l) (hu : Unchanged s t) : Harmless s := by
  cases h with
  | full hc => exact .inl hc
  | noTrapframe hc he =>
      refine .inr ⟨hl.nil_iff.1 rfl, fun d hd => ?_⟩
      obtain rfl := Option.some.inj (hc.symm.trans hd)
      rw [← hu.trapframe, he.self]
  | noStack hc hfree =>
      obtain ⟨m, hm, hperm⟩ := hu.free _ hl
      obtain rfl := hm.unique hfree
      exact absurd hperm.symm.length_eq (by simp)

theorem keeps_harmless (h : ForkFailed s l t) (hl : FreeList s.phys l) (hs : Harmless s) : Harmless t := by
  have hu := h.unchanged hl hs
  have hslot := freeSlot_congr hu.status
  rcases hs with hnone | ⟨hnull, htf⟩
  · exact .inl (hslot.trans hnone)
  · obtain rfl := hl.nil_iff.2 hnull
    obtain ⟨m, hm, hperm⟩ := hu.free [] hl
    refine .inr ⟨hm.nil_iff.1 hperm.eq_nil, fun c hc => ?_⟩
    rw [hu.trapframe]
    exact htf c (hslot ▸ hc)

end ForkFailed

/-- A `fork` of some process fails. -/
def FailedFork (s t : Machine) : Prop := ∃ p, (fork p).run s = .ok (none, t)

theorem FailedFork.exits (h : FailedFork s t) (hl : FreeList s.phys l) : ForkFailed s l t := by
  obtain ⟨p, hrun⟩ := h
  exact wp_ok (E := fun _ => False) (wp_fork_failed hl) hrun rfl

/-- Any number of failing forks. -/
theorem failedForks_unchanged (h : Relation.ReflTransGen FailedFork s t) (hl : FreeList s.phys l) (hs : Harmless s) :
    Unchanged s t := by
  refine And.left (b := Harmless t ∧ ∃ m, FreeList t.phys m) ?_
  induction h with
  | refl => exact ⟨unchanged_refl s, hs, l, hl⟩
  | tail _ hst ih =>
      obtain ⟨hu, ht, m, hm⟩ := ih
      have hf := hst.exits hm
      have hu' := hf.unchanged hm ht
      obtain ⟨m', hm', -⟩ := hu'.free m hm
      exact ⟨hu.trans hu', hf.keeps_harmless hm ht, m', hm'⟩

end Fork

/-! ## Runs -/

/-- Every page has at most one owner. -/
def Accounted (s : Machine) : Prop := ∃ l, Pages (fun _ => False) s l

/-- A free slot has no trapframe. -/
def Stripped (s : Machine) : Prop := ∀ q, (s.proc q).status = .free → (s.proc q).trapframe = 0

section Runs
variable {s t : Machine} {l : List Nat} {p : Fin NPROC} {mayExit : Machine → Fin NPROC → Prop}

theorem Edited.stripped {c : Fin NPROC} {n : Nat} {v : Proc} (he : Edited s c n v t)
    (hv : v.status ≠ .free ∨ v.trapframe = 0) (hs : Stripped s) : Stripped t := by
  intro q hq
  by_cases hqc : q = c
  · rw [hqc, he.self] at hq ⊢
    rcases hv with hv | hv
    · exact absurd hq hv
    · exact hv
  · rw [he.of_ne hqc] at hq ⊢
    exact hs q hq

/-- The one slot in use after `userinit` owns two pages; the two of the user program are nobody's. -/
theorem wp_userinit_pages (hl : FreeList s.phys l) (hfree : ∀ q, (s.proc q).status = .free) (hs : Stripped s) :
    userinit.wp (fun _ t => Accounted t ∧ Stripped t) (fun _ => True) s := by
  unfold userinit
  refine wp_seq (wp_allocproc_pages hl) fun r t ht => ?_
  cases ht with
  | full => trivial
  | failed => trivial
  | @done _ c a l hc he hpos hl₁ hmem hend =>
      have ha := hl.page a List.mem_cons_self
      have hnodup := List.nodup_cons.1 hl.nodup
      simp only [wp_bind, wp_modify, wp_ite, wp_gets, wp_panic, wp_liftPhys, putWord]
      refine wp_post (wp_kalloc hl₁) fun k u₁ hu₁ => ?_
      cases hu₁ with
      | none => exact ⟨fun _ => trivial, fun hne => absurd rfl hne⟩
      | @page _ _ l₂ hl₂ _ _ hmem₁ hend₁ =>
      refine ⟨fun _ => trivial, fun _ => wp_post (wp_kalloc hl₂) fun x u₂ hu₂ => ?_⟩
      cases hu₂ with
      | none => exact ⟨fun _ => trivial, fun hne => absurd rfl hne⟩
      | @page _ _ l₃ hl₃ _ _ hmem₂ hend₂ =>
      refine ⟨fun _ => trivial, fun _ => wp_post (wp_kalloc hl₃) fun y u₃ hu₃ => ?_⟩
      cases hu₃ with
      | none => exact ⟨fun _ => trivial, fun hne => absurd rfl hne⟩
      | @page _ _ l₄ hl₄ _ _ hmem₃ hend₃ =>
      refine ⟨fun _ => trivial, fun _ => ?_⟩
      have hks := he.modProc fun v => { v with kstack := k }
      have hphys (u : Phys) : Edited s c (s.nextpid + 1) { (s.proc c).allocated s.nextpid a with kstack := k }
          { (t.modProc c fun v => { v with kstack := k }) with phys := u } := ⟨hks.proc, hks.nextpid⟩
      have hlast (u : Phys) :=
        ((hphys u).modProc fun v => { v with parent := none }).modProc fun v => { v with status := .ready }
      have hoff : a ∉ l₄ := fun hin =>
        hnodup.1 (List.mem_cons_of_mem _ (List.mem_cons_of_mem _ (List.mem_cons_of_mem _ hin)))
      simp only [Machine.modProc_self, he.self, Proc.allocated_trapframe]
      have hbare : Pages (fun _ => False) s (a :: k :: x :: y :: l₄) := .of_unused hl (fun _ _ h => h) hfree
      refine ⟨⟨l₄, hbare.grow (hlast _) rfl rfl (hl₄.congr_page ha.aligned hoff (fun b hb => ?_) rfl rfl)
        (fun b hb => List.mem_cons_of_mem _ (List.mem_cons_of_mem _ hb))
        (((hend₃.trans hend₂).trans hend₁).trans hend)⟩, (hlast _).stripped (.inl (by simp)) hs⟩
      have hne (j : Nat) (hj : j < PGSIZE) : b ≠ a + j := by
        rintro rfl
        exact hb ⟨Nat.le_add_right _ _, Nat.add_lt_add_left hj _⟩
      show update (update (zeroPage u₃.mem a) (a + TF_EPC) _) (a + TF_SP) _ b = u₃.mem b
      rw [update_of_ne (hne TF_SP (by decide)), update_of_ne (hne TF_EPC (by decide)), zeroPage_off hb]

/-- Before `userinit`: a free list, and free slots without a trapframe. -/
structure Bare (s : Machine) : Prop where
  free : ∃ l, FreeList s.phys l
  slot : ∀ q, (s.proc q).status = .free ∧ (s.proc q).trapframe = 0

theorem accounted_booted (h : Booted s) : Accounted s ∧ Stripped s := by
  obtain ⟨total, img, endAddress, pages, -, hr⟩ := h
  have hfs {α : Type} (p : Prog Fs.State α) {t : Machine} (ht : Bare t) :
      (liftFiles (Fs.liftFs p)).wp (fun _ => Bare) (fun _ => True) t := by
    rw [wp_liftFiles, Fs.wp_liftFs]
    exact wp_any _ fun _ _ => ⟨ht.free, ht.slot⟩
  refine wp_ok (Q := fun _ s => Accounted s ∧ Stripped s) (E := fun _ => True) ?_ hr
  rw [startMain]
  refine wp_seq (R := fun _ => Bare) ?_ fun _ t ht => ?_
  · rw [wp_liftPhys]
    exact wp_post (wp_kinit_frames rfl) fun _ u hu => ⟨⟨_, hu.1⟩, fun _ => ⟨rfl, rfl⟩⟩
  refine wp_seq (R := fun _ => Bare) ?_ fun _ t ht => ?_
  · refine wp_forN (fun _ => Bare) ht fun i t _ ht => ?_
    obtain ⟨⟨l, hl⟩, hslot⟩ := ht
    simp only [wp_bind, wp_liftPhys, wp_pure]
    refine wp_post (wp_kalloc hl) fun a u hu => ?_
    cases hu with
    | none => exact ⟨⟨_, hl⟩, hslot⟩
    | page hm => exact ⟨⟨_, hm⟩, hslot⟩
  refine wp_seq (R := fun _ => Bare) ⟨ht.free, fun q => ⟨rfl, (ht.slot q).2⟩⟩ fun _ t ht => ?_
  refine wp_seq (hfs _ ht) fun _ t ht => wp_seq (hfs _ ht) fun _ t ht => ?_
  obtain ⟨⟨l, hl⟩, hslot⟩ := ht
  exact wp_userinit_pages hl (fun q => (hslot q).1) fun q _ => (hslot q).2

theorem accounted_step (hst : Step mayExit s t) (h : Accounted s) : Accounted t := by
  obtain ⟨l, h⟩ := h
  obtain ⟨m, hm, -⟩ := pages_step hst h fun _ hf => hf.elim
  exact ⟨m, hm⟩

end Runs

theorem accounted_reach {s : Machine} (h : Reach Booted (Step fun _ _ => True) s) : Accounted s :=
  h.invariant Accounted (fun _ hb => (accounted_booted hb).1) fun _ _ hs hst => accounted_step hst hs

/-- No `fork` that takes the last page for a trapframe. -/
def KeepsLast (s t : Machine) : Prop := FailedFork s t → ¬ LastPage s

section Runs
variable {s t : Machine} {l : List Nat} {mayExit : Machine → Fin NPROC → Prop}

/-- The slots that are free keep their trapframes. -/
theorem stripped_congr (hstatus : ∀ q, (t.proc q).status = .free → (s.proc q).status = .free)
    (htf : ∀ q, (t.proc q).trapframe = (s.proc q).trapframe) (hs : Stripped s) : Stripped t := by
  intro q hq
  rw [htf]
  exact hs q (hstatus q hq)

theorem Waited.stripped {p : Fin NPROC} {r : WaitEnd} (h : Waited s p r t) (hs : Stripped s) : Stripped t := by
  cases h with
  | reaped _ _ he _ _ hnull => exact he.stripped (.inr hnull) hs
  | nokids => exact hs
  | asleep he => exact he.stripped (.inl (by simp)) hs

theorem stripped_step (hst : Step mayExit s t) (hl : FreeList s.phys l) (hg : KeepsLast s t) (hs : Stripped s) :
    Stripped t := by
  cases hst with
  | @dispatch p =>
      exact ((edited_self s p).modProc fun v => { v with status := .running }).stripped (.inl (by simp)) hs
  | @tick p => exact ((edited_self s p).modProc fun v => { v with status := .ready }).stripped (.inl (by simp)) hs
  | file _ _ hrun =>
      have ho := wp_ok (wp_fileCall_owners _ _ _ _) hrun
      exact stripped_congr (fun q hq => (ho.status q).symm.trans hq) ho.trapframe hs
  | @fork _ p r _ _ hrun =>
      cases r with
      | some np =>
          cases wp_ok (wp_fork s p) hrun with
          | done _ he hready => exact he.stripped (.inl (by rw [hready]; simp)) hs
      | none =>
          have hfailed : FailedFork s t := ⟨p, hrun⟩
          cases hfailed.exits hl with
          | full => exact hs
          | noTrapframe _ he => exact he.stripped (.inr rfl) hs
          | noStack hc => exact absurd ⟨by rw [hc]; simp, _, hl⟩ (hg hfailed)
  | @exit _ p _ _ _ _ _ hrun =>
      have hx := wp_ok (E := fun _ => False) (wp_exit _ _ _) hrun
      refine stripped_congr (fun q hq => ?_) hx.trapframe hs
      by_cases hqp : q = p
      · rw [hqp, hx.zombie] at hq
        exact absurd hq (by simp)
      · rcases hx.status q hqp with heq | ⟨-, heq⟩
        · exact heq.symm.trans hq
        · rw [heq] at hq
          exact absurd hq (by simp)
  | wait _ _ hrun => exact (wp_ok (wp_waitPass _ _) hrun).stripped hs
  | @woken _ p _ hp _ hrun =>
      have he := (edited_self s p).modProc fun v => { v with chan := none }
      rw [waitResume, run_bind] at hrun
      exact (wp_ok (wp_waitPass _ _) hrun).stripped (he.stripped (.inl (by simp [hp])) hs)

end Runs

/-- **A failing `fork` changes nothing exactly when it does not fail after the trapframe was taken**, in every reachable
state, nor does any number of them; in the runs that never take the last page for a trapframe, whenever another page is
left or none. -/
theorem fork_failing_iff (s : Machine) :
    (Reach Booted (Step fun _ _ => True) s →
      (∀ t, FailedFork s t → (Unchanged s t ↔ Harmless s)) ∧
      (Harmless s → ∀ t, Relation.ReflTransGen FailedFork s t → Unchanged s t)) ∧
    (Reach Booted (Guarded KeepsLast (Step fun _ _ => True)) s →
      ∀ t, FailedFork s t → (Unchanged s t ↔ ¬ LastPage s)) := by
  refine ⟨fun hs => ⟨fun t hst => ?_, fun hh t hst => ?_⟩, fun hs t hst => ?_⟩
  · obtain ⟨l, hl⟩ := accounted_reach hs
    have hf := hst.exits hl.free
    exact ⟨hf.harmless hl.free, hf.unchanged hl.free⟩
  · obtain ⟨l, hl⟩ := accounted_reach hs
    exact failedForks_unchanged hst hl.free hh
  · obtain ⟨⟨l, hl⟩, hbare⟩ := hs.invariant (fun s => Accounted s ∧ Stripped s) (fun s hb => accounted_booted hb)
      fun s t ⟨⟨l, hl⟩, hbare⟩ hst => ⟨accounted_step hst.2 ⟨l, hl⟩, stripped_step hst.2 hl.free hst.1 hbare⟩
    have hf := hst.exits hl.free
    refine ⟨fun hu hlast => ?_, fun hlast => hf.unchanged hl.free ?_⟩
    · obtain ⟨hslot, a, ha⟩ := hlast
      rcases hf.harmless hl.free hu with hnone | ⟨hnull, -⟩
      · exact hslot hnone
      · exact absurd (ha.nil_iff.2 hnull) (by simp)
    · cases hf with
      | full hc => exact .inl hc
      | noTrapframe => exact .inr ⟨hl.free.nil_iff.1 rfl, fun c hc => hbare c (freeSlot_free hc)⟩
      | noStack hc => exact absurd ⟨by rw [hc]; simp, _, hl.free⟩ hlast

/-- The kernel with `n` frames of memory, after `userinit`. -/
def framesKernel (n : Nat) : Machine :=
  (startMain 0).exec (Machine.image ((Mkfs.main 24).exec Mkfs.boot).blocks (PHYSTOP - n * PGSIZE))

theorem reach_framesKernel {n : Nat} (mayExit : Machine → Fin NPROC → Prop)
    (hrun : ((startMain 0).run (Machine.image ((Mkfs.main 24).exec Mkfs.boot).blocks (PHYSTOP - n * PGSIZE))).toOption.map
      Prod.fst = some ())
    (hidle : ∀ q, ((framesKernel n).proc q).status ≠ .running) (hready : ((framesKernel n).proc init).status = .ready) :
    Reach Booted (Step mayExit) (runs (framesKernel n) init) := by
  obtain ⟨_, hmk⟩ := run_exec (p := Mkfs.main 24) (s := Mkfs.boot) (by decide +kernel)
  exact .next (.start ⟨24, _, _, 0, hmk, run_exec_eq hrun⟩) (.dispatch hidle hready)

/-- With no page left, init's `fork` fails and changes nothing. -/
theorem fork_failing_empty : ∃ t, (fork init).run (runs (framesKernel 4) init) = .ok (none, t) ∧
    Unchanged (runs (framesKernel 4) init) t := by
  have hrun := run_exec_eq (p := fork init) (s := runs (framesKernel 4) init) (a := none) (by decide +kernel)
  have hreach := reach_framesKernel (n := 4) (fun _ _ => True) (by decide +kernel) (by decide +kernel) (by decide +kernel)
  refine ⟨_, hrun, (((fork_failing_iff _).1 hreach).1 _ ⟨init, hrun⟩).2 (.inr ⟨by decide +kernel, fun c hc => ?_⟩)⟩
  have hslot : freeSlot (runs (framesKernel 4) init) = some child := by decide +kernel
  obtain rfl : child = c := Option.some.inj (hslot.symm.trans hc)
  decide +kernel

/-- With one page left, init's `fork` fails and the page is lost. -/
theorem fork_failing_loses : ∃ s t, Reach Booted (Step fun _ _ => True) s ∧ (fork init).run s = .ok (none, t) ∧
    s.phys.freeMemList ≠ 0 ∧ t.phys.freeMemList = 0 ∧ ¬ Unchanged s t := by
  have hrun := run_exec_eq (p := fork init) (s := runs (framesKernel 5) init) (a := none) (by decide +kernel)
  have hreach := reach_framesKernel (n := 5) (fun _ _ => True) (by decide +kernel) (by decide +kernel) (by decide +kernel)
  have hbefore : (runs (framesKernel 5) init).phys.freeMemList ≠ 0 := by decide +kernel
  have hafter : ((fork init).exec (runs (framesKernel 5) init)).phys.freeMemList = 0 := by decide +kernel
  refine ⟨_, _, hreach, hrun, hbefore, hafter, fun hu => ?_⟩
  obtain ⟨l, hl⟩ := accounted_reach hreach
  obtain ⟨m, hm, hperm⟩ := hu.free l hl.free
  rw [hm.nil_iff.2 hafter] at hperm
  exact hbefore (hl.free.nil_iff.1 hperm.symm.eq_nil)

end RiscvOsLab.Kernel
