import RiscvOsLab.Proc.Hart

/-!
# Every switch is made by the right thread

`Sound` says that a `swtch` out of a process is executed by its own kernel thread and one out of the scheduler
by the scheduler's, that a context holds a continuation of its thread, the latest one while the thread is not
running, and that no unset context is loaded. It holds in every run in which the timer does not interrupt the
scheduler between `c->proc = p` and the `swtch` to `p` (`sound_reach`), and fails in a run with such an
interrupt (`sound_fails`).

* `pendingStatus` : the status a thread has given itself on its way to a `swtch`, looked for under the frames of
  the trap handler;
* `Nested` : a function that can switch is never called on top of such a way;
* `Inv` : the two cases, scheduler and process, with one lemma for the local statements of each.
-/

namespace RiscvOsLab.Proc

open Function
open RiscvOsLab.Kernel (NPROC TaskStatus)

/-- The thread that is to execute a `swtch`. -/
def Frame.owner : Frame → Option Thread
  | .schedSwtch _ => some .sched
  | .yieldSwtch p => some (.proc p)
  | .sleepSwtch p => some (.proc p)
  | .exitSwtch p => some (.proc p)
  | _ => none

/-- The thread of a context. -/
def Ctx.thread : Ctx → Thread
  | .cpu => .sched
  | .proc p => .proc p

structure Sound (s : Hart) : Prop where
  own : ∀ f k t, s.stack s.cur = f :: k → f.owner = some t → s.cur = t
  ctx : ∀ c t k, s.ctx c = some (t, k) → t = c.thread
  latest : ∀ c, s.cur ≠ c.thread → s.ctx c = none ∨ s.ctx c = some (c.thread, s.stack c.thread)
  sched : s.cur ≠ .sched → s.ctx .cpu ≠ none
  live : ∀ p, s.cur ≠ .proc p → s.status p ≠ .free → s.ctx (.proc p) ≠ none
  running : s.crashed = false

/-- The timer leaves the scheduler alone while `myproc()` is already running. -/
def Quiet (s : Hart) : Prop := s.cur = .sched → ¬ s.Running

/-! ## The shape of the stacks -/

/-- A frame of `sys_trap_handler`. -/
def Frame.isTrap : Frame → Bool
  | .trapTest => true
  | .trapEnd => true
  | _ => false

/-- The frames a process can have on its stack. -/
def Frame.Of (p : Fin NPROC) : Frame → Prop
  | .schedStart | .schedOn | .schedTest _ | .schedRun _ | .schedProc _ | .schedSwtch _ | .schedClear _ => False
  | .yieldReady q | .yieldSwtch q | .sleepChan q _ | .sleepStatus q | .sleepSwtch q | .sleepEnd q => q = p
  | .exitReparent q | .exitWakeup q | .exitZombie q | .exitSwtch q => q = p
  | _ => True

/-- The status the thread has given itself on its way to a `swtch`. -/
def pendingStatus : List Frame → Option TaskStatus
  | .trapTest :: k => pendingStatus k
  | .trapEnd :: k => pendingStatus k
  | .yieldSwtch _ :: _ => some .ready
  | .sleepSwtch _ :: _ => some .sleeping
  | .exitSwtch _ :: _ => some .zombie
  | _ => none

/-- Only the trap handler runs on top of a thread on its way to a `swtch`. -/
def Nested : List Frame → Prop
  | [] => True
  | f :: k => (f.isTrap = true ∨ pendingStatus k = none) ∧ Nested k

structure StackOf (p : Fin NPROC) (k : List Frame) : Prop where
  of : ∀ f ∈ k, f.Of p
  nested : Nested k

/-- Where the scheduler can be, and what it knows there. -/
def SchedAt (s : Hart) : Frame → Prop
  | .schedStart | .schedOn | .schedTest _ => s.cpuProc = none
  | .schedRun p => s.cpuProc = none ∧ s.status p = .ready
  | .schedProc p => s.cpuProc = none ∧ s.status p = .running
  | .schedSwtch p => s.cpuProc = some p ∧ s.status p = .running
  | .schedClear p => s.cpuProc = some p ∧ s.status p ≠ .running
  | _ => False

/-- The scheduler's stack while it runs: its place, perhaps under traps that will not yield. -/
structure SchedStack (s : Hart) (f : Frame) (traps k : List Frame) : Prop where
  place : SchedAt s f
  stack : k = traps ++ [f]
  isTrap : ∀ g ∈ traps, g.isTrap = true
  quiet : traps ≠ [] → ¬ s.Running

structure Inv (s : Hart) : Prop where
  running : s.crashed = false
  sched : s.cur = .sched → ∃ f traps, SchedStack s f traps (s.stack .sched)
  proc : ∀ p, s.cur = .proc p → s.cpuProc = some p ∧ s.stack .sched = [.schedClear p] ∧
    s.ctx .cpu = some (.sched, [.schedClear p]) ∧ s.status p = (pendingStatus (s.stack (.proc p))).getD .running
  stack : ∀ p, StackOf p (s.stack (.proc p))
  cpuCtx : ∀ t k, s.ctx .cpu = some (t, k) → t = .sched
  procCtx : ∀ p t k, s.ctx (.proc p) = some (t, k) → t = .proc p ∧ (s.cur ≠ .proc p → k = s.stack (.proc p))
  parked : ∀ p, s.cur ≠ .proc p → s.status p ≠ .free →
    s.ctx (.proc p) ≠ none ∧ pendingStatus (s.stack (.proc p)) = none

theorem SchedAt.stack {s : Hart} {f : Frame} (h : SchedAt s f) : ∃ g traps, SchedStack s g traps [f] :=
  ⟨f, [], h, rfl, by simp, fun hne => absurd rfl hne⟩

theorem SchedAt.congr {s t : Hart} {f : Frame} (h : SchedAt s f) (hcpu : t.cpuProc = s.cpuProc)
    (hst : t.status = s.status) : SchedAt t f := by
  cases f <;> simp_all [SchedAt]

/-- A trap that will not yield is put on top. -/
theorem SchedStack.push {s t : Hart} {f g : Frame} {traps k : List Frame} (h : SchedStack s f traps k)
    (hr : ¬ s.Running) (hg : g.isTrap = true) (hcpu : t.cpuProc = s.cpuProc) (hst : t.status = s.status) :
    ∃ g' traps', SchedStack t g' traps' (g :: k) := by
  refine ⟨f, g :: traps, h.place.congr hcpu hst, by rw [h.stack, List.cons_append], fun x hx => ?_, fun _ => ?_⟩
  · rcases List.mem_cons.1 hx with rfl | hx
    · exact hg
    · exact h.isTrap x hx
  · unfold Hart.Running at hr ⊢
    rwa [hcpu, hst]

theorem SchedAt.isTrap {s : Hart} {f : Frame} (h : SchedAt s f) : f.isTrap = false := by
  cases f <;> simp_all [SchedAt, Frame.isTrap]

theorem SchedAt.owner {s : Hart} {f : Frame} {t : Thread} (h : SchedAt s f) (ho : f.owner = some t) :
    t = .sched := by
  cases f <;> simp_all [SchedAt, Frame.owner]

theorem Frame.Of.owner {p : Fin NPROC} {f : Frame} {t : Thread} (h : f.Of p) (ho : f.owner = some t) :
    t = .proc p := by
  cases f <;> simp_all [Frame.Of, Frame.owner]

namespace Inv

variable {s : Hart} {p : Fin NPROC}

theorem own (h : Inv s) {f : Frame} {k : List Frame} {t : Thread} (hk : s.stack s.cur = f :: k)
    (ho : f.owner = some t) : s.cur = t := by
  cases hcur : s.cur with
  | sched =>
      rw [hcur] at hk
      obtain ⟨g, traps, hs⟩ := h.sched hcur
      have hstack := hk.symm.trans hs.stack
      cases traps with
      | nil =>
          obtain ⟨rfl, -⟩ := List.cons.inj hstack
          exact (hs.place.owner ho).symm
      | cons x traps =>
          obtain ⟨rfl, -⟩ := List.cons.inj hstack
          have htrap := hs.isTrap f List.mem_cons_self
          cases f <;> simp_all [Frame.owner, Frame.isTrap]
  | proc p =>
      rw [hcur] at hk
      exact (((h.stack p).of f (by simp [hk])).owner ho).symm

theorem sound (h : Inv s) : Sound s := by
  refine ⟨fun f k t => h.own, fun c t k hc => ?_, fun c hne => ?_, fun hne => ?_,
    fun p hne hst => (h.parked p hne hst).1, h.running⟩
  · cases c with
    | cpu => exact h.cpuCtx t k hc
    | proc p => exact (h.procCtx p t k hc).1
  · cases c with
    | cpu =>
        cases hcur : s.cur with
        | sched => exact absurd hcur hne
        | proc p =>
            obtain ⟨-, hst, hctx, -⟩ := h.proc p hcur
            exact .inr (hctx.trans (by rw [Ctx.thread, hst]))
    | proc p =>
        cases hctx : s.ctx (.proc p) with
        | none => exact .inl rfl
        | some r =>
            obtain ⟨t, k⟩ := r
            obtain ⟨rfl, hk⟩ := h.procCtx p t k hctx
            exact .inr (by rw [hk hne, Ctx.thread])
  · cases hcur : s.cur with
    | sched => exact absurd hcur hne
    | proc p =>
        rw [(h.proc p hcur).2.2.1]
        simp

/-! ## Steps without a switch -/

/-- The process that runs goes on: it may change its own status, and of other processes none that is not free
for one that is. -/
theorem procLocal (h : Inv s) (hp : s.cur = .proc p) {t : Hart} {k : List Frame}
    (hstack : t.stack = update s.stack (.proc p) k) (hk : StackOf p k)
    (hst : t.status p = (pendingStatus k).getD .running)
    (hfree : ∀ q, q ≠ p → t.status q ≠ .free → s.status q ≠ .free) (hcur : t.cur = s.cur)
    (hcpu : t.cpuProc = s.cpuProc) (hctx : t.ctx = s.ctx) (hcr : t.crashed = s.crashed) : Inv t := by
  have hother : ∀ q, q ≠ p → t.stack (.proc q) = s.stack (.proc q) := fun q hq => by
    rw [hstack, update_of_ne (by simpa using hq)]
  have hself : t.stack (.proc p) = k := by rw [hstack, update_self]
  obtain ⟨hproc, hsched, hcpuCtx, -⟩ := h.proc p hp
  refine ⟨hcr.trans h.running, fun hc => ?_, fun q hq => ?_, fun q => ?_, fun t' k' he => ?_,
    fun q t' k' he => ?_, fun q hq hs => ?_⟩
  · rw [hcur, hp] at hc
    exact Thread.noConfusion hc
  · obtain rfl : p = q := by simpa [hcur, hp] using hq
    rw [hcpu, hctx, hself, hst]
    refine ⟨hproc, ?_, hcpuCtx, rfl⟩
    rw [hstack, update_of_ne (by simp), hsched]
  · by_cases hq : q = p
    · subst hq
      rwa [hself]
    · rw [hother q hq]
      exact h.stack q
  · rw [hctx] at he
    exact h.cpuCtx t' k' he
  · rw [hctx] at he
    obtain ⟨ht, hk'⟩ := h.procCtx q t' k' he
    refine ⟨ht, fun hne => ?_⟩
    have hqp : q ≠ p := fun e => hne (by rw [hcur, hp, e])
    rw [hother q hqp]
    exact hk' (by simpa [hp] using hqp.symm)
  · have hqp : q ≠ p := fun e => hq (by rw [hcur, hp, e])
    rw [hctx, hother q hqp]
    exact h.parked q (by simpa [hp] using hqp.symm) (hfree q hqp hs)

/-- The scheduler goes on. -/
theorem schedLocal (h : Inv s) (hs : s.cur = .sched) {t : Hart} {k : List Frame}
    (hstack : t.stack = update s.stack .sched k) (hk : ∃ f traps, SchedStack t f traps k)
    (hfree : ∀ q, t.status q ≠ .free → s.status q ≠ .free) (hcur : t.cur = s.cur)
    (hctx : t.ctx = s.ctx) (hcr : t.crashed = s.crashed) : Inv t := by
  have hother : ∀ q, t.stack (.proc q) = s.stack (.proc q) := fun q => by
    rw [hstack, update_of_ne (by simp)]
  refine ⟨hcr.trans h.running, fun _ => ?_, fun q hq => ?_, fun q => ?_, fun t' k' he => ?_,
    fun q t' k' he => ?_, fun q hq hst => ?_⟩
  · rwa [hstack, update_self]
  · rw [hcur, hs] at hq
    exact Thread.noConfusion hq
  · rw [hother]
    exact h.stack q
  · exact h.cpuCtx t' k' (hctx ▸ he)
  · rw [hctx] at he
    rw [hcur, hother]
    exact h.procCtx q t' k' he
  · rw [hctx, hother]
    exact h.parked q (hcur ▸ hq) (hfree q hst)

/-! ## Switches -/

/-- A process gives the hart back to the scheduler. -/
theorem toSched (h : Inv s) (hp : s.cur = .proc p) {k : List Frame} (hk : StackOf p k)
    (hpend : pendingStatus k = none) (hst : s.status p ≠ .running) :
    Inv (s.swtch (.proc p) .cpu k) := by
  obtain ⟨hproc, hsched, hcpuCtx, -⟩ := h.proc p hp
  have heq : s.swtch (.proc p) .cpu k = { s with
      ctx := update s.ctx (.proc p) (some (.proc p, k))
      cur := .sched
      stack := update (update s.stack (.proc p) k) .sched [.schedClear p] } := by
    simp [Hart.swtch, Hart.goto, hp, hcpuCtx]
  rw [heq]
  refine ⟨h.running, fun _ => ?_, fun q hq => Thread.noConfusion hq, fun q => ?_, fun t' k' he => ?_,
    fun q t' k' he => ?_, fun q _ hs => ?_⟩
  · simp only [update_self]
    exact SchedAt.stack (f := .schedClear p) ⟨hproc, hst⟩
  · by_cases hq : q = p
    · subst hq
      simpa using hk
    · simpa [hq] using h.stack q
  · exact h.cpuCtx t' k' (by simpa using he)
  · by_cases hq : q = p
    · subst hq
      obtain ⟨rfl, rfl⟩ : Thread.proc q = t' ∧ k = k' := by simpa using he
      exact ⟨rfl, fun _ => by simp⟩
    · obtain ⟨ht, hk'⟩ := h.procCtx q t' k' (by simpa [hq] using he)
      exact ⟨ht, fun _ => by simpa [hq] using hk' (by simpa [hp] using fun e => hq e.symm)⟩
  · by_cases hq : q = p
    · subst hq
      simpa using hpend
    · simpa [hq] using h.parked q (by simpa [hp] using fun e => hq e.symm) hs

/-- The scheduler gives the hart to a process. -/
theorem toProc (h : Inv s) (hs : s.cur = .sched) (hproc : s.cpuProc = some p) (hst : s.status p = .running) :
    Inv (s.swtch .cpu (.proc p) [.schedClear p]) := by
  obtain ⟨hctx, hpend⟩ := h.parked p (by simp [hs]) (by simp [hst])
  cases hc : s.ctx (.proc p) with
  | none => exact absurd hc hctx
  | some r =>
      obtain ⟨t, k⟩ := r
      obtain ⟨rfl, hk⟩ := h.procCtx p t k hc
      have hk := hk (by simp [hs])
      subst hk
      have heq : s.swtch .cpu (.proc p) [.schedClear p] = { s with
          ctx := update s.ctx .cpu (some (.sched, [.schedClear p]))
          cur := .proc p
          stack := update (update s.stack .sched [.schedClear p]) (.proc p) (s.stack (.proc p)) } := by
        simp [Hart.swtch, Hart.goto, hs, hc]
      have hstack : ∀ q, (update (update s.stack .sched [.schedClear p]) (.proc p) (s.stack (.proc p)))
          (.proc q) = s.stack (.proc q) := fun q => by
        by_cases hq : q = p
        · subst hq
          simp
        · simp [hq]
      rw [heq]
      refine ⟨h.running, fun hc => Thread.noConfusion hc, fun q hq => ?_, fun q => ?_, fun t' k' he => ?_,
        fun q t' k' he => ?_, fun q _ hst' => ?_⟩
      · obtain rfl : p = q := by simpa using hq
        simp [hproc, hpend, hst]
      · simp only [hstack]
        exact h.stack q
      · exact (by simpa using he : Thread.sched = t' ∧ _).1.symm
      · obtain ⟨ht, hk'⟩ := h.procCtx q t' k' (by simpa using he)
        refine ⟨ht, fun _ => ?_⟩
        simp only [hstack]
        exact hk' (by simp [hs])
      · simp only [hstack]
        simpa using h.parked q (by simp [hs]) hst'

/-- A process makes another. -/
theorem forked (h : Inv s) (hp : s.cur = .proc p) {q : Fin NPROC} (hq : q ≠ p)
    (parent chan : Fin NPROC → Option (Fin NPROC)) :
    Inv { s with
      status := update s.status q .ready
      parent := parent
      chan := chan
      ctx := update s.ctx (.proc q) (some (.proc q, [.forkret]))
      stack := update s.stack (.proc q) [.forkret] } := by
  refine ⟨h.running, fun hc => ?_, fun r hr => ?_, fun r => ?_, fun t' k' he => ?_, fun r t' k' he => ?_,
    fun r hr hst => ?_⟩
  · exact absurd (hc.symm.trans hp) (by simp)
  · obtain rfl : p = r := by simpa [hp] using hr
    obtain ⟨hproc, hsched, hcpuCtx, hst⟩ := h.proc p hp
    simpa [hq.symm] using ⟨hproc, hsched, hcpuCtx, hst⟩
  · by_cases hrq : r = q
    · subst hrq
      refine ⟨?_, ?_⟩ <;> simp [Frame.Of, Nested, pendingStatus]
    · simpa [hrq] using h.stack r
  · exact h.cpuCtx t' k' (by simpa using he)
  · by_cases hrq : r = q
    · subst hrq
      obtain ⟨rfl, rfl⟩ : Thread.proc r = t' ∧ [Frame.forkret] = k' := by simpa using he
      exact ⟨rfl, fun _ => by simp⟩
    · simpa [hrq] using h.procCtx r t' k' (by simpa [hrq] using he)
  · by_cases hrq : r = q
    · subst hrq
      simp [pendingStatus]
    · simpa [hrq] using h.parked r hr (by simpa [hrq] using hst)

/-! ## The statements -/

/-- The scheduler's place, when it is not under a trap. -/
theorem schedTop (h : Inv s) (hs : s.cur = .sched) {f : Frame} {k : List Frame} (hk : s.stack s.cur = f :: k)
    (hf : f.isTrap = false) : SchedAt s f ∧ k = [] := by
  rw [hs] at hk
  obtain ⟨g, traps, hg⟩ := h.sched hs
  have hstack := hk.symm.trans hg.stack
  cases traps with
  | nil =>
      obtain ⟨rfl, rfl⟩ := List.cons.inj hstack
      exact ⟨hg.place, rfl⟩
  | cons x traps =>
      obtain ⟨rfl, -⟩ := List.cons.inj hstack
      exact absurd (hg.isTrap f List.mem_cons_self) (by simp [hf])

/-- Under a trap on the scheduler's stack nothing will yield. -/
theorem schedTrap (h : Inv s) (hs : s.cur = .sched) {f : Frame} {k : List Frame} (hk : s.stack s.cur = f :: k)
    (hf : f.isTrap = true) : ¬ s.Running ∧ ∃ g traps, SchedStack s g traps k := by
  rw [hs] at hk
  obtain ⟨g, traps, hg⟩ := h.sched hs
  have hstack := hk.symm.trans hg.stack
  cases traps with
  | nil =>
      obtain ⟨rfl, -⟩ := List.cons.inj hstack
      exact absurd hf (by simp [hg.place.isTrap])
  | cons x traps =>
      obtain ⟨rfl, rfl⟩ := List.cons.inj hstack
      have hrun := hg.quiet (by simp)
      exact ⟨hrun, g, traps, hg.place, rfl, fun y hy => hg.isTrap y (List.mem_cons_of_mem _ hy), fun _ => hrun⟩

theorem stmtSched (h : Inv s) (hs : s.cur = .sched) {t : Hart} (hst : Stmt s (s.stack s.cur) t) : Inv t := by
  have hstack (u : Hart) (hu : u.stack = s.stack) (hc : u.cur = s.cur) (k : List Frame) :
      (u.goto k).stack = update s.stack .sched k := by simp [Hart.goto, hu, hc, hs]
  generalize hk : s.stack s.cur = k at hst
  cases hst with
  | schedStart =>
      obtain ⟨-, rfl⟩ := h.schedTop hs hk rfl
      exact h.schedLocal hs (hstack _ rfl rfl _) (SchedAt.stack (f := .schedOn) rfl) (fun _ hq => hq) rfl rfl rfl
  | schedOn =>
      obtain ⟨hat, rfl⟩ := h.schedTop hs hk rfl
      exact h.schedLocal hs (hstack _ rfl rfl _) (SchedAt.stack (f := .schedTest 0) hat) (fun _ hq => hq) rfl rfl rfl
  | @schedFound _ p hready =>
      obtain ⟨hat, rfl⟩ := h.schedTop hs hk rfl
      exact h.schedLocal hs (hstack _ rfl rfl _) (SchedAt.stack (f := .schedRun p) ⟨hat, hready⟩) (fun _ hq => hq)
        rfl rfl rfl
  | @schedSkip _ p _ =>
      obtain ⟨hat, rfl⟩ := h.schedTop hs hk rfl
      exact h.schedLocal hs (hstack _ rfl rfl _) (SchedAt.stack (f := .schedTest (p + 1)) hat) (fun _ hq => hq)
        rfl rfl rfl
  | schedEnd _ =>
      obtain ⟨hat, rfl⟩ := h.schedTop hs hk rfl
      exact h.schedLocal hs (hstack _ rfl rfl _) (SchedAt.stack (f := .schedOn) hat) (fun _ hq => hq) rfl rfl rfl
  | @schedRun _ p =>
      obtain ⟨⟨hnone, hready⟩, rfl⟩ := h.schedTop hs hk rfl
      refine h.schedLocal hs (hstack _ rfl rfl _) (SchedAt.stack (f := .schedProc p) ⟨hnone, update_self _ _ _⟩)
        (fun q hq => ?_) rfl rfl rfl
      by_cases hqp : q = p
      · subst hqp
        simp [hready]
      · simpa [Hart.goto, Hart.setStatus, hqp] using hq
  | @schedProc _ p =>
      obtain ⟨⟨-, hrun⟩, rfl⟩ := h.schedTop hs hk rfl
      exact h.schedLocal hs (hstack _ rfl rfl _) (SchedAt.stack (f := .schedSwtch p) ⟨rfl, hrun⟩) (fun _ hq => hq)
        rfl rfl rfl
  | schedSwtch =>
      obtain ⟨⟨hproc, hrun⟩, rfl⟩ := h.schedTop hs hk rfl
      exact h.toProc hs hproc hrun
  | @schedClear _ p =>
      obtain ⟨-, rfl⟩ := h.schedTop hs hk rfl
      exact h.schedLocal hs (hstack _ rfl rfl _) (SchedAt.stack (f := .schedTest (p + 1)) rfl) (fun _ hq => hq)
        rfl rfl rfl
  | trapYield hrun => exact absurd hrun (h.schedTrap hs hk rfl).1
  | trapPass _ =>
      obtain ⟨hrun, g, traps, hg⟩ := h.schedTrap hs hk rfl
      exact h.schedLocal hs (hstack _ rfl rfl _) (hg.push hrun rfl rfl rfl) (fun _ hq => hq) rfl rfl rfl
  | trapEnd =>
      obtain ⟨-, g, traps, hg⟩ := h.schedTrap hs hk rfl
      exact h.schedLocal hs (hstack _ rfl rfl _) ⟨g, traps, hg.place.congr rfl rfl, hg.stack, hg.isTrap, hg.quiet⟩
        (fun _ hq => hq) rfl rfl rfl
  | _ => exact ((h.schedTop hs hk rfl).1 : False).elim

end Inv

/-- The innermost frame is exchanged for another that is no way to a `swtch`. -/
theorem StackOf.exchange {p : Fin NPROC} {f g : Frame} {k : List Frame} (h : StackOf p (f :: k))
    (hf : f.isTrap = false) (hg : g.Of p) : StackOf p (g :: k) := by
  refine ⟨fun x hx => ?_, .inr ?_, h.nested.2⟩
  · rcases List.mem_cons.1 hx with rfl | hx
    · exact hg
    · exact h.of x (List.mem_cons_of_mem _ hx)
  · rcases h.nested.1 with ht | hp
    · exact absurd ht (by simp [hf])
    · exact hp

theorem StackOf.tail {p : Fin NPROC} {f : Frame} {k : List Frame} (h : StackOf p (f :: k)) : StackOf p k :=
  ⟨fun x hx => h.of x (List.mem_cons_of_mem _ hx), h.nested.2⟩

/-- A frame is put on top, over a stack on no way to a `swtch`. -/
theorem StackOf.push {p : Fin NPROC} {g : Frame} {k : List Frame} (h : StackOf p k)
    (hk : pendingStatus k = none) (hg : g.Of p) : StackOf p (g :: k) := by
  refine ⟨fun x hx => ?_, .inr hk, h.nested⟩
  rcases List.mem_cons.1 hx with rfl | hx
  · exact hg
  · exact h.of x hx

/-- A frame of the trap handler is put on top of anything. -/
theorem StackOf.trap {p : Fin NPROC} {g : Frame} {k : List Frame} (h : StackOf p k) (hg : g.Of p)
    (ht : g.isTrap = true) : StackOf p (g :: k) := by
  refine ⟨fun x hx => ?_, .inl ht, h.nested⟩
  rcases List.mem_cons.1 hx with rfl | hx
  · exact hg
  · exact h.of x hx

/-- What a frame that is not of the trap handler has below it. -/
theorem StackOf.pending {p : Fin NPROC} {f : Frame} {k : List Frame} (h : StackOf p (f :: k))
    (hf : f.isTrap = false) : pendingStatus k = none := by
  rcases h.nested.1 with ht | hp
  · exact absurd ht (by simp [hf])
  · exact hp

/-- One frame that is not of the trap handler. -/
theorem StackOf.single {p : Fin NPROC} {g : Frame} (hg : g.Of p) : StackOf p [g] :=
  ⟨by simpa using hg, .inr rfl, trivial⟩

/-- A thread on its way to a `swtch` is not running any more. -/
theorem pendingStatus_ne : ∀ k : List Frame, pendingStatus k ≠ some .running
  | [] => by simp [pendingStatus]
  | f :: k => by
      cases f <;> simp [pendingStatus, pendingStatus_ne k]

namespace Inv

variable {s : Hart} {p : Fin NPROC}

theorem stmtProc (h : Inv s) (hp : s.cur = .proc p) {t : Hart} (hst : Stmt s (s.stack s.cur) t) : Inv t := by
  have hstack (u : Hart) (hu : u.stack = s.stack) (hc : u.cur = s.cur) (k : List Frame) :
      (u.goto k).stack = update s.stack (.proc p) k := by simp [Hart.goto, hu, hc, hp]
  obtain ⟨hproc, -, -, hstatus⟩ := h.proc p hp
  have hof := h.stack p
  have hrunning : s.Running ↔ s.status p = .running := by simp [Hart.Running, hproc]
  rw [hp] at hst
  generalize hk : s.stack (.proc p) = k at hst hof hstatus
  cases hst with
  | @yieldStart k q hq =>
      obtain rfl : p = q := by simpa [hproc] using hq
      exact h.procLocal hp (hstack _ rfl rfl _) (hof.exchange rfl rfl) hstatus (fun _ _ hq => hq) rfl rfl rfl rfl
  | @yieldReady k q =>
      obtain rfl : q = p := hof.of _ List.mem_cons_self
      exact h.procLocal hp (hstack _ rfl rfl _) (hof.exchange rfl rfl) (update_self _ _ _)
        (fun r hr hs => by simpa [Hart.goto, Hart.setStatus, hr] using hs) rfl rfl rfl rfl
  | @yieldSwtch k q =>
      obtain rfl : q = p := hof.of _ List.mem_cons_self
      exact h.toSched hp (hof.exchange rfl trivial) rfl (by simp [hstatus, pendingStatus])
  | yieldEnd =>
      exact h.procLocal hp (hstack _ rfl rfl _) hof.tail (by rw [hof.pending rfl]; exact hstatus)
        (fun _ _ hq => hq) rfl rfl rfl rfl
  | @sleepStart k q c hq =>
      obtain rfl : p = q := by simpa [hproc] using hq
      exact h.procLocal hp (hstack _ rfl rfl _) (hof.exchange rfl rfl) hstatus (fun _ _ hq => hq) rfl rfl rfl rfl
  | @sleepChan k q c =>
      obtain rfl : q = p := hof.of _ List.mem_cons_self
      exact h.procLocal hp (hstack _ rfl rfl _) (hof.exchange rfl rfl) hstatus (fun _ _ hq => hq) rfl rfl rfl rfl
  | @sleepStatus k q =>
      obtain rfl : q = p := hof.of _ List.mem_cons_self
      exact h.procLocal hp (hstack _ rfl rfl _) (hof.exchange rfl rfl) (update_self _ _ _)
        (fun r hr hs => by simpa [Hart.goto, Hart.setStatus, hr] using hs) rfl rfl rfl rfl
  | @sleepSwtch k q =>
      obtain rfl : q = p := hof.of _ List.mem_cons_self
      exact h.toSched hp (hof.exchange rfl rfl) rfl (by simp [hstatus, pendingStatus])
  | @sleepEnd k q =>
      exact h.procLocal hp (hstack _ rfl rfl _) hof.tail (by rw [hof.pending rfl]; exact hstatus)
        (fun _ _ hq => hq) rfl rfl rfl rfl
  | @exitStart k q hq =>
      obtain rfl : p = q := by simpa [hproc] using hq
      exact h.procLocal hp (hstack _ rfl rfl _) (hof.exchange rfl rfl) hstatus (fun _ _ hq => hq) rfl rfl rfl rfl
  | @exitReparent k q =>
      obtain rfl : q = p := hof.of _ List.mem_cons_self
      exact h.procLocal hp (hstack _ rfl rfl _) (hof.exchange rfl rfl) hstatus (fun _ _ hq => hq) rfl rfl rfl rfl
  | @exitWakeup k q =>
      obtain rfl : q = p := hof.of _ List.mem_cons_self
      refine h.procLocal hp (hstack _ rfl rfl _) (hof.exchange rfl rfl) ?_ (fun r _ hr => ?_) rfl rfl rfl rfl
      · simpa [Hart.goto, hproc, pendingStatus] using hstatus
      · -- a process that is woken was asleep
        intro hfree
        simp [Hart.goto, hfree] at hr
  | @exitZombie k q =>
      obtain rfl : q = p := hof.of _ List.mem_cons_self
      exact h.procLocal hp (hstack _ rfl rfl _) (hof.exchange rfl rfl) (update_self _ _ _)
        (fun r hr hs => by simpa [Hart.goto, Hart.setStatus, hr] using hs) rfl rfl rfl rfl
  | @exitSwtch k q =>
      obtain rfl : q = p := hof.of _ List.mem_cons_self
      exact h.toSched hp (hof.exchange rfl trivial) rfl (by simp [hstatus, pendingStatus])
  | forkret =>
      exact h.procLocal hp (hstack _ rfl rfl _) (hof.exchange rfl trivial) hstatus (fun _ _ hq => hq) rfl rfl rfl rfl
  | retOff =>
      exact h.procLocal hp (hstack _ rfl rfl _) (hof.exchange rfl trivial) hstatus (fun _ _ hq => hq) rfl rfl rfl rfl
  | retSret =>
      exact h.procLocal hp (hstack _ rfl rfl _) (.single trivial) hstatus (fun _ _ hq => hq) rfl rfl rfl rfl
  | userTimer =>
      exact h.procLocal hp (hstack _ rfl rfl _) (.single trivial) hstatus (fun _ _ hq => hq) rfl rfl rfl rfl
  | userEcall =>
      exact h.procLocal hp (hstack _ rfl rfl _) (.single trivial) hstatus (fun _ _ hq => hq) rfl rfl rfl rfl
  | @utrapYield k hrun =>
      exact h.procLocal hp (hstack _ rfl rfl _) ((hof.exchange (g := .retOff) rfl trivial).push rfl trivial) hstatus
        (fun _ _ hq => hq) rfl rfl rfl rfl
  | utrapPass _ =>
      exact h.procLocal hp (hstack _ rfl rfl _) (hof.exchange rfl trivial) hstatus (fun _ _ hq => hq) rfl rfl rfl rfl
  | ecallOn =>
      exact h.procLocal hp (hstack _ rfl rfl _) (hof.exchange rfl trivial) hstatus (fun _ _ hq => hq) rfl rfl rfl rfl
  | callSleep =>
      exact h.procLocal hp (hstack _ rfl rfl _) (hof.push rfl trivial) hstatus (fun _ _ hq => hq) rfl rfl rfl rfl
  | callExit =>
      exact h.procLocal hp (hstack _ rfl rfl _) (hof.push rfl trivial) hstatus (fun _ _ hq => hq) rfl rfl rfl rfl
  | @callFork k q hfree =>
      refine h.forked hp ?_ _ _
      rintro rfl
      exact absurd (hfree.symm.trans hstatus) (by simp [pendingStatus])
  | @callReap k q hzombie =>
      have hqp : q ≠ p := by
        rintro rfl
        exact absurd (hzombie.symm.trans hstatus) (by simp [pendingStatus])
      have hself : update s.stack (.proc p) (.syscall :: k) = s.stack := by rw [← hk, update_eq_self]
      refine h.procLocal hp (k := .syscall :: k) hself.symm hof ?_ (fun r hr hs => ?_) rfl rfl rfl rfl
      · simpa [hqp.symm] using hstatus
      · by_cases hrq : r = q
        · subst hrq
          simp at hs
        · simpa [hrq] using hs
  | callReturn =>
      exact h.procLocal hp (hstack _ rfl rfl _) (hof.exchange rfl trivial) hstatus (fun _ _ hq => hq) rfl rfl rfl rfl
  | @trapYield k hrun =>
      have hnone : pendingStatus k = none := by
        have hst := hstatus.symm.trans (hrunning.1 hrun)
        cases hpend : pendingStatus k with
        | none => rfl
        | some st =>
            rw [pendingStatus, hpend] at hst
            exact absurd (hst ▸ hpend) (pendingStatus_ne k)
      exact h.procLocal hp (hstack _ rfl rfl _) ((hof.tail.trap (g := .trapEnd) trivial rfl).push hnone trivial)
        (hrunning.1 hrun) (fun _ _ hq => hq) rfl rfl rfl rfl
  | trapPass _ =>
      exact h.procLocal hp (hstack _ rfl rfl _) (hof.tail.trap (g := .trapEnd) trivial rfl) hstatus
        (fun _ _ hq => hq) rfl rfl rfl rfl
  | trapEnd =>
      exact h.procLocal hp (hstack _ rfl rfl _) hof.tail hstatus (fun _ _ hq => hq) rfl rfl rfl rfl
  | _ => exact (hof.of _ List.mem_cons_self : False).elim

end Inv

/-! ## Runs -/

theorem inv_boot : Inv Hart.boot := by
  have hcpu : Hart.boot.ctx .cpu = none := rfl
  refine ⟨rfl, fun _ => SchedAt.stack (f := .schedStart) rfl, fun p hp => Thread.noConfusion hp, fun p => ?_,
    fun t k he => absurd (hcpu.symm.trans he) (by simp), fun p t k he => ?_, fun p _ hst => ?_⟩
  all_goals by_cases hp : p = 0
  · subst hp
    exact StackOf.single trivial
  · have hnil : Hart.boot.stack (.proc p) = [] := by simp [Hart.boot, hp]
    rw [hnil]
    exact ⟨by simp, trivial⟩
  · subst hp
    have hctx : Hart.boot.ctx (.proc 0) = some (.proc 0, [.forkret]) := rfl
    obtain ⟨rfl, rfl⟩ : Thread.proc 0 = t ∧ [Frame.forkret] = k := by simpa [hctx] using he
    exact ⟨rfl, fun _ => rfl⟩
  · exact absurd he (by simp [Hart.boot, hp])
  · subst hp
    exact ⟨by simp [Hart.boot], rfl⟩
  · exact absurd hst (by simp [Hart.boot, hp])

/-- The timer comes before a statement. -/
theorem Inv.trap {s : Hart} (h : Inv s) (hquiet : Quiet s) {f : Frame} {k : List Frame}
    (hk : s.stack s.cur = f :: k) : Inv ({ s with sie := false }.goto (.trapTest :: f :: k)) := by
  cases hcur : s.cur with
  | sched =>
      rw [hcur] at hk
      obtain ⟨g, traps, hg⟩ := h.sched hcur
      refine h.schedLocal hcur (k := .trapTest :: f :: k) (by simp [Hart.goto]) ?_ (fun _ hq => hq)
        (by simp [Hart.goto, hcur]) rfl rfl
      exact (hk ▸ hg).push (hquiet hcur) rfl rfl rfl
  | proc p =>
      rw [hcur] at hk
      refine h.procLocal hcur (k := .trapTest :: f :: k) (by simp [Hart.goto]) ?_ ?_ (fun _ _ hq => hq)
        (by simp [Hart.goto, hcur]) rfl rfl rfl
      · exact (hk ▸ h.stack p).trap trivial rfl
      · exact hk ▸ (h.proc p hcur).2.2.2

theorem inv_step {s t : Hart} (h : Inv s) (hs : Step Quiet s t) : Inv t := by
  cases hs with
  | stmt _ hst =>
      cases hcur : s.cur with
      | sched => exact h.stmtSched hcur hst
      | proc p => exact h.stmtProc hcur hst
  | trap _ hquiet _ hk _ => exact h.trap hquiet hk

/-- **Every switch is made by the right thread**, as long as the timer leaves the scheduler alone between
`c->proc = p` and the `swtch` to `p`. -/
theorem sound_reach {s : Hart} (h : Reach (fun s => s = Hart.boot) (Step Quiet) s) : Sound s :=
  (h.invariant Inv (by rintro s rfl; exact inv_boot) fun _ _ => inv_step).sound

/-! ## The window of the scheduler -/

/-- The innermost frame, given as the stack it is on. -/
theorem Step.at {ok : Hart → Prop} {s t : Hart} {k : List Frame} (hc : s.crashed = false)
    (hk : s.stack s.cur = k) (h : Stmt s k t) : Step ok s t := by
  subst hk
  exact .stmt hc h

/-- The scheduler has chosen the first process and set `c->proc`. -/
def chosen : Hart :=
  let s := { { Hart.boot with cpuProc := none }.goto [.schedOn] with sie := true }.goto [.schedTest 0]
  { ((s.goto [.schedRun 0]).setStatus 0 .running).goto [.schedProc 0] with cpuProc := some 0 }.goto [.schedSwtch 0]

theorem chosen_reach (ok : Hart → Prop) : Reach (fun s => s = Hart.boot) (Step ok) chosen := by
  have start : Reach (fun s => s = Hart.boot) (Step ok) Hart.boot := .start rfl
  have hon := start.next (.at rfl rfl .schedStart)
  have test := hon.next (.at rfl rfl .schedOn)
  have run := test.next (.at rfl rfl (.schedFound (p := 0) rfl))
  have proc := run.next (.at rfl rfl .schedRun)
  exact proc.next (.at rfl rfl .schedProc)

/-- The first process runs, on its own thread. -/
theorem sound_chosen_swtch : Sound (chosen.swtch .cpu (.proc 0) [.schedClear 0]) :=
  sound_reach ((chosen_reach Quiet).next (.at rfl rfl .schedSwtch))

/-- The timer comes before the `swtch`: the handler finds a running process and yields. -/
def yielding : Hart :=
  let s := { chosen with sie := false }.goto [.trapTest, .schedSwtch 0]
  let s := (s.goto [.yieldStart, .trapEnd, .schedSwtch 0]).goto [.yieldReady 0, .trapEnd, .schedSwtch 0]
  (s.setStatus 0 .ready).goto [.yieldSwtch 0, .trapEnd, .schedSwtch 0]

theorem yielding_reach : Reach (fun s => s = Hart.boot) (Step fun _ => True) yielding := by
  have trap := (chosen_reach fun _ => True).next (.trap rfl trivial rfl (f := .schedSwtch 0) (k := []) rfl (by simp))
  have test := trap.next (.at rfl rfl (.trapYield ⟨0, rfl, rfl⟩))
  have start := test.next (.at rfl rfl (.yieldStart (p := 0) rfl))
  exact start.next (.at rfl rfl .yieldReady)

/-- With the timer free to come at any statement, the scheduler's thread executes `swtch(&p->context, ..)`: its
frame is stored in the process's context, and the unset `cpu->context` is loaded. -/
theorem sound_fails : ∃ s t, Reach (fun s => s = Hart.boot) (Step fun _ => True) s ∧ ¬ Sound s ∧
    s.cur = .sched ∧ s.stack .sched = [.yieldSwtch 0, .trapEnd, .schedSwtch 0] ∧ Step (fun _ => True) s t ∧
    t.ctx (.proc 0) = some (.sched, [.yieldEnd, .trapEnd, .schedSwtch 0]) ∧ t.crashed = true := by
  refine ⟨yielding, _, yielding_reach, fun h => ?_, rfl, rfl, .at rfl rfl .yieldSwtch, rfl, rfl⟩
  have hcur : Thread.sched = .proc 0 := h.own (.yieldSwtch 0) _ _ rfl rfl
  exact Thread.noConfusion hcur

end RiscvOsLab.Proc
