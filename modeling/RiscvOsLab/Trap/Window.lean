import RiscvOsLab.Trap.RoundTrip

/-!
# The two writes at the end of `sys_trap_handler`

`w_sepc(sepc); w_sstatus(sstatus);` is run with interrupts on when the handler has yielded: it comes back with the
`sstatus` of the scheduler. An interrupt between the two leaves `sepc` at the second write, and the `sret` of the first
trap goes there.

* `transparent_reach` : without such an interrupt every trap and every switch is transparent, in every run;
* `transparent_fails` : a run with one, in which the registers are brought back and the pc is not.
-/

namespace RiscvOsLab.Trap

open Function Riscv
open RiscvOsLab.Kernel (NPROC TaskStatus)
open RiscvOsLab.Proc (Thread Ctx)

theorem inv_reach {L : Layout} {s : Sys} (h : Reach Booted (Steps L Calm) s) : Inv L s := by
  apply h.invariant (Inv L)
  · intro s hs
    exact hs.inv
  · rintro s t hi ⟨-, e, hok, hst⟩
    exact (hi.step hst hok).1

/-! ## A first process -/

/-- Contexts from `0x80200000` on. -/
def sampleCtx : Ctx → Word
  | .cpu => 0x80100000
  | .proc p => BitVec.ofNat 64 (0x80200000 + 512 * p)

def sampleTf : Word := 0x80300000

def sampleStack : Word := 0x80400000

theorem area_iff {a : Nat} (ha : a < 2 ^ 32) {n : Nat} (hn : n < 2 ^ 32) (x : Word) :
    Area (BitVec.ofNat 64 a) n x ↔ a ≤ x.toNat ∧ x.toNat < a + n := by
  have hx := x.isLt
  unfold Area
  simp only [BitVec.toNat_sub, BitVec.toNat_ofNat]
  omega

theorem area_sampleCtx {c : Ctx} {x : Word} (h : Area (sampleCtx c) contextSize x) : x.toNat < 0x80300000 := by
  cases c with
  | cpu =>
      have := (area_iff (a := 0x80100000) (by decide) (n := 112) (by decide) x).1 h
      omega
  | proc p =>
      have hp : p.val < 64 := p.isLt
      have := (area_iff (a := 0x80200000 + 512 * p) (by omega) (n := 112) (by decide) x).1 h
      omega

def sampleLayout : Layout where
  ctx := sampleCtx
  forkret := 0x80001000
  usertrap := 0x80002000
  satp := 0x8000000000080300
  apart := by
    have hcpu : ∀ {x}, Area (sampleCtx .cpu) contextSize x → x.toNat < 0x80100070 := fun {x} h => by
      have := (area_iff (a := 0x80100000) (by decide) (n := 112) (by decide) x).1 h
      omega
    have hproc : ∀ {p : Fin NPROC} {x}, Area (sampleCtx (.proc p)) contextSize x →
        0x80200000 + 512 * p.val ≤ x.toNat ∧ x.toNat < 0x80200000 + 512 * p.val + 112 := fun {p x} h => by
      have hp : p.val < 64 := p.isLt
      exact (area_iff (a := 0x80200000 + 512 * p) (by omega) (n := 112) (by decide) x).1 h
    intro c c' x h h'
    cases c with
    | cpu =>
        cases c' with
        | cpu => rfl
        | proc q =>
            have := hcpu h
            have := hproc h'
            omega
    | proc p =>
        cases c' with
        | cpu =>
            have := hcpu h'
            have := hproc h
            omega
        | proc q =>
            have := hproc h
            have := hproc h'
            have hpq : p = q := by
              apply Fin.ext
              omega
            rw [hpq]

def sample : Sys where
  core := {
    reg := fun _ => 0, csr := fun _ => 0, mem := fun _ => 0, pc := 0, sstatus := ⟨true, true, false⟩
    stvec := .sysTrapVector, user := false }
  cur := .sched
  cpuProc := none
  status := fun _ => .free
  tf := fun _ => 0
  kstack := fun _ => 0
  place := fun _ => .ret
  stack := fun _ => []
  saved := fun _ => none
  image := fun _ => firstImage 0 0
  lost := false

theorem sample_booted : Booted sample :=
  ⟨⟨rfl, rfl, rfl⟩, rfl, rfl, fun _ => rfl, fun _ => rfl, fun _ => rfl, rfl⟩

theorem area_sampleTf {x : Word} (h : Area sampleTf trapframeSize x) : 0x80300000 ≤ x.toNat ∧ x.toNat < 0x80300120 :=
  (area_iff (a := 0x80300000) (by decide) (n := 288) (by decide) x).1 h

/-- The page of the trapframe is free. -/
theorem sampleTf_free (x : Word) (hx : Area sampleTf 4096 x) : ¬ Protected sampleLayout sample x := by
  rintro ⟨o, ho⟩
  have hin := (area_iff (a := 0x80300000) (by decide) (n := 4096) (by decide) x).1 hx
  cases o with
  | ctx c =>
      have := area_sampleCtx ho
      omega
  | tf p => exact ho.1 rfl
  | frame t i =>
      obtain ⟨b, hb, -⟩ := ho
      cases hb

/-- The first process, whose code page begins at `0x80500000` and whose stack page at `0x80600000`. -/
def sampleInit : Sys := sample.userinit sampleLayout sampleTf sampleStack 0x80500000 0x80600000

/-! ## Its run -/

section Run
variable {L : Layout} {s t : Sys}

theorem calm_next {e : Event} (h : Reach Booted (Steps L Calm) s) (hst : Step L s e t) (hok : Calm s e) :
    Reach Booted (Steps L Calm) t :=
  h.next ⟨(inv_reach h).found, e, hok, hst⟩

/-- The scheduler has gone over to process 0. -/
structure Entered (s t : Sys) : Prop where
  cur : t.cur = .proc 0
  user : t.core.user = false
  stack : t.stack = s.stack
  place : t.place = s.place
  tf : t.tf = s.tf
  sstatus : t.core.sstatus = s.core.sstatus
  cpuProc : t.cpuProc = some 0
  status : t.status = update s.status 0 .running

theorem enter (h : Reach Booted (Steps L Calm) s) (hs : Scheduling s) (hnone : s.cpuProc = none)
    (hready : s.status 0 = .ready) : ∃ t, Reach Booted (Steps L Calm) t ∧ Entered s t := by
  let u : Sys := { (s.setStatus 0 .running) with cpuProc := some 0 }
  have hu : Reach Booted (Steps L Calm) u := calm_next h (.choose hs hnone hready) trivial
  have hscheduling : Scheduling u := ⟨hs.cur, hs.user, hs.stack⟩
  have hrunning : u.status 0 = .running := by
    change update s.status 0 TaskStatus.running 0 = _
    rw [update_self]
  obtain ⟨-, ⟨hcur, huser, hstack⟩, -⟩ := (inv_reach hu).dispatch hscheduling rfl hrunning
  have hkeeps := swtch_keeps (L := L) (s := u) .cpu (.proc 0)
  refine ⟨u.swtch L .cpu (.proc 0), calm_next hu (.dispatch hscheduling rfl hrunning) trivial, ?_⟩
  exact ⟨hcur, huser, hstack, hkeeps.place, hkeeps.tf, hkeeps.sstatus, hkeeps.cpuProc, hkeeps.status⟩

/-- Process 0 is the only one and runs in the kernel, with these calls of `sys_trap_handler` on top. -/
structure Alone (s : Sys) (k : List Act) : Prop where
  cur : s.cur = .proc 0
  user : s.core.user = false
  cpuProc : s.cpuProc = some 0
  status : s.status = update (fun _ => .free) 0 .running
  tf : s.tf 0 = sampleTf
  stack : s.stack = update (fun _ => []) (.proc 0) k

theorem Alone.top {k : List Act} (h : Alone s k) : s.stack s.cur = k := by
  rw [h.cur, h.stack, update_self]

theorem Alone.at {pl : Place} (h : Alone s []) (hpl : s.place 0 = pl) : At s 0 pl :=
  ⟨h.cur, h.user, h.cur ▸ h.top, hpl⟩

/-- Frames in the kernel stack of process 0 that lie below those in use. -/
theorem Alone.free {k : List Act} (h : Alone s k) {b : Nat} (hlow : 0x80400000 ≤ b) (hb : b < 0x80402000)
    (hk : ∀ a ∈ k, ∀ x, Area a.base sysFrameSize x → b + 256 ≤ x.toNat) :
    ∀ x, Area (BitVec.ofNat 64 b) sysFrameSize x → ¬ Protected sampleLayout s x := by
  rintro x hx ⟨o, ho⟩
  have hin := (area_iff (a := b) (by omega) (n := 256) (by decide) x).1 hx
  cases o with
  | ctx c =>
      have := area_sampleCtx ho
      omega
  | tf p =>
      obtain ⟨hp, harea⟩ := ho
      obtain rfl : p = 0 := by
        by_contra hne
        exact hp (by rw [h.status, update_of_ne hne])
      rw [h.tf] at harea
      have := area_sampleTf harea
      omega
  | frame t i =>
      obtain ⟨base, hbase, harea⟩ := ho
      rw [h.stack] at hbase
      rcases eq_or_ne t (.proc 0) with rfl | ht
      · rw [update_self] at hbase
        obtain ⟨a, ha, rfl⟩ := List.mem_map.1 (List.mem_reverse.1 (List.mem_of_getElem? hbase))
        have := hk a ha x harea
        omega
      · rw [update_of_ne ht] at hbase
        simp at hbase

theorem at_userTrapped {p : Fin NPROC} (hcur : s.cur = .proc p) (hstack : s.stack (.proc p) = []) :
    At (s.userTrapped p .ecall) p .ecall where
  cur := hcur
  user := rfl
  stack := hstack
  place := setPlace_place p .ecall

/-- The first process runs in user mode. -/
theorem user_reached : ∃ s, Reach Booted (Steps sampleLayout Calm) s ∧ s.cur = .proc 0 ∧
    s.core.user = true ∧ s.core.stvec = .userTrapEntry ∧ s.cpuProc = some 0 ∧
    s.status = update (fun _ => .free) 0 .running ∧ s.tf 0 = sampleTf ∧ s.stack = fun _ => [] := by
  have hinit : Step sampleLayout sample .userinit sampleInit :=
    .userinit sample_booted.scheduling (fun _ => rfl) sampleTf_free
  have hs₀ : Reach Booted (Steps sampleLayout Calm) sampleInit := calm_next (.start sample_booted) hinit trivial
  have hstatus₀ : sampleInit.status = update sample.status 0 .ready := rfl
  have hready : sampleInit.status 0 = .ready := by rw [hstatus₀, update_self]
  have hnone : sampleInit.stack = fun _ => [] := update_eq_self (Thread.proc 0) (fun _ => ([] : List Act))
  have hplace₀ : sampleInit.place = update sample.place 0 .ret := rfl
  have hplace : sampleInit.place 0 = .ret := by rw [hplace₀, update_self]
  obtain ⟨s, hs, he⟩ := enter hs₀ ⟨rfl, rfl, congrFun hnone _⟩ rfl hready
  have hat : At s 0 .ret := ⟨he.cur, he.user, by rw [he.stack, hnone], by rw [he.place, hplace]⟩
  -- usertrapret()
  obtain ⟨hback, -⟩ := (inv_reach hs).usertrapret hat
  have huser := hback.user
  have hs₁ := calm_next hs (.usertrapret hat he.cpuProc) trivial
  obtain ⟨p, -, -, hvec, -⟩ := (inv_reach hs₁).user huser
  have hstatus : s.status = update (fun _ => .free) 0 .running := by
    rw [he.status]
    exact update_idem _ _ _
  have htf : s.tf 0 = sampleTf := by
    have htf₀ : sampleInit.tf = update sample.tf 0 sampleTf := rfl
    rw [he.tf, htf₀, update_self]
  exact ⟨_, hs₁, he.cur, huser, hvec, he.cpuProc, hstatus, htf, he.stack.trans hnone⟩

/-- Process 0 has made a system call. -/
theorem syscall_reached : ∃ s, Reach Booted (Steps sampleLayout Calm) s ∧ Alone s [] ∧
    s.place 0 = .syscall 0 ∧ s.core.sstatus.sie = true := by
  obtain ⟨s, hs, hcur, huser, hvec, hproc, hstatus, htf, hstack⟩ := user_reached
  have hstack₀ : s.stack (.proc 0) = [] := by rw [hstack]
  have hnone : s.stack = update (fun _ => []) (.proc 0) [] := by
    rw [hstack]
    exact (update_eq_self (Thread.proc 0) (fun _ => ([] : List Act))).symm
  have hst : Step sampleLayout s (.userTrap .ecall) (s.userTrapped 0 .ecall) := .userTrap huser hcur hvec
  have hs₁ := calm_next hs hst trivial
  have hs₂ := calm_next hs₁ (.skip (at_userTrapped hcur hstack₀) hproc) trivial
  exact ⟨_, hs₂, ⟨hcur, rfl, hproc, hstatus, htf, hnone⟩, setPlace_place _ _, rfl⟩

/-- Code of the kernel runs up to an address, with the stack pointer at another. -/
theorem Alone.activity {k : List Act} (h : Alone s k) (sp pc : Word) : ∃ t, Step L s .activity t ∧ Alone t k ∧
    t.place = s.place ∧ t.core.sstatus = s.core.sstatus ∧ t.core.csr = s.core.csr ∧ t.core.reg .sp = sp ∧
    t.core.pc = pc := by
  have hst : Step L s .activity { s with core := { s.core with reg := fun _ => sp, pc, mem := s.core.mem } } :=
    .activity h.user fun _ _ => rfl
  exact ⟨_, hst, ⟨h.cur, h.user, h.cpuProc, h.status, h.tf, h.stack⟩, rfl, rfl, rfl, rfl, rfl⟩

/-- The handler of a timer interrupt gives the hart away, and gets it back with interrupts on. -/
theorem yield_back {a : Act} (h : Reach Booted (Steps L Calm) s) (ha : Alone s [a]) (hphase : a.phase = .timer) :
    ∃ t, Reach Booted (Steps L Calm) t ∧ Alone t [{ a with phase := .handled }] ∧ t.core.sstatus.sie = true := by
  have hi := inv_reach h
  have hs : Handling s a [] := ⟨ha.user, ha.top⟩
  have hrunning : s.status 0 = .running := by rw [ha.status, update_self]
  have hok : Calm s .yield := by
    change s.cur ≠ .sched
    rw [ha.cur]
    simp
  have h₁ := calm_next h (.yieldTrap hs hphase ha.cpuProc hrunning) hok
  have hbase := hi.setTop hs { a with phase := .handled } s.core.csr rfl rfl rfl nofun
  have hcalm : ∀ b k', update s.stack s.cur [{ a with phase := .handled }] s.cur = b :: k' → b.phase ≠ .window := by
    intro b k' hk
    rw [update_self, List.cons.injEq] at hk
    obtain ⟨rfl, -⟩ := hk
    simp
  have hne : TaskStatus.ready ≠ .free := by simp
  obtain ⟨-, ⟨hcur, huser, hstack⟩, -⟩ := hbase.leave ha.cur ha.user hcalm hne
  have hkeeps := swtch_keeps (L := L) (s := (s.setStack [{ a with phase := .handled }]).setStatus 0 .ready) (.proc 0)
    .cpu
  have hstatus : update s.status 0 .ready 0 = TaskStatus.ready := update_self _ _ _
  have hsame : update s.stack s.cur [{ a with phase := .handled }] =
      update (fun _ => []) (.proc 0) [{ a with phase := .handled }] := by
    rw [ha.cur, ha.stack, update_idem]
  -- the scheduler goes on with its loop, and comes to process 0 again
  have hscheduling : Scheduling
      (((s.setStack [{ a with phase := .handled }]).setStatus 0 .ready).swtch L (.proc 0) .cpu) := by
    refine ⟨hcur, huser, (congrFun hstack .sched).trans ?_⟩
    change update s.stack s.cur [{ a with phase := .handled }] .sched = []
    rw [hsame, update_of_ne (by simp)]
  have hready := (congrFun hkeeps.status 0).trans hstatus
  have h₂ := calm_next h₁ (.clear hscheduling (hkeeps.cpuProc.trans ha.cpuProc) (by rw [hready]; simp)) trivial
  have h₃ := calm_next h₂ (.intrOn ⟨hscheduling.cur, hscheduling.user, hscheduling.stack⟩) trivial
  obtain ⟨t, ht, he⟩ := enter h₃ ⟨hscheduling.cur, hscheduling.user, hscheduling.stack⟩ rfl hready
  refine ⟨t, ht, ⟨he.cur, he.user, he.cpuProc, ?_, ?_, ?_⟩, by rw [he.sstatus]; rfl⟩
  · rw [he.status]
    change update (Sys.status (((s.setStack _).setStatus 0 .ready).swtch L _ _)) 0 .running = _
    rw [hkeeps.status]
    change update (update s.status 0 .ready) 0 .running = _
    rw [update_idem, ha.status, update_idem]
  · rw [he.tf]
    exact (congrFun hkeeps.tf 0).trans ha.tf
  · rw [he.stack]
    exact hstack.trans hsame

theorem Alone.setStack {k : List Act} (h : Alone s k) {c : Core} (hc : c.user = false) (k' : List Act) :
    Alone ({ s with core := c }.setStack k') k' where
  cur := h.cur
  user := hc
  cpuProc := h.cpuProc
  status := h.status
  tf := h.tf
  stack := by
    change update s.stack s.cur k' = _
    rw [h.cur, h.stack, update_idem]

/-- An interrupt in the kernel, with `sp` in the kernel stack of process 0. -/
theorem Alone.trapped {k : List Act} (h : Alone s k) (hi : Inv sampleLayout s) (hsie : s.core.sstatus.sie = true)
    (cause : Cause) (hcause : cause ≠ .ecall) {b : Nat} (hsp : frameBase (s.core.reg .sp) = BitVec.ofNat 64 b)
    (hlow : 0x80400000 ≤ b) (hb : b < 0x80402000)
    (hk : ∀ a ∈ k, ∀ x, Area a.base sysFrameSize x → b + 256 ≤ x.toNat) :
    Step sampleLayout s (.trap cause) (s.trapped cause) ∧
      ∃ a, Alone (s.trapped cause) (a :: k) ∧ Framed (s.trapped cause).core.mem a.base a.reg ∧
        a.base = BitVec.ofNat 64 b ∧ a.sepc = s.core.pc ∧ a.sstatus.spp = true ∧ a.phase = cause.phase := by
  have hfree := h.free hlow hb hk
  rw [← hsp] at hfree
  refine ⟨.trap h.user hsie (hi.kernel h.user) hcause hfree, ?_⟩
  obtain ⟨hframed, -, -⟩ := sysTrapVector_run s.core.trap.toCpu
  have hsepc : s.core.trap.csr .sepc = s.core.pc := by
    change update s.core.csr .sepc s.core.pc .sepc = _
    rw [update_self]
  have hspp : s.core.trap.sstatus.spp = true := by
    change (!s.core.user) = true
    rw [h.user]
    rfl
  refine ⟨⟨_, s.core.reg, _, s.core.trap.sstatus, _⟩, ?_, hframed, hsp, hsepc, hspp, rfl⟩
  have halone := h.setStack (c := s.core.trap.exec sysTrapVector) rfl (⟨frameBase (s.core.reg .sp), s.core.reg,
    s.core.trap.csr .sepc, s.core.trap.sstatus, cause.phase⟩ :: k)
  rw [← h.top] at halone ⊢
  exact halone

/-- Between the two writes, with interrupts on. -/
theorem window_reached : ∃ s a, Reach Booted (Steps sampleLayout Calm) s ∧ Alone s [a] ∧
    a.phase = .window ∧ a.sepc = 0x80003000 ∧ a.base = BitVec.ofNat 64 0x80400e00 ∧
    s.core.sstatus.sie = true ∧ s.core.reg .sp = 0x80400d00 ∧ s.core.pc = 0x80004000 := by
  obtain ⟨s, hs, halone, -, hsie⟩ := syscall_reached
  obtain ⟨s₁, hst₁, halone₁, -, hsstatus₁, -, hsp₁, hpc₁⟩ := halone.activity 0x80400f00 0x80003000
  have hs₁ := calm_next hs hst₁ trivial
  have hbase : frameBase (s₁.core.reg .sp) = BitVec.ofNat 64 0x80400e00 := by
    rw [hsp₁]
    decide
  obtain ⟨hst₂, a, halone₂, -, habase, hasepc, -, haphase⟩ := halone₁.trapped (inv_reach hs₁)
    (by rw [hsstatus₁, hsie]) .timer (by simp) hbase (by decide) (by decide) nofun
  have hs₂ := calm_next hs₁ hst₂ fun b k hk => by
    rw [halone₁.top] at hk
    cases hk
  obtain ⟨s₃, hs₃, halone₃, hsie₃⟩ := yield_back hs₂ halone₂ haphase
  have hs₄ := calm_next hs₃ (.writeSepc ⟨halone₃.user, halone₃.top⟩ rfl) trivial
  have halone₄ := halone₃.setStack (c := { s₃.core with csr := update s₃.core.csr .sepc a.sepc }) halone₃.user
    [{ a with phase := .window }]
  obtain ⟨s₅, hst₅, halone₅, -, hsstatus₅, -, hsp₅, hpc₅⟩ := halone₄.activity 0x80400d00 0x80004000
  have hsie₅ : s₅.core.sstatus.sie = true := by
    rw [hsstatus₅]
    exact hsie₃
  exact ⟨s₅, _, calm_next hs₄ hst₅ trivial, halone₅, rfl, hasepc.trans hpc₁, habase, hsie₅, hsp₅, hpc₅⟩

/-- The second write and the end of `sys_trap_vector`, when `sepc` is still that of the call. -/
theorem Handling.returns {a : Act} {k : List Act} (h : Handling s a k) (hphase : a.phase = .window)
    (hframed : Framed s.core.mem a.base a.reg) (hsepc : s.core.csr .sepc = a.sepc) (hspp : a.sstatus.spp = true) :
    ∃ t, Step L s .trapReturn t ∧ t.lost = false ∧ t.cur = s.cur ∧ t.core.user = false ∧
      t.stack = update s.stack s.cur k ∧ t.core.csr .sepc = a.sepc := by
  obtain ⟨hreg, hcsr, -, hstatus, -⟩ := trapExit_run hframed
  obtain ⟨d, hd⟩ : ∃ d : Core, d = s.trapExit a := ⟨_, rfl⟩
  rw [← hd] at hreg hcsr hstatus
  have hst : Step L s .trapReturn ({ s with
      core := d.sret
      lost := !decide (d.reg = a.reg ∧ d.csr .sepc = a.sepc) }.setStack k) := by
    rw [hd]
    exact .trapReturn h hphase
  have hback : d.csr .sepc = a.sepc := by rw [hcsr, hsepc]
  have hlost : (!decide (d.reg = a.reg ∧ d.csr .sepc = a.sepc)) = false := by
    rw [decide_eq_true ⟨hreg, hback⟩]
    rfl
  have huser : (!d.sstatus.spp) = false := by
    rw [hstatus, hspp]
    rfl
  exact ⟨_, hst, hlost, rfl, huser, rfl, hback⟩

/-- A handler that is not interrupted between the two writes returns, whatever it was entered from. -/
theorem handler_returns {b : Act} {k : List Act} (hs : Handling s b k) (hphase : b.phase = .handled)
    (hframed : Framed s.core.mem b.base b.reg) (hspp : b.sstatus.spp = true) :
    ∃ t u, Step L s .writeSepc t ∧ t.lost = s.lost ∧ Step L t .trapReturn u ∧ u.lost = false ∧ u.cur = s.cur ∧
      u.core.user = false ∧ u.stack = update s.stack s.cur k ∧ u.core.csr .sepc = b.sepc := by
  obtain ⟨t, ht⟩ : ∃ t, t = ({ s with core := { s.core with csr := update s.core.csr .sepc b.sepc } } : Sys).setStack
      ({ b with phase := .window } :: k) := ⟨_, rfl⟩
  have hfirst : Step L s .writeSepc t := by
    rw [ht]
    exact .writeSepc hs hphase
  have hstack : t.stack = update s.stack s.cur ({ b with phase := .window } :: k) := by rw [ht]; rfl
  have hcur : t.cur = s.cur := by rw [ht]; rfl
  have hmem : t.core.mem = s.core.mem := by rw [ht]; rfl
  have hcsr : t.core.csr .sepc = b.sepc := by
    rw [ht]
    change update s.core.csr .sepc b.sepc .sepc = _
    rw [update_self]
  have hwindow : Handling t { b with phase := .window } k :=
    ⟨by rw [ht]; exact hs.user, by rw [hstack, hcur, update_self]⟩
  obtain ⟨u, hst, hlost, hcur', huser, hstack', hsepc⟩ :=
    hwindow.returns (L := L) rfl (by rw [hmem]; exact hframed) hcsr hspp
  refine ⟨t, u, hfirst, by rw [ht]; rfl, hst, hlost, hcur'.trans hcur, huser, ?_, hsepc⟩
  rw [hstack', hstack, hcur, update_idem]

end Run

/-- Every offset is that of the member of the same name. -/
def OffsetsNamed : Prop :=
  (∀ f ∈ userSaves ++ userRestores, f.2 = (Field.reg f.1).offset) ∧ ∀ f ∈ swtchSlots, f.2 = contextOffset f.1

theorem offsets_named : OffsetsNamed := by
  refine ⟨fun f hf => ?_, swtchSlots_offset⟩
  rcases List.mem_append.1 hf with hf | hf
  · exact userSaves_offset f hf
  · exact userRestores_offset f hf

/-- In a run of calm steps no thread is lost, and every calm step is transparent and begins a round trip. -/
theorem transparent_reach {L : Layout} {s : Sys} (h : Reach Booted (Steps L Calm) s) :
    OffsetsNamed ∧ s.lost = false ∧ ∀ e t, Calm s e → Step L s e t → Transparent s e t ∧ RoundTrip L s e t := by
  have hi := inv_reach h
  exact ⟨offsets_named, hi.found, fun e t hok hst => ⟨(hi.step hst hok).2, hi.roundTrip hst hok⟩⟩

/-- The first process makes a system call. -/
theorem transparent_reach_ecall : ∃ s t, s.core.user = true ∧ Step sampleLayout s (.userTrap .ecall) t ∧
    UserTrip sampleLayout s t .ecall 0 := by
  obtain ⟨s, hs, hcur, huser, hvec, -⟩ := user_reached
  have hst : Step sampleLayout s (.userTrap .ecall) (s.userTrapped 0 .ecall) := .userTrap huser hcur hvec
  obtain ⟨-, -, hall⟩ := transparent_reach hs
  exact ⟨s, _, huser, hst, (hall (.userTrap .ecall) _ trivial hst).2 0 hcur⟩

/-- An external interrupt between the two writes: the handler of the first trap leaves through the second write, with
the registers of the code it interrupted and the pc of its own. -/
theorem transparent_fails : ∃ s t a, Reach Booted (Steps sampleLayout fun _ _ => True) s ∧
    s.stack s.cur = [a] ∧ Step sampleLayout s .trapReturn t ∧ t.core.pc ≠ a.sepc ∧ ¬ Transparent s .trapReturn t := by
  obtain ⟨s, a, hs, halone, haphase, hasepc, habase, hsie, hsp, hpc⟩ := window_reached
  have hfound : s.lost = false := (inv_reach hs).found
  have hany : Reach Booted (Steps sampleLayout fun _ _ => True) s :=
    hs.mono fun _ _ ⟨hlost, e, _, hst⟩ => ⟨hlost, e, trivial, hst⟩
  have hbase : frameBase (s.core.reg .sp) = BitVec.ofNat 64 0x80400c00 := by
    rw [hsp]
    decide
  have hbelow : ∀ b ∈ [a], ∀ x, Area b.base sysFrameSize x → 0x80400c00 + 256 ≤ x.toNat := by
    intro b hb x hx
    rw [List.mem_singleton.1 hb, habase] at hx
    have := (area_iff (a := 0x80400e00) (by decide) (n := 256) (by decide) x).1 hx
    omega
  obtain ⟨hst₁, b, halone₁, hframed, -, hbsepc, hbspp, hbphase⟩ := halone.trapped (inv_reach hs)
    hsie .external (by simp) hbase (by decide) (by decide) hbelow
  have hs₁ := hany.next ⟨hfound, _, trivial, hst₁⟩
  -- the second handler runs through, and leaves its own return address in `sepc`
  obtain ⟨s₂, s₃, hst₂, hlost₂, hst₃, hlost₃, hcur₃, huser₃, hstack₃, hsepc₃⟩ :=
    handler_returns (L := sampleLayout) ⟨halone₁.user, halone₁.top⟩ hbphase hframed hbspp
  have hs₃ := (hs₁.next ⟨hfound, _, trivial, hst₂⟩).next ⟨hlost₂.trans hfound, _, trivial, hst₃⟩
  have htop : s₃.stack s₃.cur = [a] := by
    rw [hstack₃, hcur₃, update_self]
  have hpc₃ : (s₃.trapExit a).csr .sepc = 0x80004000 :=
    (congrFun (sysTrapReturn_csr _) _).trans (hsepc₃.trans (hbsepc.trans hpc))
  have hne : (s₃.trapExit a).csr .sepc ≠ a.sepc := by
    rw [hpc₃, hasepc]
    decide
  refine ⟨s₃, _, a, hs₃, htop, .trapReturn ⟨huser₃, htop⟩ haphase, hne, fun h => ?_⟩
  exact hne (h a [] htop).2.1

end RiscvOsLab.Trap
