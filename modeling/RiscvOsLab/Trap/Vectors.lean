import RiscvOsLab.Trap.Window

/-!
# The vector, `sscratch` and the mode

* `Between` : the cores an entry or an exit passes through, instruction by instruction;
* `vectors_reach` : in every calm run interrupts are only on in S-mode with `sys_trap_vector` in `stvec`, and user mode
  is entered with everything `user_trap_entry` relies on;
* `vectors_fails` : a system call that stores through a pointer to `cpu->context` breaks this.
-/

namespace RiscvOsLab.Trap

open Function Riscv
open RiscvOsLab.Kernel (NPROC TaskStatus)
open RiscvOsLab.Proc (Thread Ctx)

/-- The core from which `return_to_user` is called for process `p`, with this memory. -/
def Sys.toUser (s : Sys) (p : Fin NPROC) (m : Memory) : Core :=
  { s.core with
    mem := m
    stvec := .userTrapEntry
    sstatus := { s.core.sstatus with sie := false, spie := true, spp := false }
    reg := update s.core.reg .a0 (s.tf p) }

/-- The core between two instructions of an entry, or between two statements or instructions of an exit. -/
inductive Between (s : Sys) : Event → Core → Prop
  | userTrapEntry {cause : Cause} {n : Nat} : Between s (.userTrap cause) (s.core.trap.exec (userTrapEntry.take n))
  | sysTrapVector {cause : Cause} {n : Nat} : Between s (.trap cause) (s.core.trap.exec (sysTrapVector.take n))
  -- intr_off();
  | intrOff : Between s .usertrapret { s.core with sstatus := { s.core.sstatus with sie := false } }
  -- w_stvec((uint64)user_trap_entry); and the fields of the trapframe
  | vector {m : Memory} : Between s .usertrapret
      { s.core with sstatus := { s.core.sstatus with sie := false }, stvec := .userTrapEntry, mem := m }
  | returnToUser {p : Fin NPROC} {m : Memory} {n : Nat} :
      Between s .usertrapret ((s.toUser p m).exec (returnToUser.take n))
  | sysTrapReturn {a : Act} {k : List Act} {n : Nat} : Handling s a k → Between s .trapReturn
      ({ s.core with sstatus := a.sstatus, reg := update s.core.reg .sp a.base }.exec (sysTrapReturn.take n))

/-- What user mode is entered with, and is left with but for the registers. -/
structure Prepared (s : Sys) (p : Fin NPROC) : Prop where
  cpuProc : s.cpuProc = some p
  stvec : s.core.stvec = .userTrapEntry
  sscratch : s.core.csr .sscratch = s.tf p
  kernelSp : field s.core.mem (s.tf p) .kernelSp = s.kstack p + 4096

structure Vectors (L : Layout) (s : Sys) : Prop where
  kernel : s.core.user = false → s.core.sstatus.sie = true → s.core.stvec = .sysTrapVector
  between : ∀ e t c, Calm s e → Step L s e t → Between s e c → c.user = false →
    c.sstatus.sie = true → c.stvec = .sysTrapVector
  user : s.core.user = true → ∃ p, s.cur = .proc p ∧ Prepared s p
  /-- `user_trap_entry` goes on at the top of the kernel stack of the process. -/
  entry : ∀ cause t p, Step L s (.userTrap cause) t → s.cur = .proc p → t.core.reg .sp = s.kstack p + 4096
  /-- The two tests at the begin of `sys_trap_handler`. -/
  tests : ∀ cause t, Step L s (.trap cause) t → t.core.sstatus.spp = true ∧ t.core.sstatus.sie = false
  astray : ∀ t, ¬ Step L s .astray t

section Steps
variable {L : Layout} {s t : Sys}

/-- The steps that end in user mode. -/
theorem Inv.user_after {e : Event} (hi : Inv L s) (hst : Step L s e t) (hok : Calm s e) (huser : t.core.user = true) :
    e = .user ∨ e = .usertrapret := by
  have hno : s.core.user = false → t.core.user = s.core.user → e = .user ∨ e = .usertrapret := by
    intro hkernel hsame
    rw [hsame, hkernel] at huser
    cases huser
  obtain ⟨hi', htransparent⟩ := hi.step hst hok
  have hfound := hi'.found
  cases hst with
  | user => exact .inl rfl
  | usertrapret => exact .inr rfl
  | activity hkernel => exact hno hkernel rfl
  | userTrap => cases huser
  | skip hat => exact hno hat.user rfl
  | result hat => exact hno hat.user rfl
  | userinit hs => exact hno hs.user rfl
  | fork hat => exact hno hat.user rfl
  | reap hat => exact hno hat.user rfl
  | wakeup hkernel => exact hno hkernel rfl
  | passUser hat => exact hno hat.user rfl
  | passTrap hs => exact hno hs.user rfl
  | trap => cases huser
  | writeSepc hs => exact hno hs.user rfl
  | @trapReturn a k hs =>
      obtain ⟨-, -, -, hback⟩ := htransparent a k hs.stack
      obtain ⟨-, hspp⟩ := hi.framed s.cur a (by rw [hs.stack]; simp)
      rw [hback, hspp] at huser
      cases huser
  | intrOn hs => exact hno hs.user rfl
  | choose hs => exact hno hs.user rfl
  | dispatch hs => exact hno hs.user (swtch_keeps _ _).user
  | clear hs => exact hno hs.user rfl
  | yieldUser hat => exact hno hat.user (swtch_keeps _ _).user
  | yieldTrap hs => exact hno hs.user (swtch_keeps _ _).user
  | block hat => exact hno hat.user (swtch_keeps _ _).user
  | astray => cases hfound

/-- The kernel stack in the trapframe of the process that is in user mode. -/
def StackSet (s : Sys) : Prop :=
  s.core.user = true → ∀ p, s.cur = .proc p → field s.core.mem (s.tf p) .kernelSp = s.kstack p + 4096

theorem StackSet.step {e : Event} (h : StackSet s) (hi : Inv L s) (hst : Step L s e t) (hok : Calm s e) :
    StackSet t := by
  intro huser p hcur
  rcases hi.user_after hst hok huser with rfl | rfl
  · cases hst with
    | user hs hm =>
        obtain ⟨-, hrunning⟩ := hi.running p hcur
        have hlive : s.status p ≠ .free := by rw [hrunning]; simp
        rw [← h hs p hcur]
        apply field_frame
        exact fun x hx => hm x ⟨.tf p, hlive, hx⟩
  · cases hst with
    | @usertrapret q r hat hr =>
        obtain rfl := hi.myproc hat.cur hr
        obtain rfl : r = p := Thread.proc.inj (hat.cur.symm.trans hcur)
        exact (hi.usertrapret (L := L) hat).1.stack

theorem stackSet_reach (h : Reach Booted (Steps L Calm) s) : StackSet s := by
  apply h.invariant_of_reach StackSet
  · intro s hs huser
    rw [hs.scheduling.user] at huser
    cases huser
  · rintro s t hr hstack ⟨-, e, hok, hst⟩
    exact hstack.step (inv_reach hr) hst hok

/-- Interrupts are off wherever the vector is not that of the kernel. -/
theorem Inv.between {e : Event} {c : Core} (hi : Inv L s) (hst : Step L s e t) (h : Between s e c)
    (hsie : c.sstatus.sie = true) : c.stvec = .sysTrapVector := by
  cases h with
  | userTrapEntry => cases hsie
  | sysTrapVector => cases hsie
  | intrOff => cases hsie
  | vector => cases hsie
  | returnToUser => cases hsie
  | sysTrapReturn hs => exact hi.kernel hs.user

theorem Inv.entry {cause : Cause} {p : Fin NPROC} (hi : Inv L s) (hstack : StackSet s)
    (hst : Step L s (.userTrap cause) t) (hcur : s.cur = .proc p) : t.core.reg .sp = s.kstack p + 4096 := by
  cases hst with
  | userTrap huser =>
      obtain ⟨q, hq, -, -, hscratch⟩ := hi.user huser
      obtain rfl : p = q := Thread.proc.inj (hcur.symm.trans hq)
      obtain ⟨-, -, hsp⟩ := userTrapEntry_kernel s.core.trap.toCpu
      rw [← hstack huser p hcur]
      rw [← hscratch]
      exact hsp

end Steps

/-! ## A pointer to the context of the scheduler -/

/-- The calm steps, with those of a system call that stores a double word wherever its caller says (`fileread`), and
of the hart when it comes to `return_to_user` at `entry`. -/
inductive Wild (L : Layout) (entry : Word) (s : Sys) : Sys → Prop
  | calm {t : Sys} : Steps L Calm s t → Wild L entry s t
  | store {p q : Fin NPROC} {a v : Word} : s.lost = false → At s p (.syscall q) →
      Wild L entry s (s.setMem (Riscv.store s.core.mem a v))
  | returnToUser : s.core.user = false → s.core.pc = entry →
      Wild L entry s { s with core := (s.core.exec returnToUser).sret }

section Stray
variable {L : Layout} {s : Sys}

/-- `swtch` goes on at the `ra` of the new context, whoever has written it. -/
theorem swtch_pc (old new : Ctx)
    (h : ∀ x, Area (L.ctx new + BitVec.ofNat 64 (contextOffset .ra)) 8 x → ¬ Area (L.ctx old) contextSize x) :
    (s.swtch L old new).core.pc = load s.core.mem (L.ctx new + BitVec.ofNat 64 (contextOffset .ra)) := by
  let c : Core := { s.core with reg := update (update s.core.reg .a0 (L.ctx old)) .a1 (L.ctx new) }
  have ha0 : c.reg .a0 = L.ctx old := by simp [c]
  have ha1 : c.reg .a1 = L.ctx new := by simp [c]
  obtain ⟨d, hd⟩ : ∃ d, c.exec Trap.swtch = d := ⟨_, rfl⟩
  have hcpu : Riscv.exec Trap.swtch c.toCpu = d.toCpu := by rw [← hd]; rfl
  have hpc : (s.swtch L old new).core.pc = d.reg .ra := by
    unfold Sys.swtch
    simp only []
    rw [hd]
    split <;> rfl
  obtain ⟨-, hout⟩ := swtch_saves c.toCpu
  have hkept : Kept d.mem (c.reg .a1) fun r => load d.mem (c.reg .a1 + BitVec.ofNat 64 (contextOffset r)) :=
    fun _ _ => rfl
  have hmem : d.mem = d.toCpu.mem := rfl
  rw [hmem, ← hcpu] at hkept
  have hloads := swtch_loads hkept .ra (by decide)
  rw [hcpu] at hloads hout
  rw [ha0] at hout
  rw [hpc, hloads, ha1]
  exact load_frame fun x hx => hout x (h x hx)

theorem userTrapped_out {p : Fin NPROC} {cause : Cause} (hscratch : s.core.csr .sscratch = s.tf p) {x : Word}
    (hx : ¬ Area (s.tf p) trapframeSize x) : (s.userTrapped p cause).core.mem x = s.core.mem x := by
  have htrap : s.core.trap.csr .sscratch = s.tf p := by simp [Core.trap, hscratch]
  obtain ⟨-, hout⟩ := userTrapEntry_run s.core.trap.toCpu
  rw [htrap] at hout
  exact hout x hx

/-- Where `cpu->context.ra` lies. -/
def sampleRa : Word := sampleCtx .cpu + BitVec.ofNat 64 (contextOffset .ra)

theorem area_sampleRa {x : Word} (h : Area sampleRa 8 x) : x.toNat < 0x80200000 := by
  have hra : sampleRa = BitVec.ofNat 64 0x80100060 := by decide
  rw [hra] at h
  have := (area_iff (a := 0x80100060) (by decide) (n := 8) (by decide) x).1 h
  omega

theorem sampleRa_out {x : Word} (h : Area sampleRa 8 x) : ¬ Area sampleTf trapframeSize x := by
  intro htf
  have := area_sampleRa h
  have := area_sampleTf htf
  omega

theorem sampleRa_ctx {x : Word} (h : Area sampleRa 8 x) : ¬ Area (sampleCtx (.proc 0)) contextSize x := by
  intro hctx
  have := area_sampleRa h
  have := (area_iff (a := 0x80200000) (by decide) (n := 112) (by decide) x).1 hctx
  omega

/-- Process 0 is in `usertrap`, and the scheduler will go on at `entry`. -/
structure Strayed (s : Sys) (entry : Word) : Prop where
  alone : Alone s []
  holds : Holds s.core.mem sampleTf (s.image 0)
  found : s.lost = false
  stray : load s.core.mem sampleRa = entry

/-- Process 0 goes back to user mode, where the timer interrupts it. -/
theorem Strayed.round {entry : Word} (h : Strayed s entry) (hret : s.place 0 = .ret)
    (hr : Reach Booted (Wild sampleLayout entry) s) :
    ∃ t, Reach Booted (Wild sampleLayout entry) t ∧ Alone t [] ∧ t.place 0 = .timer ∧ t.lost = false ∧
      load t.core.mem sampleRa = entry ∧ t.core.sstatus.spp = false ∧ t.core.stvec = .sysTrapVector := by
  have hat : At s 0 .ret := h.alone.at hret
  have htf := h.alone.tf
  have hback : Returned s 0 (s.usertrapret sampleLayout 0).sret := usertrapret_run (by rw [htf]; exact h.holds)
  obtain ⟨d, hd⟩ : ∃ d, (s.usertrapret sampleLayout 0).sret = d := ⟨_, rfl⟩
  rw [hd] at hback
  obtain ⟨u, hu⟩ : ∃ u : Sys, u = ({ s with
      core := d
      lost := !decide (d.reg = (s.image 0).reg ∧ d.pc = (s.image 0).pc) } : Sys).setPlace 0 .user := ⟨_, rfl⟩
  have hst : Step sampleLayout s .usertrapret u := by
    rw [hu, ← hd]
    exact .usertrapret hat h.alone.cpuProc
  have hcore : u.core = d := by rw [hu]; rfl
  have hutf : u.tf 0 = sampleTf := by rw [hu]; exact htf
  have hulost : u.lost = false := by
    rw [hu]
    change (!decide (d.reg = (s.image 0).reg ∧ d.pc = (s.image 0).pc)) = false
    rw [decide_eq_true ⟨hback.reg, hback.pc⟩]
    rfl
  have hucur : u.cur = .proc 0 := by rw [hu]; exact h.alone.cur
  have huser : u.core.user = true := by rw [hcore, hback.user]
  have htrap : Step sampleLayout u (.userTrap .timer) (u.userTrapped 0 .timer) :=
    .userTrap huser hucur (by rw [hcore, hback.vector])
  have hr₁ := hr.next (.calm ⟨h.found, .usertrapret, trivial, hst⟩)
  have hr₂ := hr₁.next (.calm ⟨hulost, .userTrap .timer, trivial, htrap⟩)
  have halone : Alone (u.userTrapped 0 .timer) [] := by
    refine ⟨hucur, rfl, ?_, ?_, hutf, ?_⟩
    · rw [hu]
      exact h.alone.cpuProc
    · rw [hu]
      exact h.alone.status
    · rw [hu]
      exact h.alone.stack
  refine ⟨_, hr₂, halone, setPlace_place _ _, hulost, ?_, ?_, rfl⟩
  · rw [← h.stray]
    apply load_frame
    intro x hx
    have hx' := sampleRa_out hx
    rw [userTrapped_out (by rw [hcore, hback.sscratch, htf, hutf]) (by rw [hutf]; exact hx'), hcore]
    exact hback.out x (by rw [htf]; exact hx')
  · change (!u.core.user) = false
    rw [huser]
    rfl

/-- The system call stores `entry` in `cpu->context.ra`, and returns. -/
theorem stray_reached (entry v : Word) : ∃ s, Reach Booted (Wild sampleLayout entry) s ∧ Strayed s entry ∧
    s.place 0 = .ret := by
  obtain ⟨s, hs, halone, hplace, -⟩ := syscall_reached
  have hi := inv_reach hs
  have hat : At s 0 (.syscall 0) := halone.at hplace
  have hr : Reach Booted (Wild sampleLayout entry) s := hs.mono fun _ _ hst => .calm hst
  have hholds : Holds s.core.mem sampleTf (s.image 0) := by
    rw [← halone.tf]
    exact hi.image hat
  obtain ⟨m, hm⟩ : ∃ m, Riscv.store s.core.mem sampleRa entry = m := ⟨_, rfl⟩
  have hstray : load m sampleRa = entry := by rw [← hm, load_store]
  have hholds' : Holds m sampleTf (s.image 0) := by
    apply hholds.frame
    intro x hx
    rw [← hm]
    exact store_out fun hra => sampleRa_out hra hx
  have hr₁ := hr.next (.store (a := sampleRa) (v := entry) hi.found hat)
  rw [hm] at hr₁
  have hat₁ : At (s.setMem m) 0 (.syscall 0) := ⟨hat.cur, hat.user, hat.stack, hat.place⟩
  have hr₂ := hr₁.next (.calm ⟨hi.found, .result v, trivial, .result hat₁⟩)
  refine ⟨_, hr₂, ⟨⟨halone.cur, halone.user, halone.cpuProc, halone.status, halone.tf, halone.stack⟩, ?_, hi.found, ?_⟩,
    setPlace_place _ _⟩
  · change Holds (setField m (s.tf 0) (.reg .a0) v) sampleTf
      (update s.image 0 { s.image 0 with reg := update (s.image 0).reg .a0 v } 0)
    rw [update_self, halone.tf]
    exact hholds'.setA0 v
  · change load (setField m (s.tf 0) (.reg .a0) v) sampleRa = entry
    rw [halone.tf, ← hstray]
    exact load_frame fun x hx => setField_out (sampleRa_out hx) _ _ _

end Stray

/-- In every run of calm steps the hart is ready for the traps it can take. -/
theorem vectors_reach {L : Layout} {s : Sys} (h : Reach Booted (Steps L Calm) s) : Vectors L s := by
  have hi := inv_reach h
  have hstack := stackSet_reach h
  refine ⟨fun hkernel _ => hi.kernel hkernel, fun e t c _ hst hc _ hsie => hi.between hst hc hsie, ?_, ?_, ?_, ?_⟩
  · intro huser
    obtain ⟨p, hcur, -, hvec, hscratch⟩ := hi.user huser
    exact ⟨p, hcur, (hi.running p hcur).1, hvec, hscratch, hstack huser p hcur⟩
  · exact fun cause t p hst hcur => hi.entry hstack hst hcur
  · intro cause t hst
    cases hst with
    | trap hkernel =>
        refine ⟨?_, rfl⟩
        change (!s.core.user) = true
        rw [hkernel]
        rfl
  · intro t hst
    have hfound := (hi.step hst trivial).1.found
    cases hst with
    | astray => cases hfound

/-- The first process in user mode. -/
theorem vectors_reach_user : ∃ s p, Reach Booted (Steps sampleLayout Calm) s ∧ s.core.user = true ∧ s.cur = .proc p ∧
    Prepared s p := by
  obtain ⟨s, hs, -, huser, -⟩ := user_reached
  obtain ⟨p, hcur, hprepared⟩ := (vectors_reach hs).user huser
  exact ⟨s, p, hs, huser, hcur, hprepared⟩

/-- Process 0 reads the address of `return_to_user` from a file to `cpu->context.ra`. When the timer takes the hart from
it, the scheduler goes on there: in user mode, with the vector of the kernel. -/
theorem vectors_fails : ∃ s, Reach Booted (Wild sampleLayout 0x80001800) s ∧ s.core.user = true ∧
    s.core.stvec = .sysTrapVector := by
  obtain ⟨s, hr, hstrayed, hret⟩ := stray_reached 0x80001800 8
  obtain ⟨t, hr₁, halone, htimer, hfound, hstray, hspp, hvec⟩ := hstrayed.round hret hr
  have hat : At t 0 .timer := halone.at htimer
  have hrunning : t.status 0 = .running := by rw [halone.status, update_self]
  have hok : Calm t .yield := by
    change t.cur ≠ .sched
    rw [halone.cur]
    simp
  have hr₂ := hr₁.next (.calm ⟨hfound, .yield, hok, .yieldUser hat halone.cpuProc hrunning⟩)
  have hkeeps := swtch_keeps (L := sampleLayout) (s := (t.setPlace 0 .ret).setStatus 0 .ready) (.proc 0) .cpu
  have hpc := swtch_pc (L := sampleLayout) (s := (t.setPlace 0 .ret).setStatus 0 .ready) (.proc 0) .cpu
    fun _ hx => sampleRa_ctx hx
  have hr₃ := hr₂.next (.returnToUser (hkeeps.user.trans hat.user) (hpc.trans hstray))
  refine ⟨_, hr₃, ?_, hkeeps.vector.trans hvec⟩
  change (!(Sys.core _).sstatus.spp) = true
  rw [hkeeps.sstatus]
  change (!t.core.sstatus.spp) = true
  rw [hspp]
  rfl

end RiscvOsLab.Trap
