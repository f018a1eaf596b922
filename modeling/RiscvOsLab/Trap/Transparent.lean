import RiscvOsLab.Trap.Machine
import RiscvOsLab.Lib.Trans

/-!
# Traps and switches bring the registers back

`Transparent s e t` says of each event what it is to bring back or to keep: the user's registers and pc in the
trapframe and out of it, the interrupted registers with `sepc` and `sstatus`, the registers of a context. `Calm`
steps take no interrupt between `w_sepc` and `w_sstatus` of `sys_trap_handler`, and no handler yields on the stack of
the scheduler.

* `Inv` : every trapframe, frame and context holds what its history variable says, and no two of them overlap;
* `Inv.step` : a calm step keeps the invariant and is transparent, with one lemma for each kind of step.
-/

namespace RiscvOsLab.Trap

open Function Riscv
open RiscvOsLab.Kernel (NPROC TaskStatus)
open RiscvOsLab.Proc (Thread Ctx)

/-- The context a thread is saved into. -/
def own : Thread → Ctx
  | .sched => .cpu
  | .proc p => .proc p

/-- `trapinithart` has returned, and there is no process. -/
structure Booted (s : Sys) : Prop where
  scheduling : Scheduling s
  cpuProc : s.cpuProc = none
  vector : s.core.stvec = .sysTrapVector
  stack : ∀ t, s.stack t = []
  status : ∀ p, s.status p = .free
  place : ∀ p, s.place p = .ret
  found : s.lost = false

/-- No interrupt between the two writes of `sys_trap_handler`, and no `yield` on the stack of the scheduler. -/
def Calm (s : Sys) : Event → Prop
  | .trap _ => ∀ a k, s.stack s.cur = a :: k → a.phase ≠ .window
  | .yield => s.cur ≠ .sched
  | _ => True

/-- A step from a state whose threads all go on. -/
def Steps (L : Layout) (ok : Sys → Event → Prop) (s t : Sys) : Prop := s.lost = false ∧ ∃ e, ok s e ∧ Step L s e t

/-- `argraw(n)`, for the trapframe of the process. -/
def argraw (m : Memory) (tf : Word) : Nat → Option Word
  | 0 => some (field m tf (.reg .a0))
  | 1 => some (field m tf (.reg .a1))
  | 2 => some (field m tf (.reg .a2))
  | 3 => some (field m tf (.reg .a3))
  | 4 => some (field m tf (.reg .a4))
  | 5 => some (field m tf (.reg .a5))
  | _ => none

/-- What `syscall` and `argraw` find. -/
structure Arguments (m : Memory) (tf : Word) (reg : Reg → Word) : Prop where
  number : field m tf (.reg .a7) = reg .a7
  arg : [0, 1, 2, 3, 4, 5].map (argraw m tf) = [.a0, .a1, .a2, .a3, .a4, .a5].map fun r => some (reg r)

/-- A `swtch` leaves the registers of the caller's thread with its context, and goes on with those of the context of
the thread that runs now. -/
structure Switched (s t : Sys) : Prop where
  saves : ∃ k, t.saved (own s.cur) = some k ∧ k.thread = s.cur ∧ ∀ r ∈ context, k.reg r = s.core.reg r
  loads : ∃ k, s.saved (own t.cur) = some k ∧ k.thread = t.cur ∧ (∀ r ∈ context, t.core.reg r = k.reg r) ∧
    t.core.pc = k.reg .ra

def Transparent (s : Sys) : Event → Sys → Prop
  | .userTrap _, t => ∀ p, s.cur = .proc p → t.image p = ⟨s.core.reg, s.core.pc⟩ ∧
      Holds t.core.mem (t.tf p) (t.image p) ∧ Arguments t.core.mem (t.tf p) s.core.reg
  | .fork c, t => ∀ p, s.cur = .proc p → t.image c = childImage (s.image p) ∧ Holds t.core.mem (t.tf c) (t.image c)
  | .usertrapret, t => ∀ p, s.cur = .proc p → t.core.reg = (s.image p).reg ∧ t.core.pc = (s.image p).pc ∧
      t.core.user = true
  | .trap _, t => ∃ a, t.stack t.cur = a :: s.stack s.cur ∧ a.reg = s.core.reg ∧ a.sepc = s.core.pc ∧
      a.sstatus = ⟨false, s.core.sstatus.sie, true⟩
  | .trapReturn, t => ∀ a k, s.stack s.cur = a :: k → t.core.reg = a.reg ∧ t.core.pc = a.sepc ∧
      t.core.sstatus = ⟨a.sstatus.spie, true, false⟩ ∧ t.core.user = !a.sstatus.spp
  | .dispatch, t => Switched s t
  | .yield, t => Switched s t
  | .block _, t => Switched s t
  | _, _ => True

/-! ## The invariant -/

/-- The thread is the scheduler's or that of a process. -/
def Alive (s : Sys) : Thread → Prop
  | .sched => True
  | .proc p => s.status p ≠ .free

/-- The process runs in user mode. -/
def InUser (s : Sys) (p : Fin NPROC) : Prop := s.core.user = true ∧ s.cur = .proc p

/-- All but what `cpu->proc` says. -/
structure Base (L : Layout) (s : Sys) : Prop where
  found : s.lost = false
  separate : ∀ o o' x, Owns L s o x → Owns L s o' x → o = o'
  holds : ∀ p, s.status p ≠ .free → ¬ InUser s p → Holds s.core.mem (s.tf p) (s.image p)
  framed : ∀ t, ∀ a ∈ s.stack t, Framed s.core.mem a.base a.reg ∧ a.sstatus.spp = true
  head : ∀ t a k, s.stack t = a :: k → a.phase = .window → t = s.cur ∧ s.core.csr .sepc = a.sepc
  tail : ∀ t, ∀ a ∈ (s.stack t).tail, a.phase ≠ .window
  suspended : ∀ t, t ≠ s.cur → Alive s t →
    ∃ reg, s.saved (own t) = some ⟨t, s.stack t, reg⟩ ∧ Kept s.core.mem (L.ctx (own t)) reg
  alive : Alive s s.cur
  kernel : s.core.user = false → s.core.stvec = .sysTrapVector
  user : s.core.user = true → ∃ p, s.cur = .proc p ∧ s.stack s.cur = [] ∧ s.core.stvec = .userTrapEntry ∧
    s.core.csr .sscratch = s.tf p
  freed : ∀ p, s.status p = .free → s.stack (.proc p) = []
  self : ∀ p q, s.place p = .syscall q → q = p

structure Inv (L : Layout) (s : Sys) : Prop extends Base L s where
  running : ∀ p, s.cur = .proc p → s.cpuProc = some p ∧ s.status p = .running

theorem own_inj {t u : Thread} (h : own t = own u) : t = u := by
  cases t <;> cases u <;> simp_all [own]

theorem Booted.inv {L : Layout} {s : Sys} (h : Booted s) : Inv L s := by
  have hctx : ∀ o x, Owns L s o x → ∃ c, o = .ctx c ∧ Area (L.ctx c) contextSize x := by
    intro o x ho
    cases o with
    | ctx c => exact ⟨c, rfl, ho⟩
    | tf p => exact absurd (h.status p) ho.1
    | frame t i =>
        obtain ⟨b, hb, -⟩ := ho
        simp [h.stack] at hb
  have hcur := h.scheduling.cur
  refine {
    found := h.found, separate := ?_, holds := fun p hp _ => absurd (h.status p) hp, framed := ?_, head := ?_, tail := ?_
    suspended := ?_, alive := ?_, kernel := fun _ => h.vector, user := ?_, freed := fun _ _ => h.stack _, self := ?_
    running := ?_ }
  · intro o o' x ho ho'
    obtain ⟨c, rfl, hx⟩ := hctx o x ho
    obtain ⟨c', rfl, hx'⟩ := hctx o' x ho'
    rw [L.apart c c' x hx hx']
  · intro t a ha
    simp [h.stack] at ha
  · intro t a k hk
    simp [h.stack] at hk
  · intro t a ha
    simp [h.stack] at ha
  · intro t ht halive
    cases t with
    | sched => exact absurd hcur.symm ht
    | proc p => exact absurd (h.status p) halive
  · rw [hcur]
    trivial
  · intro huser
    rw [h.scheduling.user] at huser
    cases huser
  · intro p q hp
    rw [h.place] at hp
    cases hp
  · intro p hp
    rw [hcur] at hp
    cases hp

/-! ## What stays when memory is written -/

section Keep
variable {L : Layout} {s : Sys} {m : Memory}

theorem Base.holds_keep (hi : Base L s) {p : Fin NPROC} (hm : ∀ x, Owns L s (.tf p) x → m x = s.core.mem x)
    (hp : s.status p ≠ .free) (hu : ¬ InUser s p) : Holds m (s.tf p) (s.image p) :=
  (hi.holds p hp hu).frame fun x hx => hm x ⟨hp, hx⟩

/-- A call of `sys_trap_handler` owns its frame. -/
theorem owns_frame {t : Thread} {a : Act} (ha : a ∈ s.stack t) :
    ∃ i, ∀ x, Area a.base sysFrameSize x → Owns L s (.frame t i) x := by
  have hmem : a.base ∈ ((s.stack t).map Act.base).reverse := List.mem_reverse.2 (List.mem_map_of_mem ha)
  obtain ⟨i, hi⟩ := List.mem_iff_getElem?.1 hmem
  exact ⟨i, fun x hx => ⟨_, hi, hx⟩⟩

theorem Base.framed_keep (hi : Base L s) {t : Thread} (hm : ∀ i x, Owns L s (.frame t i) x → m x = s.core.mem x)
    {a : Act} (ha : a ∈ s.stack t) : Framed m a.base a.reg := by
  obtain ⟨i, hown⟩ := owns_frame (L := L) ha
  exact (hi.framed t a ha).1.frame fun x hx => hm i x (hown x hx)

theorem Base.suspended_keep (hi : Base L s) {t : Thread}
    (hm : ∀ x, Owns L s (.ctx (own t)) x → m x = s.core.mem x) (ht : t ≠ s.cur) (ha : Alive s t) :
    ∃ reg, s.saved (own t) = some ⟨t, s.stack t, reg⟩ ∧ Kept m (L.ctx (own t)) reg := by
  obtain ⟨reg, hsaved, hkept⟩ := hi.suspended t ht ha
  exact ⟨reg, hsaved, hkept.frame hm⟩

/-- Code that writes no memory of others and leaves the control registers alone. -/
theorem Base.setCore (hi : Base L s) {c : Core} (huser : c.user = s.core.user) (hstvec : c.stvec = s.core.stvec)
    (hcsr : c.csr = s.core.csr) (hm : ∀ o x, Owns L s o x → c.mem x = s.core.mem x) : Base L { s with core := c } where
  found := hi.found
  separate := hi.separate
  holds p hp hu := hi.holds_keep (hm _) hp fun ⟨h, h'⟩ => hu ⟨huser.trans h, h'⟩
  framed t a ha := ⟨hi.framed_keep (fun i => hm _) ha, (hi.framed t a ha).2⟩
  head t a k hk hw := by
    obtain ⟨ht, hsepc⟩ := hi.head t a k hk hw
    exact ⟨ht, (congrFun hcsr _).trans hsepc⟩
  tail := hi.tail
  suspended t ht ha := hi.suspended_keep (hm _) ht ha
  alive := hi.alive
  kernel h := hstvec.trans (hi.kernel (huser.symm.trans h))
  user h := by
    obtain ⟨p, hp, hstack, hvec, hscratch⟩ := hi.user (huser.symm.trans h)
    exact ⟨p, hp, hstack, hstvec.trans hvec, (congrFun hcsr _).trans hscratch⟩
  freed := hi.freed
  self := hi.self

/-- The process at the bottom of `usertrap`, or the assembly around it, rewrites its own trapframe. -/
theorem Base.bottom (hi : Base L s) {c : Core} {p : Fin NPROC} {i : Image} (hcur : s.cur = .proc p)
    (hstack : s.stack (.proc p) = []) (hm : ∀ x, ¬ Area (s.tf p) trapframeSize x → c.mem x = s.core.mem x)
    (hh : c.user = false → Holds c.mem (s.tf p) i) (hk : c.user = false → c.stvec = .sysTrapVector)
    (hu : c.user = true → c.stvec = .userTrapEntry ∧ c.csr .sscratch = s.tf p) :
    Base L ({ s with core := c }.setImage p i) := by
  have hp : s.status p ≠ .free := by
    have halive := hi.alive
    rwa [hcur] at halive
  have hother : ∀ o x, o ≠ .tf p → Owns L s o x → c.mem x = s.core.mem x := by
    intro o x ho hx
    exact hm x fun hx' => ho (hi.separate _ _ x hx ⟨hp, hx'⟩)
  refine {
    found := hi.found, separate := hi.separate, holds := ?_, framed := ?_, head := ?_, tail := hi.tail
    suspended := ?_, alive := hi.alive, kernel := hk, user := ?_, freed := hi.freed, self := hi.self }
  · intro q hq hu
    rcases eq_or_ne q p with rfl | hqp
    · change Holds c.mem (s.tf q) (update s.image q i q)
      rw [update_self]
      apply hh
      cases hc : c.user with
      | false => rfl
      | true => exact absurd ⟨hc, hcur⟩ hu
    · change Holds c.mem (s.tf q) (update s.image p i q)
      rw [update_of_ne hqp]
      apply hi.holds_keep (fun x => hother _ x (by simpa using hqp)) hq
      rintro ⟨-, h⟩
      rw [hcur, Thread.proc.injEq] at h
      exact hqp h.symm
  · intro t a ha
    exact ⟨hi.framed_keep (fun j x => hother _ x (by simp)) ha, (hi.framed t a ha).2⟩
  · intro t a k hk hw
    obtain ⟨rfl, -⟩ := hi.head t a k hk hw
    change s.stack s.cur = a :: k at hk
    rw [hcur, hstack] at hk
    cases hk
  · intro t ht ha
    exact hi.suspended_keep (fun x => hother _ x (by simp)) ht ha
  · intro h
    obtain ⟨hvec, hscratch⟩ := hu h
    exact ⟨p, hcur, by rw [← hstack, ← hcur]; rfl, hvec, hscratch⟩

theorem Base.setPlace (hi : Base L s) {p : Fin NPROC} {pl : Place} (h : ∀ q, pl = .syscall q → q = p) :
    Base L (s.setPlace p pl) :=
  { hi with
    self := by
      intro q r hq
      change update s.place p pl q = .syscall r at hq
      rcases eq_or_ne q p with rfl | hqp
      · rw [update_self] at hq
        exact h r hq
      · rw [update_of_ne hqp] at hq
        exact hi.self q r hq }

/-- A process that is there changes its status, and does not disappear. -/
theorem Base.setStatus (hi : Base L s) {p : Fin NPROC} {st : TaskStatus} (hp : s.status p ≠ .free) (hst : st ≠ .free) :
    Base L (s.setStatus p st) := by
  have hfree : ∀ q, (s.setStatus p st).status q = .free ↔ s.status q = .free := by
    intro q
    change update s.status p st q = .free ↔ _
    rcases eq_or_ne q p with rfl | hqp
    · rw [update_self]
      exact ⟨fun h => absurd h hst, fun h => absurd h hp⟩
    · rw [update_of_ne hqp]
  have halive : ∀ t, Alive (s.setStatus p st) t ↔ Alive s t := by
    intro t
    cases t with
    | sched => exact Iff.rfl
    | proc q => exact not_congr (hfree q)
  have howns : ∀ o x, Owns L (s.setStatus p st) o x → Owns L s o x := by
    intro o x ho
    cases o with
    | ctx c => exact ho
    | tf q => exact ⟨fun h => ho.1 ((hfree q).2 h), ho.2⟩
    | frame t i => exact ho
  exact { hi with
    separate := fun o o' x ho ho' => hi.separate o o' x (howns o x ho) (howns o' x ho')
    holds := fun q hq => hi.holds q fun h => hq ((hfree q).2 h)
    suspended := fun t ht ha => hi.suspended t ht ((halive t).1 ha)
    alive := (halive _).2 hi.alive
    freed := fun q hq => hi.freed q ((hfree q).1 hq) }

/-- The running thread gets other calls of `sys_trap_handler` to return from. -/
theorem Base.restack (hi : Base L s) {c : Core} {k : List Act} (huser : s.core.user = false) (hcuser : c.user = false)
    (hvec : c.stvec = s.core.stvec) (hm : ∀ o x, Owns L s o x → c.mem x = s.core.mem x)
    (hsep : ∀ o o' x, Owns L ({ s with core := c }.setStack k) o x → Owns L ({ s with core := c }.setStack k) o' x →
      o = o')
    (hframed : ∀ a ∈ k, Framed c.mem a.base a.reg ∧ a.sstatus.spp = true)
    (hhead : ∀ a k', k = a :: k' → a.phase = .window → c.csr .sepc = a.sepc) (htail : ∀ a ∈ k.tail, a.phase ≠ .window) :
    Base L ({ s with core := c }.setStack k) := by
  refine {
    found := hi.found, separate := hsep, holds := ?_, framed := ?_, head := ?_, tail := ?_, suspended := ?_
    alive := hi.alive, kernel := fun _ => hvec.trans (hi.kernel huser), user := ?_, freed := ?_, self := hi.self }
  · intro p hp _
    apply hi.holds_keep (hm _) hp
    rintro ⟨hu, -⟩
    rw [huser] at hu
    cases hu
  · intro t a ha
    change a ∈ update s.stack s.cur k t at ha
    rcases eq_or_ne t s.cur with rfl | ht
    · rw [update_self] at ha
      exact hframed a ha
    · rw [update_of_ne ht] at ha
      exact ⟨hi.framed_keep (fun i => hm _) ha, (hi.framed t a ha).2⟩
  · intro t a k' hk hw
    change update s.stack s.cur k t = a :: k' at hk
    rcases eq_or_ne t s.cur with rfl | ht
    · rw [update_self] at hk
      exact ⟨rfl, hhead a k' hk hw⟩
    · rw [update_of_ne ht] at hk
      exact absurd (hi.head t a k' hk hw).1 ht
  · intro t a ha
    change a ∈ (update s.stack s.cur k t).tail at ha
    rcases eq_or_ne t s.cur with rfl | ht
    · rw [update_self] at ha
      exact htail a ha
    · rw [update_of_ne ht] at ha
      exact hi.tail t a ha
  · intro t ht ha
    have hne : t ≠ s.cur := ht
    change ∃ reg, s.saved (own t) = some ⟨t, update s.stack s.cur k t, reg⟩ ∧ _
    rw [update_of_ne hne]
    exact hi.suspended_keep (hm _) ht ha
  · intro hu
    have hkernel := hcuser.symm.trans hu
    cases hkernel
  · intro p hp
    have hne : Thread.proc p ≠ s.cur := by
      intro h
      have halive := hi.alive
      rw [← h] at halive
      exact halive hp
    change update s.stack s.cur k (.proc p) = []
    rw [update_of_ne hne]
    exact hi.freed p hp

/-- The running call of `sys_trap_handler` goes on. -/
theorem Base.setTop (hi : Base L s) {a : Act} {k : List Act} (hs : Handling s a k) (a' : Act) (csr : Csr → Word)
    (hbase : a'.base = a.base) (hreg : a'.reg = a.reg) (hspp : a'.sstatus = a.sstatus)
    (hw : a'.phase = .window → csr .sepc = a'.sepc) :
    Base L ({ s with core := { s.core with csr } }.setStack (a' :: k)) := by
  have howns : ∀ o x, Owns L ({ s with core := { s.core with csr } }.setStack (a' :: k)) o x → Owns L s o x := by
    intro o x ho
    cases o with
    | ctx c => exact ho
    | tf q => exact ho
    | frame t i =>
        obtain ⟨b, hb, hx⟩ := ho
        change ((update s.stack s.cur (a' :: k) t).map Act.base).reverse[i]? = some b at hb
        refine ⟨b, ?_, hx⟩
        rcases eq_or_ne t s.cur with rfl | ht
        · rwa [update_self, List.map_cons, hbase, ← List.map_cons, ← hs.stack] at hb
        · rwa [update_of_ne ht] at hb
  apply hi.restack (c := { s.core with csr }) hs.user hs.user rfl
  · intro o x _
    rfl
  · intro o o' x ho ho'
    exact hi.separate o o' x (howns o x ho) (howns o' x ho')
  · intro b hb
    rcases List.mem_cons.1 hb with rfl | hb
    · rw [hbase, hreg, hspp]
      exact hi.framed s.cur a (by rw [hs.stack]; simp)
    · exact hi.framed s.cur b (by rw [hs.stack]; exact List.mem_cons_of_mem a hb)
  · intro b k' hk hb
    obtain ⟨rfl, -⟩ := List.cons.inj hk
    exact hw hb
  · intro b hb
    exact hi.tail s.cur b (by rw [hs.stack]; exact hb)

/-- A trap in the kernel. -/
theorem Base.push (hi : Base L s) {c : Core} {a : Act} (huser : s.core.user = false) (hcuser : c.user = false)
    (hvec : c.stvec = s.core.stvec) (hm : ∀ x, ¬ Area a.base sysFrameSize x → c.mem x = s.core.mem x)
    (hfree : ∀ x, Area a.base sysFrameSize x → ¬ Protected L s x) (hframed : Framed c.mem a.base a.reg)
    (hspp : a.sstatus.spp = true) (ha : a.phase ≠ .window)
    (hcalm : ∀ b k, s.stack s.cur = b :: k → b.phase ≠ .window) :
    Base L ({ s with core := c }.setStack (a :: s.stack s.cur)) := by
  have hkeep : ∀ o x, Owns L s o x → c.mem x = s.core.mem x := fun o x ho => hm x fun h => hfree x h ⟨o, ho⟩
  -- the new frame is the last of the running thread; every other owner owns what it did
  have howns : ∀ o x, Owns L ({ s with core := c }.setStack (a :: s.stack s.cur)) o x →
      Owns L s o x ∨ o = .frame s.cur (s.stack s.cur).length ∧ Area a.base sysFrameSize x := by
    intro o x ho
    cases o with
    | ctx c => exact .inl ho
    | tf q => exact .inl ho
    | frame t i =>
        obtain ⟨b, hb, hx⟩ := ho
        change ((update s.stack s.cur (a :: s.stack s.cur) t).map Act.base).reverse[i]? = some b at hb
        rcases eq_or_ne t s.cur with rfl | ht
        · rw [update_self, List.map_cons, List.reverse_cons] at hb
          rcases Nat.lt_or_ge i (s.stack s.cur).length with hlt | hge
          · rw [List.getElem?_append_left (by simpa using hlt)] at hb
            exact .inl ⟨b, hb, hx⟩
          · rw [List.getElem?_append_right (by simpa using hge)] at hb
            obtain ⟨h0, rfl⟩ := List.getElem?_eq_some_iff.1 hb
            have hi0 : i = (s.stack s.cur).length := by
              simp at h0
              omega
            subst hi0
            exact .inr ⟨rfl, by simpa using hx⟩
        · rw [update_of_ne ht] at hb
          exact .inl ⟨b, hb, hx⟩
  apply hi.restack huser hcuser hvec hkeep
  · intro o o' x ho ho'
    rcases howns o x ho with ho | ⟨rfl, hx⟩
    · rcases howns o' x ho' with ho' | ⟨rfl, hx⟩
      · exact hi.separate o o' x ho ho'
      · exact absurd ⟨o, ho⟩ (hfree x hx)
    · rcases howns o' x ho' with ho' | ⟨rfl, -⟩
      · exact absurd ⟨o', ho'⟩ (hfree x hx)
      · rfl
  · intro b hb
    rcases List.mem_cons.1 hb with rfl | hb
    · exact ⟨hframed, hspp⟩
    · exact ⟨hi.framed_keep (fun i => hkeep _) hb, (hi.framed s.cur b hb).2⟩
  · intro b k' hk hb
    obtain ⟨rfl, -⟩ := List.cons.inj hk
    exact absurd hb ha
  · intro b hb
    change b ∈ s.stack s.cur at hb
    cases hk : s.stack s.cur with
    | nil =>
        rw [hk] at hb
        cases hb
    | cons d k =>
        rw [hk] at hb
        rcases List.mem_cons.1 hb with rfl | hb
        · exact hcalm b k hk
        · exact hi.tail s.cur b (by rw [hk]; exact hb)

/-- The running call of `sys_trap_handler` has returned. -/
theorem Base.pop (hi : Base L s) {c : Core} {a : Act} {k : List Act} (hs : Handling s a k)
    (hcuser : c.user = false) (hvec : c.stvec = s.core.stvec) (hm : c.mem = s.core.mem) :
    Base L ({ s with core := c }.setStack k) := by
  have hwindow : ∀ b ∈ k, b.phase ≠ .window := by
    intro b hb
    exact hi.tail s.cur b (by rw [hs.stack]; exact hb)
  have howns : ∀ o x, Owns L ({ s with core := c }.setStack k) o x → Owns L s o x := by
    intro o x ho
    cases o with
    | ctx c => exact ho
    | tf q => exact ho
    | frame t i =>
        obtain ⟨b, hb, hx⟩ := ho
        change ((update s.stack s.cur k t).map Act.base).reverse[i]? = some b at hb
        refine ⟨b, ?_, hx⟩
        rcases eq_or_ne t s.cur with rfl | ht
        · rw [update_self] at hb
          have hlt : i < (k.map Act.base).reverse.length := (List.getElem?_eq_some_iff.1 hb).1
          rw [hs.stack, List.map_cons, List.reverse_cons, List.getElem?_append_left hlt]
          exact hb
        · rwa [update_of_ne ht] at hb
  apply hi.restack hs.user hcuser hvec
  · intro o x _
    exact congrFun hm x
  · intro o o' x ho ho'
    exact hi.separate o o' x (howns o x ho) (howns o' x ho')
  · intro b hb
    rw [hm]
    exact hi.framed s.cur b (by rw [hs.stack]; exact List.mem_cons_of_mem a hb)
  · intro b k' hk hb
    exact absurd hb (hwindow b (by rw [hk]; simp))
  · intro b hb
    exact hwindow b (List.mem_of_mem_tail hb)

/-- A `swtch` from the context of the running thread to that of another. -/
theorem Base.swtch (hi : Base L s) {u : Thread} (huser : s.core.user = false)
    (hcalm : ∀ a k, s.stack s.cur = a :: k → a.phase ≠ .window) (hu : u ≠ s.cur) (halive : Alive s u) :
    Base L (s.swtch L (own s.cur) (own u)) ∧ (s.swtch L (own s.cur) (own u)).cur = u ∧
      (s.swtch L (own s.cur) (own u)).core.user = false ∧ (s.swtch L (own s.cur) (own u)).stack = s.stack ∧
      Switched s (s.swtch L (own s.cur) (own u)) := by
  obtain ⟨reg, hsaved, hkept⟩ := hi.suspended u hu halive
  have hne : own u ≠ own s.cur := fun e => hu (own_inj e)
  -- the registers at the call
  let c : Core := { s.core with reg := update (update s.core.reg .a0 (L.ctx (own s.cur))) .a1 (L.ctx (own u)) }
  have ha0 : c.reg .a0 = L.ctx (own s.cur) := by simp [c]
  have ha1 : c.reg .a1 = L.ctx (own u) := by simp [c]
  have hreg : ∀ r ∈ context, c.reg r = s.core.reg r := by
    intro r hr
    have h0 : r ≠ .a0 := by rintro rfl; exact absurd hr (by decide)
    have h1 : r ≠ .a1 := by rintro rfl; exact absurd hr (by decide)
    change update (update s.core.reg .a0 _) .a1 _ r = _
    rw [update_of_ne h1, update_of_ne h0]
  obtain ⟨d, hd⟩ : ∃ d, c.exec Trap.swtch = d := ⟨_, rfl⟩
  have hcpu : Riscv.exec Trap.swtch c.toCpu = d.toCpu := by rw [← hd]; rfl
  have hduser : d.user = false := by rw [← hd]; exact huser
  have hdvec : d.stvec = s.core.stvec := by rw [← hd]; rfl
  obtain ⟨hsave, hout⟩ := swtch_saves c.toCpu
  rw [ha0, hcpu] at hsave hout
  have hkeep : ∀ o x, o ≠ .ctx (own s.cur) → Owns L s o x → d.mem x = s.core.mem x := by
    intro o x ho hx
    exact hout x fun hx' => ho (hi.separate _ _ x hx hx')
  have hload : ∀ r ∈ context, d.reg r = reg r := by
    have hmem : Kept (Riscv.exec Trap.swtch c.toCpu).mem (c.reg .a1) reg := by
      rw [ha1, hcpu]
      exact hkept.frame fun x hx => hkeep (.ctx (own u)) x (by simpa using hne) hx
    have hregs := swtch_loads hmem
    rwa [hcpu] at hregs
  -- the state reached, spelled out
  have hstate : s.swtch L (own s.cur) (own u) = { s with
      core := { d with pc := d.reg .ra }
      cur := u
      saved := update s.saved (own s.cur) (some ⟨s.cur, s.stack s.cur, c.reg⟩) } := by
    have hnew : update s.saved (own s.cur) (some ⟨s.cur, s.stack s.cur, c.reg⟩) (own u) =
        some ⟨u, s.stack u, reg⟩ := by
      rw [update_of_ne hne, hsaved]
    have hlost : (!decide (∀ r ∈ context, d.reg r = reg r)) = s.lost := by
      rw [hi.found, decide_eq_true hload]
      rfl
    unfold Sys.swtch
    simp only []
    rw [hnew, hd]
    simp only [update_eq_self, hlost]
    rfl
  rw [hstate]
  refine ⟨?_, rfl, hduser, rfl, ?_, ?_⟩
  · refine {
      found := hi.found, separate := hi.separate, holds := ?_, framed := ?_, head := ?_, tail := hi.tail
      suspended := ?_, alive := halive, kernel := fun _ => hdvec.trans (hi.kernel huser), user := ?_, freed := hi.freed
      self := hi.self }
    · intro p hp _
      apply hi.holds_keep (fun x => hkeep _ x (by simp)) hp
      rintro ⟨h, -⟩
      rw [huser] at h
      cases h
    · intro t a ha
      exact ⟨hi.framed_keep (fun i x => hkeep _ x (by simp)) ha, (hi.framed t a ha).2⟩
    · intro t a k hk hw
      obtain ⟨rfl, -⟩ := hi.head t a k hk hw
      exact absurd hw (hcalm a k hk)
    · intro t ht ha
      change ∃ reg, update s.saved (own s.cur) (some ⟨s.cur, s.stack s.cur, c.reg⟩) (own t) = _ ∧ _
      rcases eq_or_ne t s.cur with rfl | hcur
      · rw [update_self]
        exact ⟨_, rfl, hsave⟩
      · have hown : own t ≠ own s.cur := fun e => hcur (own_inj e)
        rw [update_of_ne hown]
        exact hi.suspended_keep (fun x => hkeep _ x (by simpa using hown)) hcur ha
    · intro h
      have hkernel := hduser.symm.trans h
      cases hkernel
  · exact ⟨_, update_self _ _ _, rfl, hreg⟩
  · exact ⟨_, hsaved, rfl, hload, hload .ra (by decide)⟩

/-- A zombie is freed. -/
theorem Base.reap (hi : Base L s) {c : Fin NPROC} (hc : .proc c ≠ s.cur) (huser : s.core.user = false) :
    Base L { (s.setStatus c .free) with stack := update s.stack (.proc c) [] } := by
  have hfree : ∀ q, q ≠ c → update s.status c .free q = s.status q := fun q hq => update_of_ne hq _ _
  have hstack : ∀ t, t ≠ .proc c → update s.stack (.proc c) [] t = s.stack t := fun t ht => update_of_ne ht _ _
  have hdead : ∀ q, update s.status c .free q ≠ .free → q ≠ c ∧ s.status q ≠ .free := by
    intro q hq
    have hqc : q ≠ c := by
      rintro rfl
      exact hq (update_self _ _ _)
    rw [hfree q hqc] at hq
    exact ⟨hqc, hq⟩
  have hmem : ∀ t a, a ∈ update s.stack (.proc c) [] t → t ≠ .proc c ∧ a ∈ s.stack t := by
    intro t a ha
    rcases eq_or_ne t (.proc c) with rfl | ht
    · rw [update_self] at ha
      cases ha
    · rw [hstack t ht] at ha
      exact ⟨ht, ha⟩
  have howns : ∀ o x, Owns L { (s.setStatus c .free) with stack := update s.stack (.proc c) [] } o x →
      Owns L s o x := by
    intro o x ho
    cases o with
    | ctx c => exact ho
    | tf q => exact ⟨(hdead q ho.1).2, ho.2⟩
    | frame t i =>
        obtain ⟨b, hb, hx⟩ := ho
        change ((update s.stack (.proc c) [] t).map Act.base).reverse[i]? = some b at hb
        rcases eq_or_ne t (.proc c) with rfl | ht
        · simp at hb
        · rw [hstack t ht] at hb
          exact ⟨b, hb, hx⟩
  refine {
    found := hi.found, separate := ?_, holds := ?_, framed := ?_, head := ?_, tail := ?_, suspended := ?_, alive := ?_
    kernel := hi.kernel, user := ?_, freed := ?_, self := hi.self }
  · intro o o' x ho ho'
    exact hi.separate o o' x (howns o x ho) (howns o' x ho')
  · intro p hp hu
    exact hi.holds p (hdead p hp).2 hu
  · intro t a ha
    exact hi.framed t a (hmem t a ha).2
  · intro t a k hk hw
    change update s.stack (.proc c) [] t = a :: k at hk
    have ht := (hmem t a (by rw [hk]; simp)).1
    rw [hstack t ht] at hk
    exact hi.head t a k hk hw
  · intro t a ha
    have ht := (hmem t a (List.mem_of_mem_tail ha)).1
    change a ∈ (update s.stack (.proc c) [] t).tail at ha
    rw [hstack t ht] at ha
    exact hi.tail t a ha
  · intro t ht ha
    have htc : t ≠ .proc c := by
      rintro rfl
      exact ha (update_self _ _ _)
    have halive : Alive s t := by
      cases t with
      | sched => trivial
      | proc q => exact (hdead q ha).2
    change ∃ reg, s.saved (own t) = some ⟨t, update s.stack (.proc c) [] t, reg⟩ ∧ _
    rw [hstack t htc]
    exact hi.suspended t ht halive
  · have halive := hi.alive
    cases hcur : s.cur with
    | sched =>
        change Alive _ s.cur
        rw [hcur]
        trivial
    | proc q =>
        change Alive _ s.cur
        rw [hcur] at halive hc ⊢
        have hqc : q ≠ c := fun e => hc (by rw [e])
        change update s.status c .free q ≠ .free
        rw [hfree q hqc]
        exact halive
  · intro h
    have hkernel := huser.symm.trans h
    cases hkernel
  · intro p hp
    change update s.stack (.proc c) [] (.proc p) = []
    rcases eq_or_ne p c with rfl | hpc
    · rw [update_self]
    · rw [hstack _ (by simpa using hpc)]
      change update s.status c .free p = .free at hp
      rw [hfree p hpc] at hp
      exact hi.freed p hp

end Keep

/-! ## The memory `fork` and `userinit` write -/

section Fork
variable {L : Layout} {m : Memory}

theorem copyWords_out {dst src x : Word} (hx : ¬ Area dst 4096 x) :
    ∀ n, n ≤ 512 → copyWords m dst src n x = m x := by
  intro n
  induction n with
  | zero => intro _; rfl
  | succ n ih =>
      intro hn
      have hout : ¬ Area (dst + BitVec.ofNat 64 (8 * n)) 8 x := fun h => hx (h.offset (by omega))
      rw [copyWords]
      exact (store_out hout).trans (ih (by omega))

/-- Each double word that is not overwritten on the way is copied. -/
theorem copyWords_load {dst src : Word} {i : Nat}
    (hsrc : ∀ x, Area (src + BitVec.ofNat 64 (8 * i)) 8 x → ¬ Area dst 4096 x) :
    ∀ n, i < n → n ≤ 512 →
      load (copyWords m dst src n) (dst + BitVec.ofNat 64 (8 * i)) = load m (src + BitVec.ofNat 64 (8 * i)) := by
  intro n
  induction n with
  | zero => intro hi; omega
  | succ n ih =>
      intro hi hn
      rw [copyWords]
      rcases Nat.lt_succ_iff_lt_or_eq.1 hi with hlt | rfl
      · apply Eq.trans _ (ih hlt (by omega))
        apply load_store_out
        intro x hx
        exact hx.apart (.inl (by omega)) (by omega) (by omega)
      · rw [load_store]
        exact load_frame fun x hx => copyWords_out (hsrc x hx) i (by omega)

theorem clearWords_out {dst x : Word} (hx : ¬ Area dst 4096 x) : ∀ n, n ≤ 512 → clearWords m dst n x = m x := by
  intro n
  induction n with
  | zero => intro _; rfl
  | succ n ih =>
      intro hn
      have hout : ¬ Area (dst + BitVec.ofNat 64 (8 * n)) 8 x := fun h => hx (h.offset (by omega))
      rw [clearWords]
      exact (store_out hout).trans (ih (by omega))

theorem clearWords_load {dst : Word} {i : Nat} :
    ∀ n, i < n → n ≤ 512 → load (clearWords m dst n) (dst + BitVec.ofNat 64 (8 * i)) = 0 := by
  intro n
  induction n with
  | zero => intro hi; omega
  | succ n ih =>
      intro hi hn
      rw [clearWords]
      rcases Nat.lt_succ_iff_lt_or_eq.1 hi with hlt | rfl
      · apply Eq.trans _ (ih hlt (by omega))
        apply load_store_out
        intro x hx
        exact hx.apart (.inl (by omega)) (by omega) (by omega)
      · exact load_store _ _ _

theorem newContext_out {a x : Word} (hx : ¬ Area a contextSize x) (kstack : Word) :
    newContext L m a kstack x = m x := by
  have hra : ¬ Area (a + BitVec.ofNat 64 (contextOffset .ra)) 8 x := fun h => hx (h.offset (by decide))
  have hsp : ¬ Area (a + BitVec.ofNat 64 (contextOffset .sp)) 8 x := fun h => hx (h.offset (by decide))
  unfold newContext
  rw [store_out hsp, store_out hra]
  apply writes_out hx
  intro f hf
  obtain ⟨i, hi, rfl⟩ := List.mem_map.1 hf
  have := List.mem_range.1 hi
  unfold contextSize
  omega

/-- A new process starts in `forkret` at the top of its stack. -/
theorem newContext_kept (m : Memory) (a kstack : Word) : Kept (newContext L m a kstack) a (newReg L kstack) := by
  have hoffset : ∀ r ∈ context, r ≠ .ra → r ≠ .sp → ∃ i < 12, contextOffset r = 8 * i := by decide
  have hra : contextOffset .ra = 96 := by decide
  have hsp : contextOffset .sp = 104 := by decide
  have hzeros : Apart contextSize (((List.range 14).map fun i => (8 * i, (0 : Word))).map Prod.fst) := by
    rw [List.map_map]
    exact ⟨by decide, by decide⟩
  intro r hr
  unfold newContext newReg
  rcases eq_or_ne r .sp with rfl | hrsp
  · rw [update_self, load_store]
  · rcases eq_or_ne r .ra with rfl | hrra
    · rw [update_of_ne hrsp, update_self, load_store_out, load_store]
      intro x hx
      exact hx.apart (.inl (by decide)) (by decide) (by decide)
    · obtain ⟨i, hi, ho⟩ := hoffset r hr hrra hrsp
      rw [update_of_ne hrsp, update_of_ne hrra, ho, load_store_out, load_store_out]
      · have hmem : (8 * i, (0 : Word)) ∈ (List.range 14).map fun i => (8 * i, (0 : Word)) :=
          List.mem_map.2 ⟨i, List.mem_range.2 (by omega), rfl⟩
        have hsize : contextSize ≤ 2 ^ 64 := by decide
        exact load_writes (f := (8 * i, 0)) a hsize _ m hzeros hmem
      · intro x hx
        rw [hra]
        exact hx.apart (.inl (by omega)) (by omega) (by decide)
      · intro x hx
        rw [hsp]
        exact hx.apart (.inl (by omega)) (by omega) (by decide)

/-- The child's trapframe is the parent's, but for `a0`. -/
theorem childMem_holds {ctx kstack tf parent : Word} {i : Image} (h : Holds m parent i)
    (hctx : ∀ x, Area parent trapframeSize x → ¬ Area ctx contextSize x)
    (htf : ∀ x, Area parent trapframeSize x → ¬ Area tf 4096 x) :
    Holds (childMem L m ctx kstack tf parent) tf (childImage i) := by
  have hcopy : ∀ f : Field, field (copyWords (newContext L m ctx kstack) tf parent 512) tf f = field m parent f := by
    intro f
    have hidx : trapframe.idxOf f < 36 := List.idxOf_lt_length_of_mem (mem_trapframe f)
    have hin : ∀ x, Area (parent + BitVec.ofNat 64 f.offset) 8 x → Area parent trapframeSize x :=
      fun x hx => hx.offset (offset_le f)
    have hload := copyWords_load (m := newContext L m ctx kstack) (i := trapframe.idxOf f)
      (fun x hx => htf x (hin x hx)) 512 (by omega) le_rfl
    apply hload.trans
    exact load_frame fun x hx => newContext_out (hctx x (hin x hx)) kstack
  constructor
  · intro r
    change field (setField _ tf (.reg .a0) 0) tf (.reg r) = update i.reg .a0 0 r
    rcases eq_or_ne r .a0 with rfl | hr
    · rw [field_setField, update_self]
    · rw [field_setField_of_ne (by simpa using hr), update_of_ne hr, hcopy, h.reg]
  · change field (setField _ tf (.reg .a0) 0) tf .epc = i.pc
    rw [field_setField_of_ne (by simp), hcopy, h.epc]

theorem childMem_out {ctx kstack tf parent x : Word} (htf : ¬ Area tf 4096 x) :
    childMem L m ctx kstack tf parent x = newContext L m ctx kstack x := by
  unfold childMem
  have hsmall : ¬ Area tf trapframeSize x := fun h => htf (h.mono (by decide))
  rw [setField_out hsmall]
  exact copyWords_out htf 512 le_rfl

/-- The first trapframe is zero, but for `epc` and `sp`. -/
theorem userinitMem_holds (ctx kstack tf code stack : Word) :
    Holds (userinitMem L m ctx kstack tf code stack) tf (firstImage code stack) := by
  have hclear : ∀ f : Field, field (clearWords (newContext L m ctx kstack) tf 512) tf f = 0 := by
    intro f
    have hidx : trapframe.idxOf f < 36 := List.idxOf_lt_length_of_mem (mem_trapframe f)
    exact clearWords_load 512 (by omega) le_rfl
  constructor
  · intro r
    change field (setField _ tf (.reg .sp) _) tf (.reg r) = update (fun _ => (0 : Word)) .sp (stack + 4096) r
    rcases eq_or_ne r .sp with rfl | hr
    · rw [field_setField, update_self]
    · rw [field_setField_of_ne (by simpa using hr), update_of_ne hr, field_setField_of_ne (by simp), hclear]
  · change field (setField _ tf (.reg .sp) _) tf .epc = code
    rw [field_setField_of_ne (by simp), field_setField]

theorem userinitMem_out {ctx kstack tf code stack x : Word} (htf : ¬ Area tf 4096 x) :
    userinitMem L m ctx kstack tf code stack x = newContext L m ctx kstack x := by
  unfold userinitMem
  have hsmall : ¬ Area tf trapframeSize x := fun h => htf (h.mono (by decide))
  rw [setField_out hsmall, setField_out hsmall]
  exact clearWords_out htf 512 le_rfl

/-- A process is made, with all that belongs to it. -/
theorem Base.made {s : Sys} (hi : Base L s) {c : Fin NPROC} {tf : Word} (kstack : Word) {i : Image}
    (huser : s.core.user = false) (hc : s.status c = .free) (hpage : ∀ x, Area tf 4096 x → ¬ Protected L s x)
    (hout : ∀ x, ¬ Area tf 4096 x → m x = newContext L s.core.mem (L.ctx (.proc c)) kstack x) (hholds : Holds m tf i) :
    Base L (s.made L c tf kstack m i) := by
  have hnotuser : ∀ q, ¬ InUser s q := by
    rintro q ⟨hu, -⟩
    rw [huser] at hu
    cases hu
  have hstack : update s.stack (.proc c) [] = s.stack := by
    rw [← hi.freed c hc, update_eq_self]
  have hfree : ∀ o x, Owns L s o x → ¬ Area tf 4096 x := fun o x ho hx => hpage x hx ⟨o, ho⟩
  have hkeep : ∀ o x, o ≠ .ctx (.proc c) → Owns L s o x → m x = s.core.mem x := by
    intro o x hne ho
    rw [hout x (hfree o x ho), newContext_out fun hx => hne (hi.separate _ _ x ho hx)]
  have howns : ∀ o x, Owns L (s.made L c tf kstack m i) o x → Owns L s o x ∨ o = .tf c ∧ Area tf 4096 x := by
    intro o x ho
    cases o with
    | ctx c => exact .inl ho
    | frame t i =>
        obtain ⟨b, hb, hx⟩ := ho
        change ((update s.stack (.proc c) [] t).map Act.base).reverse[i]? = some b at hb
        rw [hstack] at hb
        exact .inl ⟨b, hb, hx⟩
    | tf r =>
        obtain ⟨hr, hx⟩ := ho
        change update s.status c .ready r ≠ .free at hr
        change Area (update s.tf c tf r) trapframeSize x at hx
        rcases eq_or_ne r c with rfl | hrc
        · rw [update_self] at hx
          exact .inr ⟨rfl, hx.mono (by decide)⟩
        · rw [update_of_ne hrc] at hr hx
          exact .inl ⟨hr, hx⟩
  refine {
    found := hi.found, separate := ?_, holds := ?_, framed := ?_, head := ?_, tail := ?_, suspended := ?_
    alive := ?_, kernel := hi.kernel, user := ?_, freed := ?_, self := ?_ }
  · intro o o' x ho ho'
    rcases howns o x ho with ho | ⟨rfl, hx⟩
    · rcases howns o' x ho' with ho' | ⟨rfl, hx⟩
      · exact hi.separate o o' x ho ho'
      · exact absurd hx (hfree o x ho)
    · rcases howns o' x ho' with ho' | ⟨rfl, -⟩
      · exact absurd hx (hfree o' x ho')
      · rfl
  · intro r hr _
    change Holds _ (update s.tf c tf r) (update s.image c i r)
    rcases eq_or_ne r c with rfl | hrc
    · rw [update_self, update_self]
      exact hholds
    · change update s.status c .ready r ≠ .free at hr
      rw [update_of_ne hrc] at hr ⊢
      rw [update_of_ne hrc]
      exact hi.holds_keep (fun x => hkeep _ x (by simp)) hr (hnotuser r)
  · intro t a ha
    change a ∈ update s.stack (.proc c) [] t at ha
    rw [hstack] at ha
    exact ⟨hi.framed_keep (fun i x => hkeep _ x (by simp)) ha, (hi.framed t a ha).2⟩
  · intro t a k hk hw
    change update s.stack (.proc c) [] t = a :: k at hk
    rw [hstack] at hk
    exact hi.head t a k hk hw
  · intro t a ha
    change a ∈ (update s.stack (.proc c) [] t).tail at ha
    rw [hstack] at ha
    exact hi.tail t a ha
  · intro t ht ha
    change ∃ reg, update s.saved (.proc c) _ (own t) = some ⟨t, update s.stack (.proc c) [] t, reg⟩ ∧ _
    rw [hstack]
    rcases eq_or_ne t (.proc c) with rfl | htc
    · refine ⟨newReg L kstack, ?_, ?_⟩
      · rw [own, update_self, hi.freed c hc]
      · apply (newContext_kept s.core.mem (L.ctx (.proc c)) kstack).frame
        exact fun x hx => hout x (hfree (.ctx (.proc c)) x hx)
    · have hown : own t ≠ .proc c := fun e => htc (own_inj (e.trans rfl : own t = own (.proc c)))
      have halive : Alive s t := by
        cases t with
        | sched => trivial
        | proc r =>
            have hrc : r ≠ c := fun e => htc (by rw [e])
            change update s.status c .ready r ≠ .free at ha
            rwa [update_of_ne hrc] at ha
      rw [update_of_ne hown]
      exact hi.suspended_keep (fun x => hkeep _ x (by simpa using hown)) ht halive
  · have halive := hi.alive
    change Alive _ s.cur
    cases hcur : s.cur with
    | sched => trivial
    | proc p =>
        rw [hcur] at halive
        change update s.status c .ready p ≠ .free
        rcases eq_or_ne p c with rfl | hpc
        · exact absurd hc halive
        · rw [update_of_ne hpc]
          exact halive
  · intro h
    have hkernel := huser.symm.trans h
    cases hkernel
  · intro r hr
    change update s.stack (.proc c) [] (.proc r) = []
    change update s.status c .ready r = .free at hr
    rw [hstack]
    rcases eq_or_ne r c with rfl | hrc
    · exact hi.freed r hc
    · rw [update_of_ne hrc] at hr
      exact hi.freed r hr
  · intro r r' hr
    change update s.place c .ret r = _ at hr
    rcases eq_or_ne r c with rfl | hrc
    · rw [update_self] at hr
      cases hr
    · rw [update_of_ne hrc] at hr
      exact hi.self r r' hr

theorem Base.fork {s : Sys} (hi : Base L s) {p q c : Fin NPROC} {tf : Word} (kstack : Word)
    (hat : At s p (.syscall q)) (hc : s.status c = .free) (hpage : ∀ x, Area tf 4096 x → ¬ Protected L s x) :
    Base L (s.forked L p p c tf kstack) := by
  have hp : s.status p ≠ .free := by
    have halive := hi.alive
    rwa [hat.cur] at halive
  have hnotuser : ¬ InUser s p := by
    rintro ⟨hu, -⟩
    rw [hat.user] at hu
    cases hu
  apply hi.made kstack hat.user hc hpage fun x hx => childMem_out hx
  apply childMem_holds (hi.holds p hp hnotuser)
  · intro x hx hctx
    have := hi.separate (.tf p) (.ctx (.proc c)) x ⟨hp, hx⟩ hctx
    cases this
  · exact fun x hx hin => hpage x hin ⟨.tf p, hp, hx⟩

end Fork

/-! ## Steps -/

section Steps
variable {L : Layout} {s t : Sys}

theorem Holds.arguments {m : Memory} {tf : Word} {i : Image} (h : Holds m tf i) : Arguments m tf i.reg where
  number := h.reg .a7
  arg := by simp [argraw, h.reg]

theorem Inv.myproc (hi : Inv L s) {p q : Fin NPROC} (hcur : s.cur = .proc p) (hq : s.cpuProc = some q) : q = p := by
  rw [(hi.running p hcur).1, Option.some.injEq] at hq
  exact hq.symm

/-- `user_trap_entry` on a trap from user mode. -/
theorem Inv.userTrap (hi : Inv L s) {p : Fin NPROC} {cause : Cause} (huser : s.core.user = true)
    (hcur : s.cur = .proc p) :
    Inv L (s.userTrapped p cause) ∧ Transparent s (.userTrap cause) (s.userTrapped p cause) := by
  obtain ⟨q, hq, hstack, -, hscratch⟩ := hi.user huser
  obtain rfl : p = q := by simpa [hcur] using hq
  rw [hcur] at hstack
  obtain ⟨d, hd⟩ : ∃ d, s.core.trap.exec userTrapEntry = d := ⟨_, rfl⟩
  have hcpu : Riscv.exec userTrapEntry s.core.trap.toCpu = d.toCpu := by rw [← hd]; rfl
  have hduser : d.user = false := by rw [← hd]; rfl
  have htrap : s.core.trap.csr .sscratch = s.tf p ∧ s.core.trap.csr .sepc = s.core.pc := by
    simp [Core.trap, hscratch]
  obtain ⟨hholds, hout⟩ := userTrapEntry_run s.core.trap.toCpu
  rw [hcpu, htrap.1] at hholds hout
  rw [htrap.2] at hholds
  unfold Sys.userTrapped
  rw [hd]
  refine ⟨⟨?_, hi.running⟩, fun q hq => ?_⟩
  · apply Base.setPlace
    · apply hi.bottom (c := { d with stvec := .sysTrapVector }) hcur hstack hout
      · exact fun _ => hholds
      · exact fun _ => rfl
      · intro h
        have hkernel := hduser.symm.trans h
        cases hkernel
    · intro q hq
      cases cause <;> cases hq
  · obtain rfl : p = q := by simpa [hcur] using hq
    have himage : update s.image p ⟨s.core.reg, s.core.pc⟩ p = ⟨s.core.reg, s.core.pc⟩ := update_self _ _ _
    refine ⟨himage, ?_, hholds.arguments⟩
    change Holds d.mem (s.tf p) (update s.image p ⟨s.core.reg, s.core.pc⟩ p)
    rw [himage]
    exact hholds

/-- A process in `usertrap` owns its own trapframe. -/
theorem Inv.setField (hi : Inv L s) {p : Fin NPROC} {pl : Place} (hat : At s p pl) (f : Field) (v : Word) {i : Image}
    (hh : Holds (setField s.core.mem (s.tf p) f v) (s.tf p) i) (b : Bool) :
    Base L (((s.setMem (Trap.setField s.core.mem (s.tf p) f v)).setSie b).setImage p i) := by
  apply hi.bottom (c := { s.core with
    mem := Trap.setField s.core.mem (s.tf p) f v
    sstatus := { s.core.sstatus with sie := b } }) hat.cur hat.stack
  · exact fun x hx => setField_out hx _ _ _
  · exact fun _ => hh
  · exact hi.kernel
  · intro h
    have hkernel := hat.user.symm.trans h
    cases hkernel

theorem Inv.image (hi : Inv L s) {p : Fin NPROC} {pl : Place} (hat : At s p pl) :
    Holds s.core.mem (s.tf p) (s.image p) := by
  have hp : s.status p ≠ .free := by
    rw [(hi.running p hat.cur).2]
    simp
  apply hi.holds p hp
  rintro ⟨h, -⟩
  rw [hat.user] at h
  cases h

theorem Inv.skip (hi : Inv L s) {p : Fin NPROC} (hat : At s p .ecall) :
    Inv L ((((s.setMem (Trap.setField s.core.mem (s.tf p) .epc (field s.core.mem (s.tf p) .epc + 4))).setSie
      true).setImage p { s.image p with pc := (s.image p).pc + 4 }).setPlace p (.syscall p)) := by
  have himage := hi.image hat
  refine ⟨Base.setPlace (hi.setField hat .epc _ ⟨fun r => ?_, ?_⟩ true) ?_, hi.running⟩
  · rw [field_setField_of_ne (by simp), himage.reg]
  · rw [field_setField, himage.epc]
  · intro q hq
    cases hq
    rfl

theorem Holds.setA0 {m : Memory} {tf : Word} {i : Image} (h : Holds m tf i) (v : Word) :
    Holds (Trap.setField m tf (.reg .a0) v) tf { i with reg := update i.reg .a0 v } := by
  refine ⟨fun r => ?_, ?_⟩
  · change _ = update i.reg .a0 v r
    rcases eq_or_ne r .a0 with rfl | hr
    · rw [field_setField, update_self]
    · rw [field_setField_of_ne (by simpa using hr), update_of_ne hr, h.reg]
  · rw [field_setField_of_ne (by simp), h.epc]

theorem Inv.result (hi : Inv L s) {p : Fin NPROC} {v : Word} (hat : At s p (.syscall p)) :
    Inv L (((s.setMem (Trap.setField s.core.mem (s.tf p) (.reg .a0) v)).setImage p
      { s.image p with reg := update (s.image p).reg .a0 v }).setPlace p .ret) := by
  have himage := (hi.image hat).setA0 v
  exact ⟨Base.setPlace (hi.setField hat (.reg .a0) v himage s.core.sstatus.sie) nofun, hi.running⟩

/-- What `usertrapret` and the `sret` leave. -/
structure Returned (s : Sys) (p : Fin NPROC) (d : Core) : Prop where
  reg : d.reg = (s.image p).reg
  pc : d.pc = (s.image p).pc
  user : d.user = true
  vector : d.stvec = .userTrapEntry
  sscratch : d.csr .sscratch = s.tf p
  stack : field d.mem (s.tf p) .kernelSp = s.kstack p + 4096
  out : ∀ x, ¬ Area (s.tf p) trapframeSize x → d.mem x = s.core.mem x

theorem usertrapret_run {p : Fin NPROC} (himage : Holds s.core.mem (s.tf p) (s.image p)) :
    Returned s p (s.usertrapret L p).sret := by
  obtain ⟨m, hm⟩ : ∃ m, Trap.setField (Trap.setField (Trap.setField (Trap.setField s.core.mem (s.tf p) .kernelSp
    (s.kstack p + 4096)) (s.tf p) .kernelTrap L.usertrap) (s.tf p) .kernelHartid (s.core.reg .tp)) (s.tf p) .kernelSatp
      L.satp = m := ⟨_, rfl⟩
  have hfield : ∀ f : Field, f ≠ .kernelSp → f ≠ .kernelTrap → f ≠ .kernelHartid → f ≠ .kernelSatp →
      field m (s.tf p) f = field s.core.mem (s.tf p) f := by
    intro f h₁ h₂ h₃ h₄
    rw [← hm, field_setField_of_ne h₄, field_setField_of_ne h₃, field_setField_of_ne h₂, field_setField_of_ne h₁]
  have hstack : field m (s.tf p) .kernelSp = s.kstack p + 4096 := by
    rw [← hm, field_setField_of_ne (by simp), field_setField_of_ne (by simp), field_setField_of_ne (by simp),
      field_setField]
  have hout : ∀ x, ¬ Area (s.tf p) trapframeSize x → m x = s.core.mem x := by
    intro x hx
    rw [← hm, setField_out hx, setField_out hx, setField_out hx, setField_out hx]
  obtain ⟨c, hc⟩ : ∃ c : Core, c = { s.core with
    mem := m
    stvec := .userTrapEntry
    sstatus := { s.core.sstatus with sie := false, spie := true, spp := false }
    reg := update s.core.reg .a0 (s.tf p) } := ⟨_, rfl⟩
  have hcore : s.usertrapret L p = c.exec returnToUser := by
    rw [hc, ← hm]
    rfl
  have ha0 : c.reg .a0 = s.tf p := by
    rw [hc]
    change update s.core.reg .a0 (s.tf p) .a0 = s.tf p
    rw [update_self]
  have hcmem : c.mem = m := by rw [hc]
  obtain ⟨hreg, hsepc, hscratch, hmem⟩ := returnToUser_run c.toCpu
  rw [ha0, hcmem] at hreg hsepc
  rw [ha0] at hscratch
  rw [hcmem] at hmem
  obtain ⟨d, hd⟩ : ∃ d, c.exec returnToUser = d := ⟨_, rfl⟩
  have hcpu : Riscv.exec returnToUser c.toCpu = d.toCpu := by rw [← hd]; rfl
  have hspp : d.sstatus.spp = false := by rw [← hd, hc]; rfl
  have hvec : d.stvec = .userTrapEntry := by rw [← hd, hc]; rfl
  rw [hcpu] at hreg hsepc hscratch hmem
  rw [hcore, hd]
  refine ⟨?_, ?_, ?_, hvec, hscratch, ?_, ?_⟩
  · funext r
    change d.reg r = _
    rw [hreg, hfield _ (by simp) (by simp) (by simp) (by simp), himage.reg]
  · change d.csr .sepc = _
    rw [hsepc, hfield _ (by simp) (by simp) (by simp) (by simp), himage.epc]
  · change (!d.sstatus.spp) = true
    rw [hspp]
    rfl
  · change field d.mem _ _ = _
    rw [hmem, hstack]
  · intro x hx
    change d.mem x = _
    rw [hmem, hout x hx]

/-- `usertrapret`, and the `sret`. -/
theorem Inv.usertrapret (hi : Inv L s) {p : Fin NPROC} (hat : At s p .ret) :
    Returned s p (s.usertrapret L p).sret ∧ Base L ({ s with core := (s.usertrapret L p).sret }.setPlace p .user) := by
  have hback := usertrapret_run (L := L) (hi.image hat)
  obtain ⟨d, hd⟩ : ∃ d, (s.usertrapret L p).sret = d := ⟨_, rfl⟩
  rw [hd] at hback ⊢
  refine ⟨hback, Base.setPlace ?_ nofun⟩
  have hbase : Base L ({ s with core := d }.setImage p (s.image p)) := by
    apply hi.bottom hat.cur hat.stack hback.out
    · intro h
      rw [hback.user] at h
      cases h
    · intro h
      rw [hback.user] at h
      cases h
    · exact fun _ => ⟨hback.vector, hback.sscratch⟩
  have himage : update s.image p (s.image p) = s.image := update_eq_self p s.image
  unfold Sys.setImage at hbase
  rw [himage] at hbase
  exact hbase

/-- `sys_trap_vector` on an interrupt in the kernel. -/
theorem Inv.trap (hi : Inv L s) {cause : Cause} (huser : s.core.user = false)
    (hfree : ∀ x, Area (frameBase (s.core.reg .sp)) sysFrameSize x → ¬ Protected L s x)
    (hok : Calm s (.trap cause)) (hcause : cause ≠ .ecall) :
    Inv L (s.trapped cause) ∧ Transparent s (.trap cause) (s.trapped cause) := by
  obtain ⟨d, hd⟩ : ∃ d, s.core.trap.exec sysTrapVector = d := ⟨_, rfl⟩
  have hcpu : Riscv.exec sysTrapVector s.core.trap.toCpu = d.toCpu := by rw [← hd]; rfl
  have hduser : d.user = false := by rw [← hd]; rfl
  have hvec : d.stvec = s.core.stvec := by rw [← hd]; rfl
  obtain ⟨hframed, hout, -⟩ := sysTrapVector_run s.core.trap.toCpu
  rw [hcpu] at hframed hout
  have hphase : cause.phase ≠ .window := by cases cause <;> simp [Cause.phase]
  have hspp : s.core.trap.sstatus = ⟨false, s.core.sstatus.sie, true⟩ := by simp [Core.trap, huser]
  unfold Sys.trapped
  rw [hd]
  have hsepc : s.core.trap.csr .sepc = s.core.pc := by
    change update s.core.csr .sepc s.core.pc .sepc = s.core.pc
    rw [update_self]
  have hentered : s.core.trap.sstatus.spp = true := by
    rw [hspp]
  obtain ⟨a, ha⟩ : ∃ a : Act,
    ⟨frameBase (s.core.reg .sp), s.core.reg, s.core.trap.csr .sepc, s.core.trap.sstatus, cause.phase⟩ = a := ⟨_, rfl⟩
  have hstack : update s.stack s.cur (a :: s.stack s.cur) s.cur = a :: s.stack s.cur := update_self _ _ _
  rw [ha]
  refine ⟨⟨?_, hi.running⟩, ⟨a, hstack, ?_⟩⟩
  · subst ha
    exact hi.push huser hduser hvec hout hfree hframed hentered hphase hok
  · subst ha
    exact ⟨rfl, hsepc, hspp⟩

/-- The second half of `sys_trap_vector`, with its frame in place. -/
theorem trapExit_run {a : Act} (hframed : Framed s.core.mem a.base a.reg) :
    (s.trapExit a).reg = a.reg ∧ (s.trapExit a).csr = s.core.csr ∧ (s.trapExit a).mem = s.core.mem ∧
    (s.trapExit a).sstatus = a.sstatus ∧ (s.trapExit a).stvec = s.core.stvec := by
  obtain ⟨c, hc⟩ : ∃ c : Core, c = { s.core with sstatus := a.sstatus, reg := update s.core.reg .sp a.base } := ⟨_, rfl⟩
  have hexit : s.trapExit a = c.exec sysTrapReturn := by
    unfold Sys.trapExit
    rw [hc]
  have hsp : c.reg .sp = a.base := by
    rw [hc]
    change update s.core.reg .sp a.base .sp = a.base
    rw [update_self]
  have hsame : c.mem = s.core.mem ∧ c.csr = s.core.csr := by
    rw [hc]
    exact ⟨rfl, rfl⟩
  have hframe : Framed c.toCpu.mem (c.toCpu.reg .sp) a.reg := by
    rw [hsp, hsame.1]
    exact hframed
  obtain ⟨hreg, hcsr, hmem⟩ := sysTrapReturn_run hframe
  rw [hsame.2] at hcsr
  rw [hsame.1] at hmem
  obtain ⟨d, hd⟩ : ∃ d, c.exec sysTrapReturn = d := ⟨_, rfl⟩
  have hcpu : Riscv.exec sysTrapReturn c.toCpu = d.toCpu := by rw [← hd]; rfl
  have hstatus : d.sstatus = a.sstatus := by rw [← hd, hc]; rfl
  have hvec : d.stvec = s.core.stvec := by rw [← hd, hc]; rfl
  rw [hcpu] at hreg hcsr hmem
  rw [hexit, hd]
  exact ⟨hreg, hcsr, hmem, hstatus, hvec⟩

theorem Inv.trapReturn (hi : Inv L s) {a : Act} {k : List Act} (hs : Handling s a k) (hw : a.phase = .window) :
    (s.trapExit a).reg = a.reg ∧ (s.trapExit a).csr .sepc = a.sepc ∧
    Base L ({ s with core := (s.trapExit a).sret }.setStack k) := by
  obtain ⟨hframed, hspp⟩ := hi.framed s.cur a (by rw [hs.stack]; simp)
  obtain ⟨-, hsepc⟩ := hi.head s.cur a k hs.stack hw
  obtain ⟨hreg, hcsr, hmem, hstatus, hvec⟩ := trapExit_run hframed
  refine ⟨hreg, by rw [hcsr, hsepc], hi.pop hs ?_ hvec hmem⟩
  change (!(s.trapExit a).sstatus.spp) = false
  rw [hstatus, hspp]
  rfl

/-- What `swtch` does not touch. -/
structure SwtchKeeps (s t : Sys) : Prop where
  cpuProc : t.cpuProc = s.cpuProc
  status : t.status = s.status
  tf : t.tf = s.tf
  kstack : t.kstack = s.kstack
  place : t.place = s.place
  sstatus : t.core.sstatus = s.core.sstatus
  user : t.core.user = s.core.user
  vector : t.core.stvec = s.core.stvec

theorem swtch_keeps (old new : Ctx) : SwtchKeeps s (s.swtch L old new) := by
  unfold Sys.swtch
  simp only []
  split <;> exact ⟨rfl, rfl, rfl, rfl, rfl, rfl, rfl, rfl⟩

theorem At.calm {p : Fin NPROC} {pl : Place} (h : At s p pl) :
    ∀ a k, s.stack s.cur = a :: k → a.phase ≠ .window := by
  intro a k hk
  rw [h.cur, h.stack] at hk
  cases hk

/-- A process gives the hart back to the scheduler. -/
theorem Base.leave (hi : Base L s) {p : Fin NPROC} (hcur : s.cur = .proc p) (huser : s.core.user = false)
    (hcalm : ∀ a k, s.stack s.cur = a :: k → a.phase ≠ .window) {st : TaskStatus} (hst : st ≠ .free) :
    Inv L ((s.setStatus p st).swtch L (.proc p) .cpu) ∧
      (((s.setStatus p st).swtch L (.proc p) .cpu).cur = .sched ∧
        ((s.setStatus p st).swtch L (.proc p) .cpu).core.user = false ∧
        ((s.setStatus p st).swtch L (.proc p) .cpu).stack = s.stack) ∧
      Switched s ((s.setStatus p st).swtch L (.proc p) .cpu) := by
  have hp : s.status p ≠ .free := by
    have halive := hi.alive
    rwa [hcur] at halive
  have hown : own (s.setStatus p st).cur = .proc p := by
    change own s.cur = _
    rw [hcur]
    rfl
  have hne : Thread.sched ≠ (s.setStatus p st).cur := by
    change _ ≠ s.cur
    rw [hcur]
    simp
  obtain ⟨hbase, hto, hkernel, hstack, hswitched⟩ := (hi.setStatus hp hst).swtch (u := .sched) huser hcalm hne trivial
  rw [hown] at hbase hto hkernel hstack hswitched
  refine ⟨⟨hbase, fun q hq => ?_⟩, ⟨hto, hkernel, hstack⟩, ⟨hswitched.saves, hswitched.loads⟩⟩
  have hsched := hto.symm.trans hq
  cases hsched

/-- The scheduler switches to the process it has chosen. -/
theorem Inv.dispatch (hi : Inv L s) {p : Fin NPROC} (hs : Scheduling s) (hcpu : s.cpuProc = some p)
    (hp : s.status p = .running) : Inv L (s.swtch L .cpu (.proc p)) ∧
      ((s.swtch L .cpu (.proc p)).cur = .proc p ∧ (s.swtch L .cpu (.proc p)).core.user = false ∧
        (s.swtch L .cpu (.proc p)).stack = s.stack) ∧
      Switched s (s.swtch L .cpu (.proc p)) := by
  have hown : own s.cur = .cpu := by
    rw [hs.cur]
    rfl
  have hcalm : ∀ a k, s.stack s.cur = a :: k → a.phase ≠ .window := by
    intro a k hk
    rw [hs.cur, hs.stack] at hk
    cases hk
  have hne : Thread.proc p ≠ s.cur := by
    rw [hs.cur]
    simp
  have halive : Alive s (.proc p) := by
    change s.status p ≠ .free
    rw [hp]
    simp
  obtain ⟨hbase, hto, hkernel, hstack, hswitched⟩ := hi.toBase.swtch (u := .proc p) hs.user hcalm hne halive
  rw [hown] at hbase hto hkernel hstack hswitched
  refine ⟨⟨hbase, fun q hq => ?_⟩, ⟨hto, hkernel, hstack⟩, hswitched⟩
  have hkeeps := swtch_keeps (L := L) (s := s) .cpu (.proc p)
  obtain rfl : p = q := Thread.proc.inj (hto.symm.trans hq)
  rw [hkeeps.status, hkeeps.cpuProc]
  exact ⟨hcpu, hp⟩

/-- `yield()` of `usertrap`. -/
theorem Inv.yieldUser (hi : Inv L s) {p : Fin NPROC} (hat : At s p .timer) :
    Inv L (((s.setPlace p .ret).setStatus p .ready).swtch L (.proc p) .cpu) ∧
      (((s.setPlace p .ret).setStatus p .ready).swtch L (.proc p) .cpu).stack = s.stack ∧
      Switched s (((s.setPlace p .ret).setStatus p .ready).swtch L (.proc p) .cpu) := by
  have hbase : Base L (s.setPlace p .ret) := hi.setPlace nofun
  have hready : TaskStatus.ready ≠ .free := by simp
  obtain ⟨hinv, ⟨-, -, hstack⟩, hsw⟩ := hbase.leave hat.cur hat.user hat.calm hready
  exact ⟨hinv, hstack, ⟨hsw.saves, hsw.loads⟩⟩

/-- `yield()` of `sys_trap_handler`, on the stack of a process. -/
theorem Inv.yieldTrap (hi : Inv L s) {a : Act} {k : List Act} {p : Fin NPROC} (hs : Handling s a k)
    (hcur : s.cur = .proc p) :
    Inv L (((s.setStack ({ a with phase := .handled } :: k)).setStatus p .ready).swtch L (.proc p) .cpu) ∧
      (((s.setStack ({ a with phase := .handled } :: k)).setStatus p .ready).swtch L (.proc p) .cpu).stack =
        update s.stack s.cur ({ a with phase := .handled } :: k) ∧
      Switched s (((s.setStack ({ a with phase := .handled } :: k)).setStatus p .ready).swtch L (.proc p) .cpu) := by
  have hbase := hi.setTop hs { a with phase := .handled } s.core.csr rfl rfl rfl nofun
  have hready : TaskStatus.ready ≠ .free := by simp
  have hcalm : ∀ b k', update s.stack s.cur ({ a with phase := .handled } :: k) s.cur = b :: k' →
      b.phase ≠ .window := by
    intro b k' hk
    rw [update_self, List.cons.injEq] at hk
    obtain ⟨rfl, -⟩ := hk
    simp
  obtain ⟨hinv, ⟨-, -, hstack⟩, hsw⟩ := hbase.leave hcur hs.user hcalm hready
  exact ⟨hinv, hstack, ⟨hsw.saves, hsw.loads⟩⟩

/-- The process that runs keeps its status when another changes its own. -/
theorem Inv.running_update (hi : Inv L s) {c : Fin NPROC} (hc : s.status c ≠ .running) (st : TaskStatus) :
    ∀ q, s.cur = .proc q → s.cpuProc = some q ∧ update s.status c st q = .running := by
  intro q hq
  obtain ⟨hproc, hrun⟩ := hi.running q hq
  have hne : q ≠ c := by
    rintro rfl
    exact hc hrun
  exact ⟨hproc, by rw [update_of_ne hne, hrun]⟩

/-- What one step keeps, and what it brings back. -/
theorem Inv.step {e : Event} (hi : Inv L s) (hst : Step L s e t) (hok : Calm s e) : Inv L t ∧ Transparent s e t := by
  cases hst with
  | user huser hm =>
      exact ⟨⟨hi.setCore rfl rfl rfl fun o x ho => hm x ⟨o, ho⟩, hi.running⟩, trivial⟩
  | activity huser hm =>
      exact ⟨⟨hi.setCore rfl rfl rfl fun o x ho => hm x ⟨o, ho⟩, hi.running⟩, trivial⟩
  | userTrap huser hcur _ => exact hi.userTrap huser hcur
  | skip hat hq =>
      obtain rfl := hi.myproc hat.cur hq
      exact ⟨hi.skip hat, trivial⟩
  | @result p q v hat =>
      obtain rfl := hi.self p q hat.place
      exact ⟨hi.result hat, trivial⟩
  | @fork p q r c tf kstack hat hr hc hpage =>
      obtain rfl := hi.myproc hat.cur hr
      have hbase := hi.fork kstack hat hc hpage
      have hready : update s.status c .ready c ≠ .free := by
        rw [update_self]
        simp
      have hnotuser : ¬ InUser (s.forked L r r c tf kstack) c := by
        rintro ⟨hu, -⟩
        have hkernel := hat.user.symm.trans hu
        cases hkernel
      refine ⟨⟨hbase, hi.running_update (by rw [hc]; simp) _⟩, fun p hp => ⟨?_, hbase.holds c hready hnotuser⟩⟩
      obtain rfl : r = p := Thread.proc.inj (hat.cur.symm.trans hp)
      exact update_self c _ _
  | @userinit tf kstack code stack hs hfree hpage =>
      have hbase : Base L (s.userinit L tf kstack code stack) :=
        hi.made kstack hs.user (hfree 0) hpage (fun x hx => userinitMem_out hx) (userinitMem_holds _ _ _ _ _)
      refine ⟨⟨hbase, fun q hq => ?_⟩, trivial⟩
      have hsched := hs.cur.symm.trans hq
      cases hsched
  | @reap p q c hat hc =>
      have hrun : s.status c ≠ .running := by
        rw [hc]
        simp
      have hne : .proc c ≠ s.cur := fun h => hrun (hi.running c h.symm).2
      exact ⟨⟨hi.reap hne hat.user, hi.running_update hrun _⟩, trivial⟩
  | wakeup huser hc =>
      have hrun := hi.running_update (by rw [hc]; simp) .ready
      exact ⟨⟨hi.setStatus (by rw [hc]; simp) (by simp), hrun⟩, trivial⟩
  | passUser hat hr => exact ⟨⟨hi.setPlace nofun, hi.running⟩, trivial⟩
  | @passTrap a k hs hph hr => exact ⟨⟨hi.setTop hs { a with phase := .handled } s.core.csr rfl rfl rfl nofun, hi.running⟩, trivial⟩
  | @usertrapret p q hat hq =>
      obtain rfl := hi.myproc hat.cur hq
      obtain ⟨hback, hbase⟩ := hi.usertrapret hat
      have hlost : (!decide ((s.usertrapret L q).sret.reg = (s.image q).reg ∧
          (s.usertrapret L q).sret.pc = (s.image q).pc)) = s.lost := by
        rw [decide_eq_true ⟨hback.reg, hback.pc⟩, hi.found]
        rfl
      rw [hlost]
      refine ⟨⟨hbase, hi.running⟩, fun p hp => ?_⟩
      obtain rfl : q = p := Thread.proc.inj (hat.cur.symm.trans hp)
      exact ⟨hback.reg, hback.pc, hback.user⟩
  | trap huser hsie hvec hcause hfree => exact hi.trap huser hfree hok hcause
  | @writeSepc a k hs hph =>
      have hbase := hi.setTop hs { a with phase := .window } (update s.core.csr .sepc a.sepc) rfl rfl rfl
        fun _ => update_self _ _ _
      exact ⟨⟨hbase, hi.running⟩, trivial⟩
  | @trapReturn a k hs hph =>
      obtain ⟨hreg, hsepc, hbase⟩ := hi.trapReturn hs hph
      have hlost : (!decide ((s.trapExit a).reg = a.reg ∧ (s.trapExit a).csr .sepc = a.sepc)) = s.lost := by
        rw [decide_eq_true ⟨hreg, hsepc⟩, hi.found]
        rfl
      rw [hlost]
      refine ⟨⟨hbase, hi.running⟩, fun b k' hb => ?_⟩
      obtain ⟨rfl, -⟩ := List.cons.inj (hs.stack.symm.trans hb)
      exact ⟨hreg, hsepc, rfl, rfl⟩
  | intrOn hs => exact ⟨⟨hi.setCore rfl rfl rfl fun _ _ _ => rfl, hi.running⟩, trivial⟩
  | choose hs hnone hp =>
      have hbase : Base L (s.setStatus _ .running) := hi.setStatus (by rw [hp]; simp) (by simp)
      refine ⟨⟨{ hbase with }, fun q hq => ?_⟩, trivial⟩
      have hsched := hs.cur.symm.trans hq
      cases hsched
  | dispatch hs hcpu hp =>
      obtain ⟨hinv, -, hsw⟩ := hi.dispatch hs hcpu hp
      exact ⟨hinv, hsw⟩
  | clear hs hcpu hp =>
      refine ⟨⟨{ hi.toBase with }, fun q hq => ?_⟩, trivial⟩
      have hsched := hs.cur.symm.trans hq
      cases hsched
  | @yieldUser p q hat hq hp =>
      obtain rfl := hi.myproc hat.cur hq
      obtain ⟨hinv, -, hsw⟩ := hi.yieldUser hat
      exact ⟨hinv, hsw⟩
  | @yieldTrap a k q hs hph hq hp =>
      cases hcur : s.cur with
      | sched => exact absurd hcur hok
      | proc p =>
          obtain rfl := hi.myproc hcur hq
          obtain ⟨hinv, -, hsw⟩ := hi.yieldTrap hs hcur
          exact ⟨hinv, hsw⟩
  | @block p q r st hat hr hst =>
      obtain rfl := hi.myproc hat.cur hr
      have hfree : st ≠ .free := by
        rcases hst with rfl | rfl <;> simp
      obtain ⟨hinv, -, hsw⟩ := hi.leave hat.cur hat.user hat.calm hfree
      exact ⟨hinv, hsw⟩
  | astray hvec hint =>
      cases huser : s.core.user with
      | false => exact absurd (hi.kernel huser) (by simpa [huser] using hvec)
      | true =>
          obtain ⟨p, -, -, hv, -⟩ := hi.user huser
          exact absurd hv (by simpa [huser] using hvec)

end Steps

end RiscvOsLab.Trap
