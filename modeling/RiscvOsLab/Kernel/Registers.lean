import RiscvOsLab.Kernel.Syscall
import RiscvOsLab.Kernel.Transfer

/-!
# Every process has registers of its own

The registers of a process are in its trapframe, a page among others in one memory. `UserEvent.apply` is what a step does
to registers that belong to one process each; `registers_refine` : the trapframes hold these, in every run.
-/

namespace RiscvOsLab.Kernel

open Prog Function
open Trap (Field Reg Image childImage firstImage)

/-! ## The abstract registers -/

/-- The pc is behind the `ecall`. -/
def skipCall (i : Image) : Image := { i with pc := i.pc + 4 }

def withResult (i : Image) (v : UInt64) : Image := { i with reg := update i.reg .a0 v.toBitVec }

/-- A call of `p` ends: its result is in `a0`, a child has its parent's registers, with 0 for the result. -/
def CallEnd.apply (p : Fin NPROC) (A : Fin NPROC → Image) : CallEnd → Fin NPROC → Image
  | .value v => update A p (withResult (A p) v)
  | .forked c v => update (update A c (childImage (A p))) p (withResult (A p) v)
  | _ => A

/-- What an event does to the registers. -/
def UserEvent.apply (A : Fin NPROC → Image) : UserEvent → Fin NPROC → Image
  | .idle => A
  | .user p i => update A p i
  | .call p e => e.apply p (update A p (skipCall (A p)))
  | .woken p e => e.apply p A

/-- The slots in use have these registers. -/
def Agrees (A : Fin NPROC → Image) (s : Machine) : Prop := ∀ q, Occupied s q → s.userImage q = A q

/-! ## Words of a trapframe -/

theorem offset_lt (f : Field) : f.offset < PGSIZE := by
  have hle := Trap.offset_le f
  simp only [Trap.trapframeSize, PGSIZE] at *
  omega

theorem onPage_tf (a : Nat) (f : Field) : OnPage a (a + f.offset) :=
  ⟨Nat.le_add_right _ _, Nat.add_lt_add_left (offset_lt f) _⟩

theorem offset_ne {f g : Field} (h : f ≠ g) : f.offset ≠ g.offset := by
  have hapart := Trap.offset_apart h
  omega

section
variable {s t u : Machine} {p q : Fin NPROC}

theorem tf_setTf (f g : Field) (v : UInt64) : (s.setTf p f v).tf p g = if g = f then v else s.tf p g := by
  show update s.phys.mem ((s.proc p).trapframe + f.offset) v ((s.proc p).trapframe + g.offset) = _
  by_cases h : g = f
  · rw [h, update_self, if_pos rfl]
  · rw [if_neg h, update_of_ne fun he => offset_ne h (Nat.add_left_cancel he)]
    rfl

/-- Only words of the trapframe of `p` have changed. -/
structure Scribbled (p : Fin NPROC) (s t : Machine) : Prop where
  eq : t = { s with phys := { s.phys with mem := t.phys.mem } }
  off : ∀ b, ¬ OnPage (ownPage s (p, false)) b → t.phys.mem b = s.phys.mem b

namespace Scribbled

theorem refl (p : Fin NPROC) (s : Machine) : Scribbled p s s := ⟨rfl, fun _ _ => rfl⟩

theorem proc (h : Scribbled p s t) : t.proc = s.proc := by rw [h.eq]

theorem trans (h : Scribbled p s t) (h' : Scribbled p t u) : Scribbled p s u := by
  have hown : ownPage t (p, false) = ownPage s (p, false) := ownPage_congr (by rw [h.proc]) (by rw [h.proc])
  refine ⟨?_, fun b hb => ?_⟩
  · rw [h'.eq, h.eq]
  · rw [h'.off b (hown.symm ▸ hb), h.off b hb]

theorem setTf (s : Machine) (p : Fin NPROC) (f : Field) (v : UInt64) : Scribbled p s (s.setTf p f v) := by
  refine ⟨rfl, fun b hb => update_of_ne ?_ _ _⟩
  rintro rfl
  exact hb (onPage_tf _ f)

theorem usertrapret (s : Machine) (K : KernelWords) (p : Fin NPROC) : Scribbled p s (s.usertrapret K p) :=
  (((setTf s p _ _).trans (setTf _ p _ _)).trans (setTf _ p _ _)).trans (setTf _ p _ _)

theorem setRegs (l : List Reg) (i : Image) : ∀ s : Machine,
    Scribbled p s (l.foldl (fun s r => s.setTf p (.reg r) (.ofBitVec (i.reg r))) s) := by
  induction l with
  | nil => exact refl p
  | cons r l ih => exact fun s => (setTf s p (.reg r) _).trans (ih _)

theorem trapEntry (s : Machine) (p : Fin NPROC) (i : Image) : Scribbled p s (s.trapEntry p i) :=
  (setRegs Reg.all i s).trans (setTf _ p .epc _)

end Scribbled

theorem tf_setRegs (l : List Reg) (i : Image) (r : Reg) : ∀ s : Machine,
    (l.foldl (fun s r => s.setTf p (.reg r) (.ofBitVec (i.reg r))) s).tf p (.reg r) =
      if r ∈ l then .ofBitVec (i.reg r) else s.tf p (.reg r) := by
  induction l with
  | nil => exact fun s => rfl
  | cons a l ih =>
      intro s
      rw [List.foldl_cons, ih, tf_setTf]
      by_cases hl : r ∈ l
      · rw [if_pos hl, if_pos (List.mem_cons_of_mem a hl)]
      · by_cases ha : r = a
        · rw [if_neg hl, ha, if_pos rfl, if_pos List.mem_cons_self]
        · rw [if_neg hl, if_neg (by simpa using ha), if_neg (by simp [ha, hl])]

theorem userImage_trapEntry (s : Machine) (p : Fin NPROC) (i : Image) : (s.trapEntry p i).userImage p = i := by
  have hreg (r : Reg) : (s.trapEntry p i).tf p (.reg r) = .ofBitVec (i.reg r) := by
    have hall : r ∈ Reg.all := by cases r <;> decide
    rw [Machine.trapEntry, tf_setTf, if_neg (by simp), tf_setRegs, if_pos hall]
  have hpc : (s.trapEntry p i).tf p .epc = .ofBitVec i.pc := by
    rw [Machine.trapEntry, tf_setTf, if_pos rfl]
  rw [Machine.userImage]
  simp only [hreg, hpc]

theorem userImage_setEpc (s : Machine) (p : Fin NPROC) :
    (s.setTf p .epc (s.tf p .epc + 4)).userImage p = skipCall (s.userImage p) := by
  rw [Machine.userImage, skipCall, Machine.userImage]
  simp only [tf_setTf, if_pos, reduceCtorEq, if_false]
  rfl

theorem userImage_setA0 (s : Machine) (p : Fin NPROC) (v : UInt64) :
    (s.setTf p (.reg .a0) v).userImage p = withResult (s.userImage p) v := by
  rw [Machine.userImage, withResult, Machine.userImage]
  simp only [tf_setTf, reduceCtorEq, if_false, Image.mk.injEq, and_true]
  funext r
  by_cases hr : r = .a0
  · rw [hr, if_pos rfl, update_self]
  · rw [if_neg (by simpa using hr), update_of_ne hr]

/-- The registers of a process whose trapframe is as it was. -/
theorem Undisturbed.userImage (h : Undisturbed s t) (hs : Occupied s q) (ht : Occupied t q) :
    t.userImage q = s.userImage q := by
  obtain ⟨hown, hmem⟩ := h (q, false) hs ht
  have htf (f : Field) : t.tf q f = s.tf q f := by
    show t.phys.mem (ownPage t (q, false) + f.offset) = s.phys.mem (ownPage s (q, false) + f.offset)
    rw [hown]
    exact hmem _ (onPage_tf _ f)
  rw [Machine.userImage, Machine.userImage]
  simp only [htf]

theorem ChildFrame.userImage (h : ChildFrame s t p q) : t.userImage q = childImage (s.userImage p) := by
  have htf (f : Field) : t.tf q f = if f = .reg .a0 then 0 else s.tf p f := by
    show t.phys.mem ((t.proc q).trapframe + f.offset) = _
    rw [h _ (offset_lt f)]
    by_cases hf : f = .reg .a0
    · rw [if_pos hf, hf, if_pos (by decide)]
    · have hne : f.offset ≠ TF_A0 := offset_ne hf
      rw [if_neg hf, if_neg hne]
      rfl
  rw [Machine.userImage, childImage, Machine.userImage]
  simp only [htf, reduceCtorEq, if_false, Image.mk.injEq, and_true]
  funext r
  by_cases hr : r = .a0
  · rw [hr, if_pos rfl, update_self]
    rfl
  · rw [if_neg (by simpa using hr), update_of_ne hr]

end

/-! ## What a call leaves of the pages -/

section
variable {etext root code stack : Nat} {T : PageTable} {s t u : Machine} {p q : Fin NPROC} {l : List Nat}

theorem Space.of_pages (h : Space etext root code stack T s) (hl : Pages (Reserved T code stack) t l)
    (hs : Spared (Reserved T code stack) s t) : Space etext root code stack T t :=
  ⟨h.holds.congr fun n a j ha hj => hs a j (.inl ⟨n, ha⟩) hj, h.root, h.leaf, h.apart, h.codePage, h.stackPage, l, hl⟩

theorem Space.of_scribbled (h : Space etext root code stack T s) (hs : Scribbled p s t) (hp : Occupied s p) :
    Space etext root code stack T t := by
  rw [hs.eq]
  refine h.scribbled (· = ownPage s (p, false)) (fun a ha => .inr (.inr ⟨(p, false), hp, ha.symm⟩)) fun b hb => ?_
  exact hs.off b (hb _ rfl)

theorem Scribbled.occupied (h : Scribbled p s t) : Occupied t q ↔ Occupied s q := by
  rw [Occupied, Occupied, h.proc]

/-- The other processes keep their registers. -/
theorem Scribbled.userImage (h : Scribbled p s t) (hT : Space etext root code stack T s) (hp : Occupied s p)
    (hq : Occupied s q) (hne : q ≠ p) : t.userImage q = s.userImage q := by
  obtain ⟨l, hl⟩ := hT.pages
  have htf (f : Field) : t.tf q f = s.tf q f := by
    rw [Machine.tf, h.proc]
    refine h.off _ ?_
    exact hl.off_other (x := (q, false)) hq hp (fun heq => hne (congrArg Prod.fst heq)) (onPage_tf _ f)
  rw [Machine.userImage, Machine.userImage]
  simp only [htf]

/-- An address that `wait` may store at. -/
def StatusAt (code stack : Nat) (addr : UInt64) : Prop := addr ≠ 0 → ∀ i < 4, UserPage code stack (addr.toNat + i)

/-- After a call of `p`, up to its result: the pages are where they were, and a new process has its parent's registers. -/
structure Done (etext root code stack : Nat) (T : PageTable) (s : Machine) (p : Fin NPROC) (e : CallEnd) (t : Machine) :
    Prop where
  space : Space etext root code stack T t
  kept : Undisturbed s t
  self : Occupied t p
  fresh : ∀ q, Occupied t q → Occupied s q ∨ ∃ v, e = .forked q v
  child : ∀ c v, e = .forked c v → c ≠ p ∧ ChildFrame s t p c
  asleep : ∀ addr, e = .asleep addr → StatusAt code stack addr

/-- The call makes no process, and does not sleep. -/
theorem Done.of_value {v : UInt64} (hspace : Space etext root code stack T t) (hkept : Undisturbed s t)
    (hp : Occupied s p) (hocc : ∀ q, Occupied t q ↔ Occupied s q) : Done etext root code stack T s p (.value v) t :=
  ⟨hspace, hkept, (hocc p).2 hp, fun q hq => .inl ((hocc q).1 hq), fun _ _ he => absurd he (by simp),
    fun _ he => absurd he (by simp)⟩

theorem undisturbed_self (s : Machine) : Undisturbed s s := .of_phys rfl (fun _ _ => rfl) fun _ _ => rfl

theorem Done.unchanged (h : Space etext root code stack T s) (hp : Occupied s p) (v : UInt64) :
    Done etext root code stack T s p (.value v) s := .of_value h (undisturbed_self s) hp fun _ => Iff.rfl

theorem wp_argraw {E : Halt → Prop} {Q : UInt64 → Machine → Prop} (n : Nat) (hE : ∀ e, E e) (h : ∀ v, Q v s) :
    (argraw p n).wp Q E s := by
  unfold argraw
  split
  all_goals first | exact h _ | exact hE _

theorem Space.wp_sysFork (h : Space etext root code stack T s) (hp : Occupied s p) :
    (sysFork p).wp (Done etext root code stack T s p) (fun _ => True) s := by
  obtain ⟨l, hl⟩ := h.pages
  have hfork := wp_and (wp_and (wp_fork_pages (p := p) (E := fun _ => True) hl fun _ => h.reserved_aligned)
    (wp_fork_kept hl hp)) (wp_fork s p)
  unfold sysFork
  refine wp_seq hfork ?_
  rintro r t ⟨⟨⟨m, hm, hspared, -⟩, hkept, hchild⟩, hforked⟩
  have hspace := h.of_pages hm hspared
  cases hforked with
  | full _ hproc => exact .of_value hspace hkept hp fun q => by rw [Occupied, Occupied, hproc]
  | @failed _ c v hc he hfree =>
      refine .of_value hspace hkept hp fun q => ?_
      by_cases hq : q = c
      · rw [hq, Occupied, Occupied, he.self, hfree, freeSlot_free hc]
      · rw [Occupied, Occupied, he.of_ne hq]
  | @done _ c v hc he hready =>
      have hne : c ≠ p := by
        rintro rfl
        exact hp (freeSlot_free hc)
      simp only [wp_bind, wp_gets, wp_pure]
      refine ⟨hspace, hkept, ?_, fun q hq => ?_, fun d w hd => ?_, fun _ he => absurd he (by simp)⟩
      · rw [Occupied, he.of_ne hne.symm]
        exact hp
      · by_cases hqc : q = c
        · exact .inr ⟨_, by rw [hqc]⟩
        · rw [Occupied, he.of_ne hqc] at hq
          exact .inl hq
      · obtain ⟨rfl, -⟩ := CallEnd.forked.inj hd
        exact ⟨hne, hchild c rfl⟩

theorem Space.wp_sysExit (h : Space etext root code stack T s) (hp : Occupied s p) :
    (sysExit p).wp (Done etext root code stack T s p) (fun _ => True) s := by
  obtain ⟨l, hl⟩ := h.pages
  unfold sysExit
  refine wp_seq (R := fun _ t => s = t) (wp_argraw 0 (fun _ => trivial) fun _ => rfl) ?_
  rintro n _ rfl
  refine wp_seq (wp_exit s p (argint n).toInt32) fun _ t he => ?_
  refine ⟨h.of_pages (he.pages hl hp) (.of_phys he.phys), .of_phys he.phys (fun q _ => he.trapframe q) fun q _ => he.kstack q,
    ?_, fun q hq => .inl ?_, fun _ _ he => absurd he (by simp), fun _ he => absurd he (by simp)⟩
  · rw [Occupied, he.zombie]
    simp
  · by_cases hqp : q = p
    · exact hqp ▸ hp
    · rcases he.status q hqp with hst | ⟨hsl, -⟩
      · rw [Occupied, hst] at hq
        exact hq
      · rw [Occupied, hsl]
        simp

theorem Space.storeStatus (h : Space etext root code stack T s) {addr : UInt64} (haddr : StatusAt code stack addr) :
    Space etext root code stack T (storeStatus p addr s) ∧ Undisturbed s (storeStatus p addr s) ∧
      (storeStatus p addr s).proc = s.proc := by
  unfold Kernel.storeStatus
  split
  · rename_i c _
    split
    · rename_i hne
      have hdata : ∀ i < (intBytes (s.proc c).xstate).length, UserPage code stack (addr.toNat + i) := by
        rw [length_intBytes]
        exact haddr hne
      exact ⟨h.stored hdata, h.store_undisturbed hdata, rfl⟩
    · exact ⟨h, undisturbed_self s, rfl⟩
  · exact ⟨h, undisturbed_self s, rfl⟩

theorem occupied_of_running (hp : (s.proc p).status = .running) : Occupied s p := by
  rw [Occupied, hp]
  simp

theorem Space.wp_waitLoop (h : Space etext root code stack T s) (hrun : (s.proc p).status = .running) {addr : UInt64}
    (haddr : StatusAt code stack addr) :
    (waitLoop p addr).wp (Done etext root code stack T s p) (fun _ => True) s := by
  have hp := occupied_of_running hrun
  obtain ⟨hspace, hstored, hproc⟩ := h.storeStatus (p := p) haddr
  unfold waitLoop
  rw [wp_bind, wp_modify]
  generalize Kernel.storeStatus p addr s = s₁ at hspace hstored hproc
  have hocc (q : Fin NPROC) : Occupied s₁ q ↔ Occupied s q := by rw [Occupied, Occupied, hproc]
  obtain ⟨l, hl⟩ := hspace.pages
  have hwait := wp_and (wp_and (wp_waitPass_pages (p := p) (E := fun _ => True) hl (fun _ => h.reserved_aligned)
    ((hocc p).2 hp)) (wp_waitPass_kept hl)) (wp_waitPass s₁ p)
  refine wp_seq hwait ?_
  rintro r t ⟨⟨⟨m, hm, hspared⟩, hkept⟩, hwaited⟩
  have hspace' := hspace.of_pages hm hspared
  have hkept' := hstored.trans hkept fun q hq => (hocc q).2 hq
  cases hwaited with
  | @reaped _ c v hparent hz he hfree =>
      have hself : Occupied t p := by
        have hne : p ≠ c := by
          rintro rfl
          rw [hproc, hrun] at hz
          exact absurd hz (by simp)
        rw [Occupied, he.of_ne hne]
        exact (hocc p).2 hp
      refine ⟨hspace', hkept', hself, fun q hq => .inl ?_, fun _ _ he => absurd he (by simp), fun _ he => absurd he (by simp)⟩
      by_cases hqc : q = c
      · rw [hqc, Occupied, he.self] at hq
        exact absurd hfree hq
      · rw [Occupied, he.of_ne hqc] at hq
        exact (hocc q).1 hq
  | nokids => exact .of_value hspace' hkept' hp hocc
  | asleep he =>
      refine ⟨hspace', hkept', ?_, fun q hq => .inl ?_, fun _ _ he => absurd he (by simp), fun a ha => ?_⟩
      · rw [Occupied, he.self]
        simp
      · by_cases hqp : q = p
        · exact hqp ▸ hp
        · rw [Occupied, he.of_ne hqp] at hq
          exact (hocc q).1 hq
      · obtain rfl := CallEnd.asleep.inj ha
        exact haddr

/-- What `fileCall` leaves to be stored. -/
theorem wp_fileCall_data (s : Machine) (p : Fin NPROC) (a : Args) (c : FileCall)
    (hn : c = .read → 0 ≤ (argint a.a2).toInt32.toInt) : (fileCall p a c).wp
      (fun x _ => x.2 = [] ∨ c = .read ∧ x.2.length ≤ asked (argint a.a2)) (fun _ => True) s := by
  cases c with
  | read =>
      refine wp_post (wp_sysRead_count s p a) fun x _ hx => ?_
      rcases hx with ⟨rfl, -⟩ | ⟨fd, f, ip, -, -, -, -, hlen⟩
      · exact .inl rfl
      · refine .inr ⟨rfl, hlen ▸ readCount_le_asked.2 fun hover => ?_⟩
        have hpos := hn rfl
        have hneg := hover.1
        omega
  | «open» => exact wp_seq (wp_any _ fun _ _ => trivial) fun _ _ _ => .inl rfl
  | write => exact wp_seq (wp_any _ fun _ _ => trivial) fun _ _ _ => .inl rfl
  | close => exact wp_seq (wp_any _ fun _ _ => trivial) fun _ _ _ => .inl rfl

theorem Space.wp_sysFile (h : Space etext root code stack T s) (hp : Occupied s p) {c : FileCall}
    (hread : c = .read → 0 ≤ (argint (s.tf p (.reg .a2))).toInt32.toInt ∧
      ∀ i : Nat, i < (argint (s.tf p (.reg .a2))).toInt32.toInt →
        UserPage code stack ((s.tf p (.reg .a1)).toNat + i)) :
    (sysFile p c).wp (Done etext root code stack T s p) (fun _ => True) s := by
  unfold sysFile argraw
  simp only [wp_bind, wp_gets]
  generalize hargs : Args.mk (s.tf p (.reg .a0)) (s.tf p (.reg .a1)) (s.tf p (.reg .a2)) s.byte = a
  have ha1 : s.tf p (.reg .a1) = a.a1 := by rw [← hargs]
  have ha2 : s.tf p (.reg .a2) = a.a2 := by rw [← hargs]
  rw [ha1, ha2] at hread
  have hdata : (fileCall p a c).wp (fun x _ => ∀ i < x.2.length, UserPage code stack (a.a1.toNat + i)) (fun _ => True) s := by
    refine wp_post (wp_fileCall_data s p a c fun hc => (hread hc).1) fun x _ hx i hi => ?_
    rcases hx with hnil | ⟨hc, hlen⟩
    · rw [hnil] at hi
      exact absurd hi (Nat.not_lt_zero i)
    · refine (hread hc).2 i ?_
      rw [asked] at hlen
      omega
  refine wp_post (wp_and (wp_fileCall_owners s p a c) hdata) ?_
  rintro ⟨r, data⟩ t ⟨ho, hdata⟩
  obtain ⟨l, hl⟩ := h.pages
  have hspace := h.of_pages (ho.pages hl) (.of_phys ho.phys)
  have hkept : Undisturbed s t := .of_phys ho.phys (fun q _ => ho.trapframe q) fun q _ => ho.kstack q
  have hocc (q : Fin NPROC) : Occupied t q ↔ Occupied s q := by rw [Occupied, Occupied, ho.status]
  simp only [wp_modify, wp_pure]
  rw [ha1]
  exact .of_value (hspace.stored hdata) (hkept.trans (hspace.store_undisturbed hdata) fun q hq => (hocc q).2 hq) hp hocc

theorem Space.wp_sysWait (h : Space etext root code stack T s) (hrun : (s.proc p).status = .running)
    (haddr : StatusAt code stack (s.tf p (.reg .a0))) :
    (sysWait p).wp (Done etext root code stack T s p) (fun _ => True) s := by
  unfold sysWait argraw
  rw [wp_bind]
  exact h.wp_waitLoop hrun haddr

/-- Any call, with what its arguments promise. -/
theorem Space.wp_run (h : Space etext root code stack T s) (hrun : (s.proc p).status = .running)
    (hptr : Pointers (UserPage code stack) s p) {c : SysCall} (hc : callOf (s.tf p (.reg .a7)) = some c) :
    (c.run p).wp (Done etext root code stack T s p) (fun _ => True) s := by
  have hp := occupied_of_running hrun
  cases c with
  | fork => exact h.wp_sysFork hp
  | exit => exact h.wp_sysExit hp
  | wait => exact h.wp_sysWait hrun (hptr.wait hc)
  | getpid => exact .unchanged h hp _
  | sbrk => exact .unchanged h hp _
  | file c =>
      refine h.wp_sysFile hp fun hread => hptr.read ?_
      rw [hc, hread]

/-- The state with the result in `a0`. -/
def finished (p : Fin NPROC) (e : CallEnd) (s : Machine) : Machine :=
  match e.result with
  | some v => s.setTf p (.reg .a0) v
  | none => s

theorem wp_setResult {Q : Unit → Machine → Prop} {E : Halt → Prop} (e : CallEnd) :
    (setResult p e).wp Q E s ↔ Q () (finished p e s) := by
  unfold setResult finished
  cases e.result with
  | none => exact Iff.rfl
  | some v => exact Iff.rfl

theorem Space.wp_syscall (h : Space etext root code stack T s) (hrun : (s.proc p).status = .running)
    (hptr : Pointers (UserPage code stack) s p) :
    (syscall p).wp (fun e t => ∃ u, Done etext root code stack T s p e u ∧ t = finished p e u) (fun _ => True) s := by
  unfold syscall
  rw [wp_bind, wp_gets]
  refine wp_seq (R := Done etext root code stack T s p) ?_ fun e u hu => ?_
  · cases hc : callOf (s.tf p (.reg .a7)) with
    | none => exact .unchanged h (occupied_of_running hrun) _
    | some c => exact h.wp_run hrun hptr hc
  · rw [wp_bind, wp_setResult]
    exact ⟨u, hu, rfl⟩

/-! ## What a step leaves of the registers -/

theorem Agrees.scribbled {A : Fin NPROC → Image} (h : Agrees A s) (hT : Space etext root code stack T s)
    (hs : Scribbled p s t) (hp : Occupied s p) : Agrees (update A p (t.userImage p)) t := by
  intro q hq
  by_cases hqp : q = p
  · rw [hqp, update_self]
  · rw [update_of_ne hqp, hs.userImage hT hp (hs.occupied.1 hq) hqp, h q (hs.occupied.1 hq)]

/-- The end of a call. -/
theorem Done.agrees {A : Fin NPROC → Image} {e : CallEnd} (hd : Done etext root code stack T s p e u) (h : Agrees A s)
    (hp : Occupied s p) : Agrees (e.apply p A) (finished p e u) := by
  have hkeep (q : Fin NPROC) (hq : Occupied u q) (hs : Occupied s q) : u.userImage q = A q :=
    (hd.kept.userImage hs hq).trans (h q hs)
  -- the result is put on top of what the call leaves
  have hresult (v : UInt64) (B : Fin NPROC → Image) (hB : Agrees B u) :
      Agrees (update B p (withResult (A p) v)) (u.setTf p (.reg .a0) v) := by
    have hlast := hB.scribbled hd.space (.setTf u p (.reg .a0) v) hd.self
    rw [userImage_setA0, hkeep p hd.self hp] at hlast
    exact hlast
  have hold (he : ∀ c v, e ≠ .forked c v) : Agrees A u := by
    intro q hq
    rcases hd.fresh q hq with hs | ⟨v, hf⟩
    · exact hkeep q hq hs
    · exact absurd hf (he q v)
  cases e with
  | value v => exact hresult v A (hold (by simp))
  | forked c v =>
      refine hresult v _ fun q hq => ?_
      obtain ⟨hne, hframe⟩ := hd.child c v rfl
      by_cases hqc : q = c
      · rw [hqc, update_self, hframe.userImage, h p hp]
      · rw [update_of_ne hqc]
        rcases hd.fresh q hq with hs | ⟨w, hf⟩
        · exact hkeep q hq hs
        · exact absurd (CallEnd.forked.inj hf).1.symm hqc
  | asleep addr => exact hold (by simp)
  | exited => exact hold (by simp)

theorem Done.finished {e : CallEnd} (hd : Done etext root code stack T s p e u) :
    Space etext root code stack T (finished p e u) ∧ (finished p e u).proc = u.proc := by
  unfold Kernel.finished
  cases e.result with
  | none => exact ⟨hd.space, rfl⟩
  | some v => exact ⟨hd.space.of_scribbled (.setTf u p (.reg .a0) v) hd.self, rfl⟩

end

/-- The invariant of a run: the address space, and the addresses that `wait` has been given. -/
structure Tidy (etext root code stack : Nat) (T : PageTable) (s : Sys) : Prop where
  space : Space etext root code stack T s.m
  wait : ∀ p addr, s.place p = .wait addr → StatusAt code stack addr

section
variable {etext root code stack : Nat} {T : PageTable} {K : KernelWords} {s t : Sys} {p : Fin NPROC} {e : UserEvent}

/-- Invariant and registers are kept. -/
structure Carries (etext root code stack : Nat) (T : PageTable) (s : Sys) (e : UserEvent) (t : Sys) : Prop where
  tidy : Tidy etext root code stack T t
  agrees : ∀ A, Agrees A s.m → Agrees (e.apply A) t.m

theorem Tidy.user_place (h : Tidy etext root code stack T s) {r : Resume} (hr : ∀ addr, r ≠ .wait addr) (q : Fin NPROC)
    (addr : UInt64) (hq : update s.place p r q = .wait addr) : StatusAt code stack addr := by
  by_cases hqp : q = p
  · rw [hqp, update_self] at hq
    exact absurd hq (hr addr)
  · rw [update_of_ne hqp] at hq
    exact h.wait q addr hq

/-- A slot in use is changed, but for its trapframe. -/
theorem Agrees.slot {A : Fin NPROC → Image} {m : Machine} (h : Agrees A m) {f : Proc → Proc}
    (hf : (f (m.proc p)).trapframe = (m.proc p).trapframe) (hp : Occupied m p) : Agrees A (m.modProc p f) := by
  intro q hq
  have htf : ((m.modProc p f).proc q).trapframe = (m.proc q).trapframe := by
    by_cases hqp : q = p
    · rw [hqp, Machine.modProc_self, hf]
    · rw [Machine.modProc_of_ne hqp]
  have hocc : Occupied m q := by
    by_cases hqp : q = p
    · exact hqp ▸ hp
    · rw [Occupied, Machine.modProc_of_ne hqp] at hq
      exact hq
  rw [← h q hocc, Machine.userImage, Machine.userImage]
  unfold Machine.tf
  rw [htf]
  rfl

/-- User code runs up to its next trap. -/
theorem Tidy.user (h : Tidy etext root code stack T s) (hrun : (s.m.proc p).status = .running) {i : Image}
    {mem : Nat → UInt64} (hmem : ∀ a, ¬ UserWritable root s.m a → mem a = (s.m.usertrapret K p).phys.mem a) :
    Carries etext root code stack T s (.user p i)
      { m := Machine.trapEntry { s.m with phys := { s.m.phys with mem } } p i, place := update s.place p .trapped } := by
  have hp := occupied_of_running hrun
  have hret := Scribbled.usertrapret s.m K p
  have hoff {b : Nat} (hb : ¬ Writable root s.m p b) : mem b = s.m.phys.mem b := by
    rw [hmem b fun hw => hb (.inr (.inr hw))]
    exact hret.off b fun hon => hb (.inl hon)
  have hspace : Space etext root code stack T { s.m with phys := { s.m.phys with mem } } :=
    h.space.keeps (.user hrun fun a ha => hoff ha)
  generalize hm : ({ s.m with phys := { s.m.phys with mem } } : Machine) = m at hspace
  have hocc (q : Fin NPROC) : Occupied m q ↔ Occupied s.m q := by
    rw [← hm]
    exact Iff.rfl
  have hentry := Scribbled.trapEntry m p i
  refine ⟨⟨hspace.of_scribbled hentry ((hocc p).2 hp), h.user_place (by simp)⟩, fun A hA => ?_⟩
  have hother : Agrees (update A p (m.userImage p)) m := by
    intro q hq
    by_cases hqp : q = p
    · rw [hqp, update_self]
    · rw [update_of_ne hqp, ← hA q ((hocc q).1 hq)]
      have htf (f : Field) : m.tf q f = s.m.tf q f := by
        rw [← hm]
        refine hoff ?_
        exact h.space.not_writable (x := (q, false)) ((hocc q).1 hq) hp hqp (onPage_tf _ f)
      rw [Machine.userImage, Machine.userImage]
      simp only [htf]
  have hlast := hother.scribbled hspace hentry ((hocc p).2 hp)
  rw [userImage_trapEntry, update_idem] at hlast
  exact hlast

theorem Tidy.ended (h : Tidy etext root code stack T s) {c : CallEnd} {m u : Machine}
    (hd : Done etext root code stack T m p c u) :
    Tidy etext root code stack T (s.ended p c (finished p c u)) := by
  refine ⟨hd.finished.1, fun q addr hq => ?_⟩
  cases c with
  | value v => exact h.user_place (by simp) q addr hq
  | forked c v =>
      have hq : update (update s.place p .user) c .user q = .wait addr := hq
      by_cases hqc : q = c
      · rw [hqc, update_self] at hq
        exact absurd hq (by simp)
      · rw [update_of_ne hqc] at hq
        exact h.user_place (by simp) q addr hq
  | asleep a =>
      have hq : update s.place p (.wait a) q = .wait addr := hq
      by_cases hqp : q = p
      · rw [hqp, update_self] at hq
        obtain rfl := Resume.wait.inj hq
        exact hd.asleep a rfl
      · rw [update_of_ne hqp] at hq
        exact h.wait q addr hq
  | exited => exact h.wait q addr hq

theorem Tidy.call (h : Tidy etext root code stack T s) (hrun : (s.m.proc p).status = .running)
    (hptr : Pointers (UserPage code stack) s.m p) {c : CallEnd} {m : Machine}
    (hcall : (usertrapCall p).run s.m = .ok (c, m)) : Carries etext root code stack T s (.call p c) (s.ended p c m) := by
  have hp := occupied_of_running hrun
  have hskip := Scribbled.setTf s.m p .epc (s.m.tf p .epc + 4)
  have hspace := h.space.of_scribbled hskip hp
  have himage := userImage_setEpc s.m p
  have htf (r : Reg) : (s.m.setTf p .epc (s.m.tf p .epc + 4)).tf p (.reg r) = s.m.tf p (.reg r) := by
    rw [tf_setTf, if_neg (by simp)]
  rw [usertrapCall, run_bind] at hcall
  change (syscall p).run (s.m.setTf p .epc (s.m.tf p .epc + 4)) = _ at hcall
  generalize s.m.setTf p .epc (s.m.tf p .epc + 4) = s₁ at hskip hspace himage htf hcall
  have hrun₁ : (s₁.proc p).status = .running := by rw [hskip.proc, hrun]
  have hptr₁ : Pointers (UserPage code stack) s₁ p := by
    refine ⟨fun hc => ?_, fun hc => ?_⟩
    · simp only [htf] at hc ⊢
      exact hptr.read hc
    · simp only [htf] at hc ⊢
      exact hptr.wait hc
  obtain ⟨u, hd, rfl⟩ := wp_ok (hspace.wp_syscall hrun₁ hptr₁) hcall
  refine ⟨h.ended hd, fun A hA => ?_⟩
  have hA₁ := hA.scribbled h.space hskip hp
  rw [himage, hA p hp] at hA₁
  exact hd.agrees hA₁ (occupied_of_running hrun₁)

theorem Tidy.woken (h : Tidy etext root code stack T s) (hrun : (s.m.proc p).status = .running) {addr : UInt64}
    (hplace : s.place p = .wait addr) {c : CallEnd} {m : Machine} (hcall : (wakeCall p addr).run s.m = .ok (c, m)) :
    Carries etext root code stack T s (.woken p c) (s.ended p c m) := by
  have hp := occupied_of_running hrun
  obtain ⟨l, hl⟩ := h.space.pages
  have hedit := (edited_self s.m p).modProc fun v => { v with chan := none }
  have hspace := h.space.of_pages (hl.edited hedit rfl hp rfl rfl) (.of_phys rfl)
  have hslot (A : Fin NPROC → Image) (hA : Agrees A s.m) : Agrees A (s.m.modProc p fun v => { v with chan := none }) :=
    hA.slot rfl hp
  have hself : ((s.m.modProc p fun v => { v with chan := none }).proc p).status = .running := by
    rw [Machine.modProc_self]
    exact hrun
  rw [wakeCall, run_bind] at hcall
  change (waitLoop p addr >>= fun e => setResult p e >>= fun _ => pure e).run
    (s.m.modProc p fun v => { v with chan := none }) = _ at hcall
  generalize (s.m.modProc p fun v => { v with chan := none }) = s₁ at hspace hslot hself hcall
  have hwake : (waitLoop p addr >>= fun e => setResult p e >>= fun _ => pure e).wp
      (fun e t => ∃ u, Done etext root code stack T s₁ p e u ∧ t = finished p e u) (fun _ => True) s₁ := by
    refine wp_seq (hspace.wp_waitLoop hself (h.wait p addr hplace)) fun e u hu => ?_
    rw [wp_bind, wp_setResult]
    exact ⟨u, hu, rfl⟩
  obtain ⟨u, hd, rfl⟩ := wp_ok hwake hcall
  exact ⟨h.ended hd, fun A hA => hd.agrees (hslot A hA) (occupied_of_running hself)⟩

theorem Tidy.step (h : Tidy etext root code stack T s) (hst : SysStep K root (UserPage code stack) s e t) :
    Carries etext root code stack T s e t := by
  have hslot {p : Fin NPROC} {st : TaskStatus} (hp : Occupied s.m p) (A : Fin NPROC → Image) (hA : Agrees A s.m) :
      Agrees A (s.m.modProc p fun v => { v with status := st }) := hA.slot rfl hp
  cases hst with
  | dispatch hidle hready =>
      refine ⟨⟨h.space.step (.dispatch hidle hready), h.wait⟩, hslot ?_⟩
      rw [Occupied, hready]
      simp
  | preempt hrun => exact ⟨⟨h.space.step (.tick hrun), h.wait⟩, hslot (occupied_of_running hrun)⟩
  | user hrun _ hmem => exact h.user hrun hmem
  | call hrun _ hptr hcall => exact h.call hrun hptr hcall
  | woken hrun hplace hcall => exact h.woken hrun hplace hcall
  | timer hrun => exact ⟨⟨h.space.step (.tick hrun), h.user_place (by simp)⟩, hslot (occupied_of_running hrun)⟩
  | external => exact ⟨⟨h.space, h.user_place (by simp)⟩, fun _ hA => hA⟩

end

/-! ## From the start -/

/-- The trapframe that `userinit` makes. -/
def FirstFrame (s : Machine) (c : Fin NPROC) (code stack : Nat) : Prop :=
  ∀ o < PGSIZE, s.phys.mem ((s.proc c).trapframe + o) =
    if o = TF_SP then UInt64.ofNat (stack + PGSIZE) else if o = TF_EPC then UInt64.ofNat code else 0

theorem FirstFrame.userImage {s : Machine} {c : Fin NPROC} {code stack : Nat} (h : FirstFrame s c code stack) :
    s.userImage c = firstImage (BitVec.ofNat 64 code) (BitVec.ofNat 64 stack) := by
  have htf (f : Field) : s.tf c f = if f = .reg .sp then UInt64.ofNat (stack + PGSIZE)
      else if f = .epc then UInt64.ofNat code else 0 := by
    refine (h _ (offset_lt f)).trans ?_
    by_cases hsp : f = .reg .sp
    · rw [if_pos hsp, hsp, if_pos (by decide)]
    · have hne : f.offset ≠ TF_SP := offset_ne hsp
      rw [if_neg hsp, if_neg hne]
      by_cases hepc : f = .epc
      · rw [if_pos hepc, hepc, if_pos (by decide)]
      · have hne : f.offset ≠ TF_EPC := offset_ne hepc
        rw [if_neg hepc, if_neg hne]
  rw [Machine.userImage, firstImage]
  simp only [htf, reduceCtorEq, if_false, if_true, Image.mk.injEq]
  refine ⟨funext fun r => ?_, rfl⟩
  by_cases hr : r = .sp
  · rw [hr, update_self, if_pos rfl]
    show BitVec.ofNat 64 (stack + PGSIZE) = _
    rw [BitVec.ofNat_add]
    rfl
  · rw [if_neg (by simpa using hr), update_of_ne hr]
    rfl

end RiscvOsLab.Kernel
