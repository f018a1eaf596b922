import RiscvOsLab.Kernel.Proc
import RiscvOsLab.Lib.Trans
import Mathlib.Data.Fintype.Prod
import Mathlib.Data.Finset.Card

/-!
# Descriptors and reference counts

`f->ref` should count the descriptors of the live processes that point to `f` (`RefLaw`). `Counted` is the
invariant behind it: the count runs over all slots, and slots that are free or zombies have no descriptor.
Every call keeps it but an `exit` with an open descriptor (`counted_step`).

`fork` should make the child's descriptors those of its parent (`Shares`). It leaves them as they are, and so
shares exactly when there is nothing to share (`fork_shares_iff`).
-/

namespace RiscvOsLab.Kernel

open Prog Function
open RiscvOsLab.Fs

/-! ## Counting the points of a partial function -/

section Fiber
variable {α β : Type} [Fintype α] [DecidableEq β]

/-- The points with the value `b`. -/
def fiber (o : α → Option β) (b : β) : Finset α := Finset.univ.filter fun x => o x = some b

theorem mem_fiber {o : α → Option β} {b : β} {x : α} : x ∈ fiber o b ↔ o x = some b := by
  simp [fiber]

variable [DecidableEq α]

/-- A point without a value gets one. -/
theorem card_fiber_update {o : α → Option β} {x : α} (hx : o x = none) (b c : β) :
    (fiber (update o x (some b)) c).card = (fiber o c).card + if b = c then 1 else 0 := by
  by_cases hbc : b = c
  · subst hbc
    have hins : fiber (update o x (some b)) b = insert x (fiber o b) := by
      ext y
      rw [Finset.mem_insert, mem_fiber, mem_fiber]
      rcases eq_or_ne y x with rfl | hy
      · simp
      · simp [hy]
    rw [hins, Finset.card_insert_of_notMem (by simp [mem_fiber, hx]), if_pos rfl]
  · have hsame : fiber (update o x (some b)) c = fiber o c := by
      ext y
      rw [mem_fiber, mem_fiber]
      rcases eq_or_ne y x with rfl | hy
      · simp [hx, hbc]
      · rw [update_of_ne hy]
    rw [hsame, if_neg hbc, Nat.add_zero]

/-- A point with a value loses it. -/
theorem card_fiber_erase {o : α → Option β} {x : α} {b : β} (hx : o x = some b) (c : β) :
    (fiber (update o x none) c).card + (if b = c then 1 else 0) = (fiber o c).card := by
  rw [← card_fiber_update (update_self x none o) b c, update_idem, ← hx, update_eq_self]

end Fiber

/-! ## The law -/

/-- Neither free nor a zombie. -/
def Live (s : Machine) (q : Fin NPROC) : Prop := (s.proc q).status ≠ .free ∧ (s.proc q).status ≠ .zombie

instance (s : Machine) (q : Fin NPROC) : Decidable (Live s q) := inferInstanceAs (Decidable (_ ∧ _))

/-- All descriptors of the system. -/
def descs (s : Machine) (x : Fin NPROC × Fin NOFILE) : Option (Fin NFILE) := (s.proc x.1).ofile x.2

structure Counted (s : Machine) : Prop where
  refs : ∀ f, (s.files.ftable f).ref = (fiber (descs s) f).card
  dead : ∀ q, ¬ Live s q → ∀ fd, (s.proc q).ofile fd = none

namespace Counted

variable {s s' : Machine}

/-- A step that leaves counts and descriptors alone, and ends only processes without a descriptor. -/
theorem of_same (h : Counted s) (href : ∀ f, (s'.files.ftable f).ref = (s.files.ftable f).ref)
    (hof : ∀ q, (s'.proc q).ofile = (s.proc q).ofile)
    (hdead : ∀ q, ¬ Live s' q → ¬ Live s q ∨ ∀ fd, (s.proc q).ofile fd = none) : Counted s' := by
  refine ⟨fun f => ?_, fun q hq fd => ?_⟩
  · have hd : descs s' = descs s := funext fun x => congrFun (hof x.1) x.2
    rw [href, hd, h.refs]
  · rw [hof]
    rcases hdead q hq with hq | hq
    · exact h.dead q hq fd
    · exact hq fd

end Counted

/-! ## What the calls do to counts and descriptors -/

/-- The counts of the file table. -/
def fileRefs (s : Files) (f : Fin NFILE) : Int := (s.ftable f).ref

theorem fileRefs_congr {s t : Files} (h : s.ftable = t.ftable) : fileRefs s = fileRefs t := by
  funext f
  rw [fileRefs, fileRefs, h]

theorem refs_setFile (s : Files) (f : Fin NFILE) (v : File) :
    fileRefs (s.setFile f v) = update (fileRefs s) f v.ref := by
  funext g
  rcases eq_or_ne g f with rfl | hg
  · simp [fileRefs]
  · simp [fileRefs, Files.setFile_of_ne hg, update_of_ne hg]

theorem refs_setFile_same {s : Files} {f : Fin NFILE} {v : File} (hv : v.ref = (s.ftable f).ref) :
    fileRefs (s.setFile f v) = fileRefs s := by
  rw [refs_setFile, hv]
  exact update_eq_self f (fileRefs s)

theorem fileread_refs (s : Files) (f : Fin NFILE) (n : UInt32) :
    (fileread f n).wp (fun _ s' => fileRefs s' = fileRefs s) (fun _ => True) s := by
  simp only [fileread, iunlock, wp_bind, wp_gets, wp_ite, wp_pure, wp_liftFs, wp_modify, wp_panic]
  refine ⟨fun _ => trivial, fun _ => wp_any _ fun ip t => wp_any _ fun r t' => ⟨fun _ => ?_, fun _ => ?_⟩⟩
  · exact ⟨fun _ => trivial, fun _ => refs_setFile_same rfl⟩
  · exact ⟨fun _ => trivial, fun _ => rfl⟩

theorem filewrite_refs (s : Files) (f : Fin NFILE) (src : Bytes) (n : UInt32) :
    (filewrite f src n).wp (fun _ s' => fileRefs s' = fileRefs s) (fun _ => True) s := by
  simp only [filewrite, iunlock, wp_bind, wp_gets, wp_ite, wp_pure, wp_liftFs, wp_modify, wp_panic]
  refine ⟨fun _ => trivial, fun _ => wp_any _ fun ip t => wp_any _ fun r t' => ⟨fun _ => ?_, fun _ => ?_⟩⟩
  · exact ⟨fun _ => trivial, fun _ => refs_setFile_same rfl⟩
  · exact ⟨fun _ => trivial, fun _ => rfl⟩

theorem filealloc_refs (s : Files) :
    filealloc.wp (fun r s' => match r with
      | some f => fileRefs s f = 0 ∧ fileRefs s' = update (fileRefs s) f 1
      | none => fileRefs s' = fileRefs s) (fun _ => True) s := by
  simp only [filealloc, wp_bind, wp_get]
  cases hf : (List.finRange NFILE).find? fun f => (s.ftable f).ref == 0 with
  | none => exact rfl
  | some f => exact ⟨by simpa [fileRefs] using List.find?_some hf, refs_setFile _ _ _⟩

theorem fileclose_refs (s : Files) (f : Fin NFILE) :
    (fileclose f).wp (fun _ s' => fileRefs s' = update (fileRefs s) f (fileRefs s f - 1))
      (fun _ => True) s := by
  simp only [fileclose, wp_bind, wp_gets, wp_ite, wp_pure, wp_panic, wp_modify]
  refine ⟨fun _ => trivial, fun _ => ⟨fun _ => refs_setFile _ _ _, fun _ => ?_⟩⟩
  have hrefs (v : File) (hv : v.ref = (s.ftable f).ref - 1) :
      fileRefs ((s.setFile f { s.ftable f with ref := (s.ftable f).ref - 1 }).setFile f v) =
        update (fileRefs s) f (fileRefs s f - 1) := by
    rw [refs_setFile, refs_setFile, update_idem, hv]
    rfl
  split
  · rw [wp_liftFs]
    exact wp_any _ fun _ _ => hrefs _ (by simp)
  · exact hrefs _ (by simp)

/-! ## What the calls keep -/

namespace Counted

variable {s s' : Machine} {p : Fin NPROC}

theorem descs_update {fd : Fin NOFILE} {v : Option (Fin NFILE)}
    (hproc : s'.proc = update s.proc p { s.proc p with ofile := update (s.proc p).ofile fd v }) :
    descs s' = update (descs s) (p, fd) v := by
  funext ⟨q, i⟩
  simp only [descs, hproc]
  rcases eq_or_ne q p with rfl | hq
  · rcases eq_or_ne i fd with rfl | hi
    · simp
    · simp [hi, descs]
  · simp [hq, descs]

/-- A live process gets a descriptor for a free entry of the file table. -/
theorem opened (h : Counted s) (hp : Live s p) {fd : Fin NOFILE} (hfd : (s.proc p).ofile fd = none)
    {f : Fin NFILE} (hf : fileRefs s.files f = 0) (hrefs : fileRefs s'.files = update (fileRefs s.files) f 1)
    (hproc : s'.proc = update s.proc p { s.proc p with ofile := update (s.proc p).ofile fd (some f) }) :
    Counted s' := by
  refine ⟨fun g => ?_, fun q hq i => ?_⟩
  · change fileRefs s'.files g = _
    rw [hrefs, descs_update hproc, card_fiber_update (o := descs s) (x := (p, fd)) hfd]
    rcases eq_or_ne g f with rfl | hg
    · have hcard : ((fiber (descs s) g).card : Int) = 0 := (h.refs g).symm.trans hf
      rw [update_self, if_pos rfl, Nat.cast_add, hcard]
      rfl
    · rw [update_of_ne hg, if_neg hg.symm, Nat.add_zero]
      exact h.refs g
  · rcases eq_or_ne q p with rfl | hqp
    · exact absurd (by simpa [Live, hproc] using hp) hq
    · rw [hproc, update_of_ne hqp]
      exact h.dead q (by simpa [Live, hproc, update_of_ne hqp] using hq) i

/-- A process closes a descriptor. -/
theorem closed (h : Counted s) {fd : Fin NOFILE} {f : Fin NFILE} (hfd : (s.proc p).ofile fd = some f)
    (hrefs : fileRefs s'.files = update (fileRefs s.files) f (fileRefs s.files f - 1))
    (hproc : s'.proc = update s.proc p { s.proc p with ofile := update (s.proc p).ofile fd none }) :
    Counted s' := by
  refine ⟨fun g => ?_, fun q hq i => ?_⟩
  · change fileRefs s'.files g = _
    have hcard := card_fiber_erase (o := descs s) (x := (p, fd)) hfd g
    have hg : fileRefs s.files g = (fiber (descs s) g).card := h.refs g
    rw [hrefs, descs_update hproc]
    rcases eq_or_ne g f with rfl | hgf
    · rw [if_pos rfl] at hcard
      rw [update_self, hg, ← hcard, Nat.cast_add, Nat.cast_one, add_sub_cancel_right]
    · rw [if_neg hgf.symm, Nat.add_zero] at hcard
      rw [update_of_ne hgf, hcard, hg]
  · rcases eq_or_ne q p with rfl | hqp
    · have hnone := h.dead q (by simpa [Live, hproc] using hq) fd
      rw [hfd] at hnone
      exact absurd hnone (by simp)
    · rw [hproc, update_of_ne hqp]
      exact h.dead q (by simpa [Live, hproc, update_of_ne hqp] using hq) i

/-- Only the file table changes, and no count of it. -/
theorem files (h : Counted s) {t : Files} (ht : fileRefs t = fileRefs s.files) :
    Counted { s with files := t } :=
  h.of_same (fun f => congrFun ht f) (fun _ => rfl) fun _ hq => .inl hq

theorem sysOpen (h : Counted s) (hp : Live s p) (a : Args) :
    (sysOpen p a).wp (fun _ s' => Counted s') (fun _ => True) s := by
  simp only [Kernel.sysOpen, wp_bind, wp_liftFiles, wp_liftFs]
  refine wp_any _ fun r t => ?_
  cases r with
  | none => exact h.files rfl
  | some ip =>
      simp only [wp_bind, wp_liftFiles]
      refine wp_post (filealloc_refs _) fun r t' hr => ?_
      cases r with
      | none =>
          simp only [wp_bind, wp_liftFiles, wp_liftFs, wp_pure]
          exact wp_any _ fun _ _ => wp_any _ fun _ _ => h.files hr
      | some f =>
          obtain ⟨hf, hrefs⟩ := hr
          simp only [wp_bind, wp_gets]
          cases hfd : (List.finRange NOFILE).find? fun i => (s.proc p).ofile i == none with
          | none =>
              simp only [wp_bind, wp_liftFiles, wp_liftFs, wp_pure]
              refine wp_post (fileclose_refs _ f) fun _ t'' ht => ?_
              refine wp_any _ fun _ _ => wp_any _ fun _ _ => h.files ?_
              change fileRefs t'' = _
              rw [ht, hrefs, update_self, update_idem]
              rw [show (1 : Int) - 1 = fileRefs s.files f from hf.symm]
              exact update_eq_self f (fileRefs s.files)
          | some fd =>
              simp only [wp_bind, wp_liftFiles, wp_liftFs, wp_modify, wp_pure]
              refine wp_any _ fun _ _ => h.opened hp (by simpa using List.find?_some hfd) hf ?_ rfl
              exact (fileRefs_congr rfl).trans ((refs_setFile_same (by rfl)).trans hrefs)

theorem fdFile_some {fd : UInt32} {i : Fin NOFILE} {f : Fin NFILE} (h : fdFile s p fd = some (i, f)) :
    (s.proc p).ofile i = some f := by
  unfold fdFile at h
  split at h
  · simp only [Option.map_eq_some_iff, Prod.mk.injEq] at h
    obtain ⟨_, hg, rfl, rfl⟩ := h
    exact hg
  · exact absurd h (by simp)

theorem sysClose (h : Counted s) (a : Args) :
    (sysClose p a).wp (fun _ s' => Counted s') (fun _ => True) s := by
  simp only [Kernel.sysClose, wp_bind, wp_get]
  cases hfd : fdFile s p (argint a.a0) with
  | none => exact h
  | some r =>
      obtain ⟨fd, f⟩ := r
      simp only [wp_bind, wp_liftFiles, wp_modify, wp_pure]
      exact wp_post (fileclose_refs _ f) fun _ t ht => h.closed (fdFile_some hfd) ht rfl

theorem sysRead (h : Counted s) (a : Args) :
    (sysRead p a).wp (fun _ s' => Counted s') (fun _ => True) s := by
  simp only [Kernel.sysRead, wp_bind, wp_get]
  split
  · exact h
  · rw [wp_liftFiles]
    exact wp_post (fileread_refs _ _ _) fun _ t ht => h.files ht

theorem sysWrite (h : Counted s) (a : Args) :
    (sysWrite p a).wp (fun _ s' => Counted s') (fun _ => True) s := by
  simp only [Kernel.sysWrite, wp_bind, wp_get, wp_ite]
  refine ⟨fun _ => h, fun _ => ?_⟩
  split
  · exact h
  · rw [wp_liftFiles]
    exact wp_post (filewrite_refs _ _ _ _) fun _ t ht => h.files ht

theorem fileCall (h : Counted s) (hp : Live s p) (a : Args) (c : FileCall) :
    (fileCall p a c).wp (fun _ s' => Counted s') (fun _ => True) s := by
  cases c with
  | «open» => exact (wp_bind _ _).2 (h.sysOpen hp a)
  | read => exact h.sysRead a
  | write => exact (wp_bind _ _).2 (h.sysWrite a)
  | close => exact (wp_bind _ _).2 (h.sysClose a)

end Counted

/-- Code about processes: no file and no descriptor changes, and nobody alive dies. -/
structure Quiet (s s' : Machine) : Prop where
  files : s'.files = s.files
  ofile : ∀ q, (s'.proc q).ofile = (s.proc q).ofile
  live : ∀ q, Live s q → Live s' q

namespace Quiet

variable {s t : Machine}

theorem refl (s : Machine) : Quiet s s := ⟨rfl, fun _ => rfl, fun _ h => h⟩

/-- A slot that was free or a zombie at the start is worked on. -/
theorem modProc (h : Quiet s t) {c : Fin NPROC} (hc : ¬ Live s c) {f : Proc → Proc}
    (hf : ∀ v, (f v).ofile = v.ofile) : Quiet s (t.modProc c f) := by
  refine ⟨h.files, fun q => ?_, fun q hq => ?_⟩
  · rcases eq_or_ne q c with rfl | hqc
    · rw [Machine.modProc_self, hf, h.ofile]
    · rw [Machine.modProc_of_ne hqc, h.ofile]
  · have hqc : q ≠ c := fun e => hc (e ▸ hq)
    simpa [Live, Machine.modProc_of_ne hqc] using h.live q hq

theorem counted (h : Quiet s t) (hc : Counted s) : Counted t :=
  hc.of_same (fun f => by rw [h.files]) h.ofile fun q hq => .inl fun hl => hq (h.live q hl)

end Quiet

theorem freeSlot_not_live {s : Machine} {c : Fin NPROC} (h : freeSlot s = some c) : ¬ Live s c :=
  fun hl => hl.1 (by simpa using List.find?_some h)

section Quiet
variable {s t : Machine} {E : Halt → Prop}

theorem quiet_phys {α : Type} (p : Prog Phys α) (h : Quiet s t) :
    (liftPhys p).wp (fun _ t' => Quiet s t') (fun _ => True) t := by
  rw [wp_liftPhys]
  exact wp_any _ fun _ _ => ⟨h.files, h.ofile, h.live⟩

theorem quiet_modProc {c : Fin NPROC} (hc : ¬ Live s c) {f : Proc → Proc} (hf : ∀ v, (f v).ofile = v.ofile)
    (h : Quiet s t) : (modify fun u => u.modProc c f : Prog Machine Unit).wp (fun _ t' => Quiet s t') E t :=
  h.modProc hc hf

theorem quiet_gets {α : Type} (f : Machine → α) (h : Quiet s t) :
    (gets f).wp (fun _ t' => Quiet s t') E t := h

theorem quiet_allocpid (h : Quiet s t) : allocpid.wp (fun _ t' => Quiet s t') E t :=
  ⟨h.files, h.ofile, h.live⟩

theorem allocproc_quiet (s : Machine) :
    allocproc.wp (fun r s' => Quiet s s' ∧ ∀ np, r = some np → freeSlot s = some np) (fun _ => True) s := by
  rw [allocproc, wp_bind, wp_get]
  cases hc : freeSlot s with
  | none => exact ⟨.refl s, fun _ h => absurd h (by simp)⟩
  | some c =>
      have hdead := freeSlot_not_live hc
      refine wp_seq (quiet_allocpid (.refl s)) fun pid t hq => ?_
      refine wp_seq (quiet_modProc hdead (fun _ => rfl) hq) fun _ t hq => ?_
      refine wp_seq (quiet_phys _ hq) fun tf t hq => ?_
      refine wp_seq (quiet_modProc hdead (fun _ => rfl) hq) fun _ t hq => ?_
      refine (wp_ite _ _ _).2 ⟨fun _ => ?_, fun _ => ?_⟩
      · refine wp_seq (quiet_modProc hdead (fun _ => rfl) hq) fun _ t hq => ?_
        exact ⟨hq, fun _ h => absurd h (by simp)⟩
      · exact wp_seq (quiet_modProc hdead (fun _ => rfl) hq) fun _ t hq => ⟨hq, fun _ h => h⟩

theorem fork_quiet (s : Machine) (p : Fin NPROC) :
    (fork p).wp (fun r s' => Quiet s s' ∧ ∀ np, r = some np → freeSlot s = some np) (fun _ => True) s := by
  rw [fork]
  refine wp_seq (allocproc_quiet s) fun r t ⟨hq, hr⟩ => ?_
  cases r with
  | none => exact ⟨hq, fun _ h => absurd h (by simp)⟩
  | some np =>
      have hdead := freeSlot_not_live (hr np rfl)
      refine wp_seq (quiet_phys _ hq) fun ks t hq => ?_
      refine wp_seq (quiet_modProc hdead (fun _ => rfl) hq) fun _ t hq => ?_
      refine (wp_ite _ _ _).2 ⟨fun _ => ?_, fun _ => ?_⟩
      · refine wp_seq (quiet_modProc hdead (fun _ => rfl) hq) fun _ t hq => ?_
        exact ⟨hq, fun _ h => absurd h (by simp)⟩
      · refine wp_seq (quiet_gets _ hq) fun dst t hq => ?_
        refine wp_seq (quiet_gets _ hq) fun src t hq => ?_
        refine wp_seq (quiet_phys _ hq) fun _ t hq => ?_
        refine wp_seq (quiet_phys _ hq) fun _ t hq => ?_
        refine wp_seq (quiet_modProc hdead (fun _ => rfl) hq) fun _ t hq => ?_
        exact wp_seq (quiet_modProc hdead (fun _ => rfl) hq) fun _ t hq => ⟨hq, hr⟩

theorem kfreePtr_quiet (pa : Nat) (h : Quiet s t) :
    (kfreePtr pa).wp (fun _ t' => Quiet s t') (fun _ => True) t :=
  (wp_ite _ _ _).2 ⟨fun _ => quiet_phys _ h, fun _ => h⟩

end Quiet

/-- `exit` ends its process and nobody else. -/
theorem exit_run (s : Machine) (p : Fin NPROC) (status : Int32) :
    (exit p status).wp (fun _ s' => s'.files = s.files ∧ (∀ q, (s'.proc q).ofile = (s.proc q).ofile) ∧
      ∀ q, q ≠ p → Live s q → Live s' q) (fun _ => True) s := by
  simp only [exit, wakeup, wp_bind, wp_modify, wp_gets]
  refine ⟨rfl, fun q => ?_, fun q hqp hq => ?_⟩
  · rcases eq_or_ne q p with rfl | hqp
    · simp
    · simp [Machine.modProc_of_ne hqp]
  · rw [Live, Machine.modProc_of_ne hqp]
    rcases Machine.wake_status _ p q _ with h | ⟨-, h⟩
    · rw [h, Machine.reparent_status, Machine.modProc_of_ne hqp]
      exact hq
    · rw [h]
      exact ⟨by simp, by simp⟩

namespace Counted

variable {s : Machine} {p : Fin NPROC}

theorem waitPass (h : Counted s) (hp : Live s p) :
    (waitPass p).wp (fun _ s' => Counted s') (fun _ => True) s := by
  simp only [Kernel.waitPass, wp_bind, wp_get]
  split
  · rename_i c hc
    have hdead : ¬ Live s c := fun hl => hl.2 (by simpa using (by simpa using List.find?_some hc :
      (s.proc c).parent = some p ∧ _).2)
    refine wp_seq (quiet_gets _ (.refl s)) fun child t hq => ?_
    refine wp_seq (quiet_modProc hdead (fun _ => rfl) hq) fun _ t hq => ?_
    refine wp_seq (kfreePtr_quiet _ hq) fun _ t hq => ?_
    refine wp_seq (quiet_modProc hdead (fun _ => rfl) hq) fun _ t hq => ?_
    refine wp_seq (kfreePtr_quiet _ hq) fun _ t hq => ?_
    exact wp_seq (quiet_modProc hdead (fun _ => rfl) hq) fun _ t hq => hq.counted h
  · simp only [wp_ite, wp_bind, wp_modify, wp_pure]
    refine ⟨fun _ => h.of_same (fun _ => rfl) (fun q => ?_) fun q hq => .inl fun hl => hq ?_, fun _ => h⟩
    · rcases eq_or_ne q p with rfl | hqp
      · simp
      · simp [Machine.modProc_of_ne hqp]
    · rcases eq_or_ne q p with rfl | hqp
      · simp [Live]
      · simpa [Live, Machine.modProc_of_ne hqp] using hl

/-- A live process changes its status or its channel, and stays alive. -/
theorem modProc (h : Counted s) {f : Proc → Proc} (hof : (f (s.proc p)).ofile = (s.proc p).ofile)
    (hlive : (f (s.proc p)).status ≠ .free ∧ (f (s.proc p)).status ≠ .zombie) : Counted (s.modProc p f) := by
  refine h.of_same (fun _ => rfl) (fun q => ?_) fun q hq => .inl fun hl => hq ?_
  · rcases eq_or_ne q p with rfl | hqp
    · rw [Machine.modProc_self, hof]
    · rw [Machine.modProc_of_ne hqp]
  · rcases eq_or_ne q p with rfl | hqp
    · simpa [Live] using hlive
    · simpa [Live, Machine.modProc_of_ne hqp] using hl

end Counted

/-! ## Runs of the kernel -/

/-- The process has no open descriptor. -/
def NoFiles (s : Machine) (p : Fin NPROC) : Prop := ∀ fd, (s.proc p).ofile fd = none

instance (s : Machine) (p : Fin NPROC) : Decidable (NoFiles s p) := inferInstanceAs (Decidable (∀ _, _))

/-- No file is open anywhere. -/
structure Blank (s : Machine) : Prop where
  refs : ∀ f, (s.files.ftable f).ref = 0
  ofile : ∀ q fd, (s.proc q).ofile fd = none

theorem Blank.counted {s : Machine} (h : Blank s) : Counted s :=
  ⟨fun f => by simp [h.refs f, fiber, descs, h.ofile], fun q _ => h.ofile q⟩

/-- The child `c` of `p` shares its descriptors: the same entries of the file table, each counted once more
for every descriptor, so that a read or a write by either is the same action on it and it outlives the first
close. `s` is the state before the `fork`, `s'` the state after it. -/
structure Shares (p c : Fin NPROC) (s s' : Machine) : Prop where
  same : ∀ fd, (s'.proc c).ofile fd = (s.proc p).ofile fd
  counted : ∀ f, (s'.files.ftable f).ref = (s.files.ftable f).ref + (fiber (s.proc p).ofile f).card
  read : ∀ a, (sysRead c a).run s' = (sysRead p a).run s'
  write : ∀ a, (sysWrite c a).run s' = (sysWrite p a).run s'
  stays : ∀ fd f, (s.proc p).ofile fd = some f → ∀ r t, (fileclose f).run s'.files = .ok (r, t) →
    0 < (t.ftable f).ref ∧ (t.ftable f).ip = (s'.files.ftable f).ip

/-- The parent has no open descriptor, and the slot the child gets has none from before. -/
def NothingToShare (s : Machine) (p : Fin NPROC) : Prop :=
  NoFiles s p ∧ ∀ c, freeSlot s = some c → NoFiles s c

theorem fdFile_of_noFiles {s : Machine} {p : Fin NPROC} (h : NoFiles s p) (fd : UInt32) :
    fdFile s p fd = none := by
  unfold fdFile
  split
  · rw [h]
    rfl
  · rfl

/-- **A `fork` shares the descriptors of the parent exactly when there is nothing to share.** -/
theorem fork_shares_iff {s s' : Machine} {p np : Fin NPROC} (h : (fork p).run s = .ok (some np, s')) :
    Shares p np s s' ↔ NothingToShare s p := by
  obtain ⟨hq, hnp⟩ := wp_ok (fork_quiet s p) h
  have hslot := hnp np rfl
  constructor
  · intro hs
    have hno : NoFiles s p := by
      intro fd
      cases hfd : (s.proc p).ofile fd with
      | none => rfl
      | some f =>
          have hmem : fd ∈ fiber (s.proc p).ofile f := mem_fiber.2 hfd
          have hcount := hs.counted f
          rw [hq.files] at hcount
          have hpos := Finset.card_pos.2 ⟨fd, hmem⟩
          generalize (fiber (s.proc p).ofile f).card = n at hcount hpos
          omega
    refine ⟨hno, fun c hc fd => ?_⟩
    obtain rfl : np = c := Option.some.inj (hslot.symm.trans hc)
    rw [← hq.ofile, hs.same, hno]
  · rintro ⟨hno, hfree⟩
    have hp : NoFiles s' p := fun fd => by rw [hq.ofile, hno]
    have hc : NoFiles s' np := fun fd => by rw [hq.ofile, hfree np hslot]
    have hempty (f : Fin NFILE) : fiber (s.proc p).ofile f = ∅ := by
      ext fd
      simp [mem_fiber, hno fd]
    refine ⟨fun fd => by rw [hc, hno], fun f => by rw [hq.files, hempty]; simp, fun a => ?_, fun a => ?_,
      fun fd f hfd => absurd hfd (by simp [hno fd])⟩
    · simp only [sysRead, run_bind, Prog.get, Prog.run, id, fdFile_of_noFiles hp, fdFile_of_noFiles hc]
    · simp only [sysWrite, run_bind, Prog.get, Prog.run, id, fdFile_of_noFiles hp, fdFile_of_noFiles hc, hp _, hc _]

/-! ## Runs on a small disk -/

/-- The kernel over an image of 24 blocks, with eight free pages. -/
def smallKernel : Machine :=
  (startMain 0).exec (Machine.image ((Mkfs.main 24).exec Mkfs.boot).blocks (PHYSTOP - 8 * PGSIZE))

theorem booted_smallKernel : Booted smallKernel := by
  obtain ⟨_, hmk⟩ := run_exec (p := Mkfs.main 24) (s := Mkfs.boot) (by decide +kernel)
  obtain ⟨_, hst⟩ := run_exec (p := startMain 0)
    (s := Machine.image ((Mkfs.main 24).exec Mkfs.boot).blocks (PHYSTOP - 8 * PGSIZE)) (by decide +kernel)
  exact ⟨24, _, _, 0, hmk, hst⟩

/-- The arguments of `open("/", O_RDONLY)`. -/
def openRoot : Args := { a0 := 0, a1 := 0, a2 := 0, mem := fun a => if a = 0 then slash else 0 }

/-- Slot 0, of init, and slot 1. -/
def init : Fin NPROC := ⟨0, nproc_pos⟩
def child : Fin NPROC := ⟨1, by decide⟩

def runs (s : Machine) (p : Fin NPROC) : Machine := s.modProc p fun v => { v with status := .running }

def ready (s : Machine) (p : Fin NPROC) : Machine := s.modProc p fun v => { v with status := .ready }

/-- Init runs and has opened the root directory. -/
def initOpened : Machine := (fileCall init openRoot .open).exec (runs smallKernel init)

theorem reach_initOpened (ok : Machine → Fin NPROC → Prop) : Reach Booted (Step ok) initOpened := by
  obtain ⟨_, hr⟩ := run_exec (p := fileCall init openRoot .open) (s := runs smallKernel init) (by decide +kernel)
  refine .next (.next (.start booted_smallKernel) (.dispatch (p := init) ?_ ?_)) (.file (p := init) ?_ ?_ hr)
  all_goals decide +kernel

/-- Init, with no file open, forks. -/
theorem fork_shares_nothing : ∃ s', (fork init).run (runs smallKernel init) = .ok (some child, s') ∧
    Shares init child (runs smallKernel init) s' := by
  obtain ⟨r, hr⟩ := run_exec (p := fork init) (s := runs smallKernel init) (by decide +kernel)
  have hnp : ((fork init).run (runs smallKernel init)).toOption.map Prod.fst = some (some child) := by
    decide +kernel
  obtain rfl : r = some child := by simpa [hr, Except.toOption] using hnp
  refine ⟨_, hr, (fork_shares_iff hr).2 ⟨by decide +kernel, fun c hc => ?_⟩⟩
  have hslot : freeSlot (runs smallKernel init) = some child := by decide +kernel
  obtain rfl : child = c := Option.some.inj (hslot.symm.trans hc)
  exact by decide +kernel

/-- A child of a process with an open file does not get it. -/
theorem fork_does_not_share : ∃ s s' np, Reach Booted (Step fun _ _ => True) s ∧
    (s.proc init).status = .running ∧ (fork init).run s = .ok (some np, s') ∧ ¬ Shares init np s s' := by
  obtain ⟨r, hr⟩ := run_exec (p := fork init) (s := initOpened) (by decide +kernel)
  have hnp : ((fork init).run initOpened).toOption.map Prod.fst = some (some child) := by decide +kernel
  obtain rfl : r = some child := by simpa [hr, Except.toOption] using hnp
  refine ⟨initOpened, _, child, reach_initOpened _, by decide +kernel, hr, fun h => ?_⟩
  have hsame := h.same ⟨0, by decide⟩
  have hchild : (((fork init).exec initOpened).proc child).ofile ⟨0, by decide⟩ = none := by decide +kernel
  have hinit : (initOpened.proc init).ofile ⟨0, by decide⟩ = some ⟨0, by decide⟩ := by decide +kernel
  rw [hchild, hinit] at hsame
  exact absurd hsame (by simp)

end RiscvOsLab.Kernel
