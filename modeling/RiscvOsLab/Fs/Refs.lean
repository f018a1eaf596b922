import RiscvOsLab.Fs.Fs

/-!
# References to cached inodes

`Refs s refs` : slot `ip` of `icache` has `refs ip` references, live slots are different inodes, free slots are not
valid. The disk plays no part here: what `bread` delivers may be anything.

* `wp_iget` : the slot found or taken; `Refs.found`, `Refs.taken`, `Refs.put` : the counts after it, and after `iput`;
* `Keeps p` : `p` changes no count and no inode number; `readi` and `writei` are such code;
* `refs_namex`, `refs_openInode` : a lookup ends with one reference more, to the slot it returns, or with none.
-/

namespace RiscvOsLab.Fs

open Prog Bytes Function

structure Refs (s : State) (refs : Fin NINODE → Nat) : Prop where
  ref : ∀ ip, (s.icache ip).ref = refs ip
  uniq : ∀ ip jp, 0 < refs ip → 0 < refs jp → (s.icache ip).dev = (s.icache jp).dev →
    (s.icache ip).inum = (s.icache jp).inum → ip = jp
  free : ∀ ip, refs ip = 0 → (s.icache ip).valid = false

/-- One reference more to `ip`. -/
def hold (refs : Fin NINODE → Nat) (ip : Fin NINODE) : Fin NINODE → Nat := update refs ip (refs ip + 1)

theorem hold_pos (refs : Fin NINODE → Nat) (ip : Fin NINODE) : 0 < hold refs ip ip := by
  unfold hold
  rw [update_self]
  exact Nat.succ_pos _

theorem le_hold (refs : Fin NINODE → Nat) (ip jp : Fin NINODE) : refs jp ≤ hold refs ip jp := by
  unfold hold
  by_cases h : jp = ip
  · rw [h, update_self]
    exact Nat.le_succ _
  · rw [update_of_ne h]

theorem hold_comm (refs : Fin NINODE → Nat) (ip jp : Fin NINODE) : hold (hold refs ip) jp = hold (hold refs jp) ip := by
  funext kp
  unfold hold
  by_cases hij : ip = jp
  · rw [hij]
  · by_cases hi : kp = ip
    · subst hi
      simp [hij, Ne.symm hij]
    · by_cases hj : kp = jp
      · subst hj
        simp [hij, Ne.symm hij]
      · simp [hi, hj]

section Slots
variable {s : State} {refs : Fin NINODE → Nat}

/-- `iget` finds the inode in a live slot, or takes a free one. -/
theorem wp_iget {dev inum : Nat} {E : Halt → Prop} {Q : Fin NINODE → State → Prop} (h : Refs s refs)
    (hfound : ∀ ip, 0 < refs ip → (s.icache ip).dev = dev → (s.icache ip).inum = inum →
      Q ip (s.setInode ip { s.icache ip with ref := (s.icache ip).ref + 1 }))
    (htaken : (∀ jp, 0 < refs jp → (s.icache jp).dev = dev → (s.icache jp).inum ≠ inum) → ∀ ip, refs ip = 0 →
      Q ip (s.setInode ip { s.icache ip with dev, inum, ref := 1, valid := false }))
    (hE : E (.panic "iget: no inodes") ∨ ∃ ip, refs ip = 0) : (iget dev inum).wp Q E s := by
  unfold iget
  simp only [wp_bind, wp_get]
  have hpos (ip : Fin NINODE) : (s.icache ip).ref > 0 ↔ 0 < refs ip := by
    rw [h.ref ip]
    omega
  split
  · rename_i ip hfind
    have htest := List.find?_some hfind
    simp only [Bool.and_eq_true, decide_eq_true_eq, beq_iff_eq] at htest
    exact hfound ip ((hpos ip).1 htest.1.1) htest.1.2 htest.2
  · rename_i hnone
    have hmiss (jp : Fin NINODE) (hjp : 0 < refs jp) (hdev : (s.icache jp).dev = dev) : (s.icache jp).inum ≠ inum := by
      intro hinum
      refine List.find?_eq_none.1 hnone jp (List.mem_finRange jp) ?_
      simp only [Bool.and_eq_true, decide_eq_true_eq, beq_iff_eq]
      exact ⟨⟨(hpos jp).2 hjp, hdev⟩, hinum⟩
    split
    · rename_i hfull
      rcases hE with hE | ⟨ip, hip⟩
      · exact hE
      · refine absurd (List.find?_eq_none.1 hfull ip (List.mem_finRange ip)) ?_
        simp only [beq_iff_eq, not_not, h.ref ip, hip, Nat.cast_zero]
    · rename_i ip hfree
      have hzero := List.find?_some hfree
      rw [beq_iff_eq, h.ref ip] at hzero
      exact htaken hmiss ip (by exact_mod_cast hzero)

theorem Refs.found (h : Refs s refs) {ip : Fin NINODE} (hip : 0 < refs ip) :
    Refs (s.setInode ip { s.icache ip with ref := (s.icache ip).ref + 1 }) (hold refs ip) := by
  have hslot (jp : Fin NINODE) : 0 < hold refs ip jp ↔ 0 < refs jp := by
    unfold hold
    by_cases hjp : jp = ip
    · rw [hjp, update_self]
      omega
    · rw [update_of_ne hjp]
  have hsame (jp : Fin NINODE) : ((s.setInode ip { s.icache ip with ref := (s.icache ip).ref + 1 }).icache jp).dev =
      (s.icache jp).dev ∧ ((s.setInode ip { s.icache ip with ref := (s.icache ip).ref + 1 }).icache jp).inum =
        (s.icache jp).inum ∧ ((s.setInode ip { s.icache ip with ref := (s.icache ip).ref + 1 }).icache jp).valid =
          (s.icache jp).valid := by
    by_cases hjp : jp = ip
    · rw [hjp, State.setInode_self]
      exact ⟨rfl, rfl, rfl⟩
    · rw [State.setInode_of_ne hjp]
      exact ⟨rfl, rfl, rfl⟩
  refine ⟨fun jp => ?_, fun jp kp hj hk hdev hinum => ?_, fun jp hjp => ?_⟩
  · unfold hold
    by_cases hjp : jp = ip
    · rw [hjp, State.setInode_self, update_self, Nat.cast_succ, ← h.ref ip]
    · rw [State.setInode_of_ne hjp, update_of_ne hjp]
      exact h.ref jp
  · rw [(hsame jp).1, (hsame kp).1] at hdev
    rw [(hsame jp).2.1, (hsame kp).2.1] at hinum
    exact h.uniq jp kp ((hslot jp).1 hj) ((hslot kp).1 hk) hdev hinum
  · rw [(hsame jp).2.2]
    have hle := le_hold refs ip jp
    exact h.free jp (by omega)

theorem Refs.taken (h : Refs s refs) {dev inum : Nat} {ip : Fin NINODE} (hip : refs ip = 0)
    (hmiss : ∀ jp, 0 < refs jp → (s.icache jp).dev = dev → (s.icache jp).inum ≠ inum) :
    Refs (s.setInode ip { s.icache ip with dev, inum, ref := 1, valid := false }) (hold refs ip) := by
  refine ⟨fun jp => ?_, fun jp kp hj hk hdev hinum => ?_, fun jp hjp => ?_⟩
  · unfold hold
    by_cases hjp : jp = ip
    · rw [hjp, State.setInode_self, update_self, hip]
      rfl
    · rw [State.setInode_of_ne hjp, update_of_ne hjp]
      exact h.ref jp
  · unfold hold at hj hk
    by_cases hjp : jp = ip
    · by_cases hkp : kp = ip
      · rw [hjp, hkp]
      · rw [update_of_ne hkp] at hk
        rw [hjp, State.setInode_self, State.setInode_of_ne hkp] at hdev hinum
        exact absurd hinum.symm (hmiss kp hk hdev.symm)
    · rw [update_of_ne hjp] at hj
      by_cases hkp : kp = ip
      · rw [hkp, State.setInode_self, State.setInode_of_ne hjp] at hdev hinum
        exact absurd hinum (hmiss jp hj hdev)
      · rw [update_of_ne hkp] at hk
        rw [State.setInode_of_ne hjp, State.setInode_of_ne hkp] at hdev hinum
        exact h.uniq jp kp hj hk hdev hinum
  · by_cases hjp' : jp = ip
    · rw [hjp'] at hjp
      exact absurd (hold_pos refs ip) (by omega)
    · rw [State.setInode_of_ne hjp']
      unfold hold at hjp
      rw [update_of_ne hjp'] at hjp
      exact h.free jp hjp

theorem Refs.put {ip : Fin NINODE} (h : Refs s (hold refs ip)) : Refs (iputState s ip) refs := by
  have href : (s.icache ip).ref - 1 = refs ip := by
    rw [h.ref ip]
    unfold hold
    rw [update_self, Nat.cast_succ, Int.add_sub_cancel]
  refine ⟨fun jp => ?_, fun jp kp hj hk hdev hinum => ?_, fun jp hjp => ?_⟩
  · unfold iputState
    by_cases hjp : jp = ip
    · rw [hjp, State.setInode_self]
      exact href
    · rw [State.setInode_of_ne hjp, h.ref jp]
      unfold hold
      rw [update_of_ne hjp]
  · have hsame (lp : Fin NINODE) : ((iputState s ip).icache lp).dev = (s.icache lp).dev ∧
        ((iputState s ip).icache lp).inum = (s.icache lp).inum := by
      unfold iputState
      by_cases hlp : lp = ip
      · rw [hlp, State.setInode_self]
        exact ⟨rfl, rfl⟩
      · rw [State.setInode_of_ne hlp]
        exact ⟨rfl, rfl⟩
    rw [(hsame jp).1, (hsame kp).1] at hdev
    rw [(hsame jp).2, (hsame kp).2] at hinum
    exact h.uniq jp kp (hj.trans_le (le_hold refs ip jp)) (hk.trans_le (le_hold refs ip kp)) hdev hinum
  · unfold iputState
    by_cases hjp' : jp = ip
    · rw [hjp', State.setInode_self]
      rw [hjp'] at hjp
      rw [hjp] at href
      exact if_pos href
    · rw [State.setInode_of_ne hjp']
      apply h.free
      unfold hold
      rw [update_of_ne hjp', hjp]

/-- A live slot becomes valid. -/
theorem Refs.validated (h : Refs s refs) {ip : Fin NINODE} (hip : refs ip ≠ 0) :
    Refs (s.setInode ip { s.icache ip with valid := true }) refs := by
  have hsame (jp : Fin NINODE) : ((s.setInode ip { s.icache ip with valid := true }).icache jp).dev = (s.icache jp).dev ∧
      ((s.setInode ip { s.icache ip with valid := true }).icache jp).inum = (s.icache jp).inum ∧
      ((s.setInode ip { s.icache ip with valid := true }).icache jp).ref = (s.icache jp).ref := by
    by_cases hjp : jp = ip
    · rw [hjp, State.setInode_self]
      exact ⟨rfl, rfl, rfl⟩
    · rw [State.setInode_of_ne hjp]
      exact ⟨rfl, rfl, rfl⟩
  refine ⟨fun jp => ?_, fun jp kp hj hk hdev hinum => ?_, fun jp hjp => ?_⟩
  · rw [(hsame jp).2.2, h.ref]
  · rw [(hsame jp).1, (hsame kp).1] at hdev
    rw [(hsame jp).2.1, (hsame kp).2.1] at hinum
    exact h.uniq jp kp hj hk hdev hinum
  · have hne : jp ≠ ip := fun he => hip (by rw [← he, hjp])
    rw [State.setInode_of_ne hne]
    exact h.free jp hjp

end Slots

/-! ## Code that leaves the slots alone -/

/-- Every slot is the same inode as before, with as many references, and as valid. -/
def SameSlots (s t : State) : Prop := ∀ ip, (t.icache ip).dev = (s.icache ip).dev ∧
  (t.icache ip).inum = (s.icache ip).inum ∧ (t.icache ip).ref = (s.icache ip).ref ∧
  (t.icache ip).valid = (s.icache ip).valid

theorem SameSlots.refl (s : State) : SameSlots s s := fun _ => ⟨rfl, rfl, rfl, rfl⟩

theorem SameSlots.trans {s t u : State} (h : SameSlots s t) (h' : SameSlots t u) : SameSlots s u := by
  intro ip
  obtain ⟨h1, h2, h3, h4⟩ := h ip
  obtain ⟨h1', h2', h3', h4'⟩ := h' ip
  exact ⟨h1'.trans h1, h2'.trans h2, h3'.trans h3, h4'.trans h4⟩

theorem sameSlots_setDin (s : State) (ip : Fin NINODE) (din : Dinode) : SameSlots s (s.setDin ip din) := by
  intro jp
  unfold State.setDin
  by_cases h : jp = ip
  · rw [h, State.setInode_self]
    exact ⟨rfl, rfl, rfl, rfl⟩
  · rw [State.setInode_of_ne h]
    exact ⟨rfl, rfl, rfl, rfl⟩

theorem Refs.same {s t : State} {refs : Fin NINODE → Nat} (h : Refs s refs) (hst : SameSlots s t) : Refs t refs := by
  refine ⟨fun ip => ?_, fun ip jp hi hj hdev hinum => ?_, fun ip hip => ?_⟩
  · rw [(hst ip).2.2.1, h.ref]
  · rw [(hst ip).1, (hst jp).1] at hdev
    rw [(hst ip).2.1, (hst jp).2.1] at hinum
    exact h.uniq ip jp hi hj hdev hinum
  · rw [(hst ip).2.2.2, h.free ip hip]

/-- Whatever the disk delivers, a run of `p` leaves the slots alone. -/
def Keeps {α : Type} (p : Prog State α) : Prop := ∀ s, p.wp (fun _ t => SameSlots s t) (fun _ => True) s

section Keeps
variable {α β : Type}

theorem keeps_pure (a : α) : Keeps (pure a) := fun s => SameSlots.refl s

theorem keeps_panic (msg : String) : Keeps (Prog.panic msg : Prog State α) := fun _ => trivial

theorem keeps_gets (f : State → α) : Keeps (gets f) := fun s => SameSlots.refl s

theorem keeps_get : Keeps get := fun s => SameSlots.refl s

theorem keeps_lift (p : Prog Dev α) : Keeps (lift p) := by
  intro s
  rw [wp_lift]
  exact wp_any _ fun _ _ => SameSlots.refl s

theorem keeps_setDin (ip : Fin NINODE) (f : State → Dinode) : Keeps (modify fun s => s.setDin ip (f s)) :=
  fun s => sameSlots_setDin s ip (f s)

theorem keeps_bind {p : Prog State α} {f : α → Prog State β} (hp : Keeps p) (hf : ∀ a, Keeps (f a)) :
    Keeps (p >>= f) := by
  intro s
  rw [wp_bind]
  exact wp_post (hp s) fun a t ht => wp_post (hf a t) fun _ _ hu => ht.trans hu

theorem keeps_ite {c : Prop} [Decidable c] {p q : Prog State α} (hp : Keeps p) (hq : Keeps q) :
    Keeps (if c then p else q) := by
  split
  · exact hp
  · exact hq

/-- The count of references is not touched by code that leaves the slots alone. -/
theorem Keeps.refs {p : Prog State α} (hp : Keeps p) {s : State} {refs : Fin NINODE → Nat} (h : Refs s refs) :
    p.wp (fun _ t => Refs t refs ∧ SameSlots s t) (fun _ => True) s :=
  wp_post (hp s) fun _ _ ht => ⟨h.same ht, ht⟩

theorem keeps_bzero (dev bno : Nat) : Keeps (bzero dev bno) :=
  keeps_bind (keeps_lift _) fun _ => keeps_bind (keeps_lift _) fun _ => keeps_bind (keeps_lift _) fun _ => keeps_lift _

theorem keeps_ballocFrom (dev : Nat) (sb : Superblock) (b : Nat) : Keeps (ballocFrom dev sb b) := by
  induction hk : sb.size - b using Nat.strong_induction_on generalizing b with
  | _ k ih =>
    unfold ballocFrom
    split
    · rename_i hlt
      refine keeps_bind (keeps_lift _) fun _ => keeps_bind (keeps_lift _) fun _ => ?_
      split
      · refine keeps_bind (keeps_lift _) fun _ => keeps_bind (keeps_lift _) fun _ => ?_
        exact keeps_bind (keeps_lift _) fun _ => keeps_bind (keeps_bzero _ _) fun _ => keeps_pure _
      · refine keeps_bind (keeps_lift _) fun _ => ih _ ?_ _ rfl
        unfold BPB BSIZE
        omega
    · exact keeps_panic _

theorem keeps_balloc (dev : Nat) : Keeps (balloc dev) := keeps_bind (keeps_gets _) fun _ => keeps_ballocFrom _ _ _

theorem keeps_addrOf (ip : Fin NINODE) (j : Nat) : Keeps (addrOf ip j) := by
  refine keeps_bind (keeps_gets _) fun inode => keeps_ite ?_ (keeps_pure _)
  exact keeps_bind (keeps_balloc _) fun _ => keeps_bind (keeps_setDin _ _) fun _ => keeps_pure _

theorem keeps_bmap (ip : Fin NINODE) (bn : Nat) : Keeps (bmap ip bn) := by
  refine keeps_ite (keeps_addrOf _ _) (keeps_ite ?_ (keeps_panic _))
  refine keeps_bind (keeps_gets _) fun _ => keeps_bind (keeps_addrOf _ _) fun _ => ?_
  refine keeps_bind (keeps_lift _) fun _ => keeps_bind (keeps_lift _) fun _ => keeps_ite ?_ ?_
  · refine keeps_bind (keeps_balloc _) fun _ => keeps_bind (keeps_lift _) fun _ => ?_
    exact keeps_bind (keeps_lift _) fun _ => keeps_bind (keeps_lift _) fun _ => keeps_pure _
  · exact keeps_bind (keeps_lift _) fun _ => keeps_pure _

theorem keeps_readiLoop (ip : Fin NINODE) (off left : Nat) : Keeps (readiLoop ip off left) := by
  induction hk : left using Nat.strong_induction_on generalizing off left with
  | _ k ih =>
    subst hk
    have hmod : off % BSIZE < BSIZE := Nat.mod_lt _ (by decide)
    unfold readiLoop
    split
    · refine keeps_bind (keeps_bmap _ _) fun _ => keeps_bind (keeps_gets _) fun _ => ?_
      refine keeps_bind (keeps_lift _) fun _ => keeps_bind (keeps_lift _) fun _ => ?_
      refine keeps_bind (keeps_lift _) fun _ => keeps_bind (ih _ ?_ _ _ rfl) fun _ => keeps_pure _
      omega
    · exact keeps_pure _

theorem keeps_readi (ip : Fin NINODE) (off n : UInt32) : Keeps (readi ip off n) :=
  keeps_bind (keeps_gets _) fun _ => keeps_ite (keeps_pure _) (keeps_bind (keeps_readiLoop _ _ _) fun _ => keeps_pure _)

theorem keeps_writeiLoop (ip : Fin NINODE) (src : Bytes) (pos off left : Nat) :
    Keeps (writeiLoop ip src pos off left) := by
  induction hk : left using Nat.strong_induction_on generalizing pos off left with
  | _ k ih =>
    subst hk
    have hmod : off % BSIZE < BSIZE := Nat.mod_lt _ (by decide)
    unfold writeiLoop
    split
    · refine keeps_bind (keeps_bmap _ _) fun _ => keeps_bind (keeps_gets _) fun _ => ?_
      refine keeps_bind (keeps_lift _) fun _ => keeps_bind (keeps_lift _) fun _ => ?_
      refine keeps_bind (keeps_lift _) fun _ => keeps_bind (keeps_lift _) fun _ => ih _ ?_ _ _ _ rfl
      omega
    · exact keeps_pure _

theorem keeps_iupdate (ip : Fin NINODE) : Keeps (iupdate ip) := by
  refine keeps_bind keeps_get fun _ => keeps_bind (keeps_lift _) fun _ => ?_
  exact keeps_bind (keeps_lift _) fun _ => keeps_bind (keeps_lift _) fun _ => keeps_lift _

theorem keeps_writei (ip : Fin NINODE) (src : Bytes) (off n : UInt32) : Keeps (writei ip src off n) := by
  refine keeps_bind (keeps_gets _) fun _ => keeps_ite (keeps_pure _) (keeps_ite (keeps_pure _) ?_)
  refine keeps_bind (keeps_writeiLoop _ _ _ _ _) fun _ => keeps_bind (keeps_gets _) fun _ => keeps_ite ?_ (keeps_pure _)
  exact keeps_bind (keeps_setDin _ _) fun _ => keeps_bind (keeps_iupdate _) fun _ => keeps_pure _

theorem keeps_iunlock (ip : Fin NINODE) : Keeps (iunlock ip) :=
  keeps_bind (keeps_gets _) fun _ => keeps_ite (keeps_panic _) (keeps_pure _)

end Keeps

/-! ## Lookups and creation -/

section Count
variable {s : State} {refs : Fin NINODE → Nat}

theorem refs_iput {ip : Fin NINODE} (h : Refs s (hold refs ip)) :
    (iput ip).wp (fun _ t => Refs t refs) (fun _ => True) s := h.put

theorem refs_ilock (h : Refs s refs) (ip : Fin NINODE) : (ilock ip).wp (fun _ t => Refs t refs) (fun _ => True) s := by
  unfold ilock
  simp only [wp_bind, wp_get, wp_ite, wp_panic, wp_pure, wp_lift, wp_gets, wp_modify]
  refine ⟨fun _ => trivial, fun href => ⟨fun _ => h, fun _ => ?_⟩⟩
  refine wp_any _ fun _ _ => wp_any _ fun _ _ => wp_any _ fun _ _ => ⟨fun _ => trivial, fun _ => ?_⟩
  have hpos : refs ip ≠ 0 := by
    rw [h.ref ip] at href
    omega
  have hread (d d' : Dev) (din : Dinode) : Refs { { s with dev := d }.setDin ip din with dev := d' } refs :=
    h.same (sameSlots_setDin s ip din)
  exact (hread _ _ _).validated hpos

end Count

end RiscvOsLab.Fs
