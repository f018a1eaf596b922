import RiscvOsLab.Fs.ReadWrite
import RiscvOsLab.Fs.Refs

/-!
# The tree of directories

`lookup` and `walk` are the searches of `dirlookup` and `namex` as functions of the disk. `FsInv s refs` is the
invariant between calls: what is on the disk is sound, what is cached is what is on the disk, and slot `ip` of
`icache` has `refs ip` references.

* `wp_iget`, `wp_ilock`, `wp_iput`, `wp_dirlookup`, `wp_namex` : each keeps `FsInv`, leaves the disk alone and finds what
  the functions say.
-/

namespace RiscvOsLab.Fs

open Prog Bytes Function

/-! ## The searches -/

/-- The directory entry at `off`. -/
def direntAt (D : Nat → Block) (din : Dinode) (off : Nat) : Bytes := fun i => (bytesFrom D din off DIRENT).getD i 0

theorem direntAt_eq (D : Nat → Block) (din : Dinode) (off : Nat) {i : Nat} (hi : i < DIRENT) :
    direntAt D din off i = contents D din (off + i) := by
  unfold direntAt bytesFrom
  rw [List.getD_eq_getElem?_getD, List.getElem?_map, List.getElem?_range hi]
  rfl

/-- The number of the first entry from `off` on with this name. -/
def lookupFrom (D : Nat → Block) (din : Dinode) (name : Bytes) (off : Nat) : Option Nat :=
  if off < din.size.toNat then
    if deInum (direntAt D din off) = 0 then lookupFrom D din name (off + DIRENT)
    else if nameMatch (deName (direntAt D din off)) name DIRSIZ 0 then some (deInum (direntAt D din off)).toNat
    else lookupFrom D din name (off + DIRENT)
  else none
termination_by din.size.toNat - off
decreasing_by all_goals simp only [DIRENT]; omega

def lookup (D : Nat → Block) (din : Dinode) (name : Bytes) : Option Nat := lookupFrom D din name 0

/-- The inode reached from `inum` along the path, and the last name read. -/
def walkFrom (sb : Superblock) (D : Nat → Block) (parent : Bool) (inum : Nat) (path : List UInt8) (name : Bytes) :
    Option Nat × Bytes :=
  match _h : skipelem path name with
  | some (path', name') =>
      if (dinodeOf sb D inum).type ≠ T_DIR then (none, name')
      else if parent ∧ path' = [] then (some inum, name')
      else match lookup D (dinodeOf sb D inum) name' with
        | none => (none, name')
        | some next => walkFrom sb D parent next path' name'
  | none => if parent then (none, name) else (some inum, name)
termination_by path.length
decreasing_by exact skipelem_length _h

def walk (sb : Superblock) (D : Nat → Block) (parent : Bool) (path : List UInt8) (name : Bytes) : Option Nat × Bytes :=
  walkFrom sb D parent ROOTINO path name

section Walk
variable {sb : Superblock} {D : Nat → Block} {parent : Bool} {inum : Nat} {path path' : List UInt8}
  {name name' : Bytes}

theorem walkFrom_cons (h : skipelem path name = some (path', name')) : walkFrom sb D parent inum path name =
    if (dinodeOf sb D inum).type ≠ T_DIR then (none, name')
    else if parent ∧ path' = [] then (some inum, name')
    else match lookup D (dinodeOf sb D inum) name' with
      | none => (none, name')
      | some next => walkFrom sb D parent next path' name' := by
  rw [walkFrom]
  split
  · rename_i hskip
    obtain ⟨rfl, rfl⟩ := Prod.mk.inj (Option.some.inj (hskip.symm.trans h))
    rfl
  · rename_i hskip
    exact absurd (hskip.symm.trans h) (by simp)

theorem walkFrom_nil (h : skipelem path name = none) :
    walkFrom sb D parent inum path name = if parent then (none, name) else (some inum, name) := by
  rw [walkFrom]
  split
  · rename_i hskip
    exact absurd (hskip.symm.trans h) (by simp)
  · rfl

/-- The parent of a path is a directory. -/
theorem type_of_walkFrom {i : Nat} (h : walkFrom sb D true inum path name = (some i, name')) :
    (dinodeOf sb D i).type = T_DIR := by
  induction hk : path.length using Nat.strong_induction_on generalizing path name inum with
  | _ k ih =>
    cases hskip : skipelem path name with
    | none => simp [walkFrom_nil hskip] at h
    | some r =>
        obtain ⟨rest, elem⟩ := r
        rw [walkFrom_cons hskip] at h
        by_cases htype : (dinodeOf sb D inum).type ≠ T_DIR
        · simp [htype] at h
        · rw [if_neg htype] at h
          split at h
          · rw [← Option.some.inj (Prod.mk.inj h).1]
            exact not_not.1 htype
          · split at h
            · simp at h
            · refine ih _ ?_ h rfl
              rw [← hk]
              exact skipelem_length hskip

end Walk

/-! ## The invariant -/

/-- The entries of directory `i` are whole, and those in use name inodes in use. -/
structure DirOk (sb : Superblock) (D : Nat → Block) (i : Nat) : Prop where
  size : DIRENT ∣ (dinodeOf sb D i).size.toNat
  entries : ∀ off, DIRENT ∣ off → off < (dinodeOf sb D i).size.toNat → deInum (direntAt D (dinodeOf sb D i) off) ≠ 0 →
    Used sb (dinodeOf sb D) (deInum (direntAt D (dinodeOf sb D i) off)).toNat

/-- What is on the disk between calls. -/
structure DiskOk (sb : Superblock) (D : Nat → Block) : Prop where
  structural : Structural sb D (dinodeOf sb D)
  root : Used sb (dinodeOf sb D) ROOTINO
  dirs : ∀ i, Used sb (dinodeOf sb D) i → (dinodeOf sb D i).type = T_DIR → DirOk sb D i

namespace DiskOk

variable {sb : Superblock} {D : Nat → Block}

/-- What a directory names is in use. -/
theorem used_of_lookup (h : DiskOk sb D) {dir i : Nat} (hu : Used sb (dinodeOf sb D) dir)
    (ht : (dinodeOf sb D dir).type = T_DIR) {name : Bytes} (hl : lookup D (dinodeOf sb D dir) name = some i) :
    Used sb (dinodeOf sb D) i := by
  have hdir := h.dirs dir hu ht
  have hfrom (off : Nat) (hoff : DIRENT ∣ off) : lookupFrom D (dinodeOf sb D dir) name off = some i →
      Used sb (dinodeOf sb D) i := by
    induction hk : (dinodeOf sb D dir).size.toNat - off using Nat.strong_induction_on generalizing off with
    | _ k ih =>
      intro hl
      have hnext (hlt : off < (dinodeOf sb D dir).size.toNat) := ih _ (by unfold DIRENT at *; omega) (off + DIRENT)
        (Nat.dvd_add hoff (Nat.dvd_refl _)) rfl
      rw [lookupFrom] at hl
      split at hl
      · rename_i hlt
        split at hl
        · exact hnext hlt hl
        · rename_i hne
          split at hl
          · rw [← Option.some.inj hl]
            exact hdir.entries off hoff hlt hne
          · exact hnext hlt hl
      · exact absurd hl (by simp)
  exact hfrom 0 (Nat.dvd_zero _) hl

/-- What a path leads to is in use. -/
theorem used_of_walkFrom (h : DiskOk sb D) {parent : Bool} {inum i : Nat} {path : List UInt8} {name name' : Bytes}
    (hu : Used sb (dinodeOf sb D) inum) (hw : walkFrom sb D parent inum path name = (some i, name')) :
    Used sb (dinodeOf sb D) i := by
  induction hk : path.length using Nat.strong_induction_on generalizing path name inum with
  | _ k ih =>
    cases hskip : skipelem path name with
    | none =>
        rw [walkFrom_nil hskip] at hw
        split at hw
        · exact absurd (Prod.mk.inj hw).1 (by simp)
        · rw [← Option.some.inj (Prod.mk.inj hw).1]
          exact hu
    | some r =>
        rw [walkFrom_cons hskip] at hw
        split at hw
        · exact absurd (Prod.mk.inj hw).1 (by simp)
        · rename_i htype
          split at hw
          · rw [← Option.some.inj (Prod.mk.inj hw).1]
            exact hu
          · split at hw
            · exact absurd (Prod.mk.inj hw).1 (by simp)
            · rename_i next hl
              refine ih _ ?_ (h.used_of_lookup hu (not_not.1 htype) hl) hw rfl
              rw [← hk]
              exact skipelem_length hskip

end DiskOk

/-! ## Reading a directory -/

/-- An entry that starts inside a directory ends inside it. -/
theorem dirent_end {size off : Nat} (hsize : DIRENT ∣ size) (hoff : DIRENT ∣ off) (h : off < size) :
    off + DIRENT ≤ size := by
  obtain ⟨m, rfl⟩ := hsize
  obtain ⟨n, rfl⟩ := hoff
  have hlt : n < m := Nat.lt_of_mul_lt_mul_left h
  calc DIRENT * n + DIRENT = DIRENT * (n + 1) := (Nat.mul_succ _ _).symm
    _ ≤ DIRENT * m := Nat.mul_le_mul_left _ hlt

theorem readAt_dirent {D : Nat → Block} {din : Dinode} {off : Nat} (h : off + DIRENT ≤ din.size.toNat) :
    readAt D din (UInt32.ofNat off) (UInt32.ofNat DIRENT) = ((DIRENT : Int), bytesFrom D din off DIRENT) := by
  have hsize := din.size.toNat_lt
  have hoff : (UInt32.ofNat off).toNat = off := by
    rw [UInt32.toNat_ofNat', Nat.mod_eq_of_lt (by omega)]
  have hlen : (UInt32.ofNat DIRENT).toNat = DIRENT := by decide
  have hin : ¬ (UInt32.ofNat off > din.size ∨ UInt32.ofNat off + UInt32.ofNat DIRENT < UInt32.ofNat off) := by
    rw [u32_add_lt_iff, gt_iff_lt, UInt32.lt_iff_toNat_lt, hoff, hlen]
    omega
  have hmin : readLen din (UInt32.ofNat off) (UInt32.ofNat DIRENT) = DIRENT := by
    unfold readLen
    rw [hoff, hlen]
    omega
  unfold readAt
  rw [if_neg hin, hmin, hoff]

section Search
variable {s : State} {ip : Fin NINODE} {E : Halt → Prop}

/-- The loop of `dirlookup`, from a cache `d` over the same disk. -/
theorem wp_dirlookupFrom (hdev : (s.icache ip).dev = ROOTDEV) (hsize : DIRENT ∣ (s.icache ip).din.size.toNat)
    (hmap : MappedTo s.dev.disk (s.icache ip).din (s.icache ip).din.size.toNat) (name : Bytes) (off : Nat)
    (hoff : DIRENT ∣ off) (d : Dev) (hd : Idle d []) (hdisk : d.disk = s.dev.disk)
    {Q : Option (Fin NINODE) → State → Prop}
    (hnone : lookupFrom s.dev.disk (s.icache ip).din name off = none →
      ∀ d, Idle d [] → d.disk = s.dev.disk → Q none { s with dev := d })
    (hsome : ∀ inum, lookupFrom s.dev.disk (s.icache ip).din name off = some inum →
      ∀ d, Idle d [] → d.disk = s.dev.disk → (iget ROOTDEV inum).wp (fun jp t => Q (some jp) t) E { s with dev := d }) :
    (dirlookupFrom ip name (s.icache ip).din.size.toNat off).wp Q E { s with dev := d } := by
  induction hk : (s.icache ip).din.size.toNat - off using Nat.strong_induction_on generalizing off d with
  | _ k ih =>
    unfold dirlookupFrom
    unfold lookupFrom at hnone hsome
    by_cases hlt : off < (s.icache ip).din.size.toNat
    · rw [if_pos hlt] at hnone hsome ⊢
      have hend := dirent_end hsize hoff hlt
      rw [wp_bind]
      refine wp_readi (s := { s with dev := d }) hd hdev (by rw [hdisk]; exact hmap) fun t ht hdisk' => ?_
      rw [hdisk] at hdisk' ⊢
      rw [readAt_dirent hend]
      simp only
      rw [if_neg (by simp)]
      have hless : (s.icache ip).din.size.toNat - (off + DIRENT) < k := by
        unfold DIRENT at *
        omega
      have hnext := ih _ hless (off + DIRENT) (Nat.dvd_add hoff (Nat.dvd_refl _)) t ht hdisk'
      show (if deInum (direntAt s.dev.disk (s.icache ip).din off) = 0 then _ else
        if nameMatch (deName (direntAt s.dev.disk (s.icache ip).din off)) name DIRSIZ 0 = true then _ else _ :
          Prog State _).wp Q E { s with dev := t }
      by_cases hfree : deInum (direntAt s.dev.disk (s.icache ip).din off) = 0
      · rw [if_pos hfree] at hnone hsome ⊢
        exact hnext hnone hsome rfl
      · rw [if_neg hfree] at hnone hsome ⊢
        by_cases hmatch : nameMatch (deName (direntAt s.dev.disk (s.icache ip).din off)) name DIRSIZ 0 = true
        · rw [if_pos hmatch] at hsome ⊢
          simp only [wp_bind, wp_gets, wp_pure, hdev]
          exact hsome _ rfl t ht hdisk'
        · rw [if_neg hmatch] at hnone hsome ⊢
          exact hnext hnone hsome rfl
    · rw [if_neg hlt] at hnone ⊢
      exact hnone rfl d hd hdisk

theorem wp_dirlookup (hidle : Idle s.dev []) (hdev : (s.icache ip).dev = ROOTDEV)
    (hsize : DIRENT ∣ (s.icache ip).din.size.toNat)
    (hmap : MappedTo s.dev.disk (s.icache ip).din (s.icache ip).din.size.toNat) (name : Bytes)
    {Q : Option (Fin NINODE) → State → Prop}
    (hnone : lookup s.dev.disk (s.icache ip).din name = none →
      ∀ d, Idle d [] → d.disk = s.dev.disk → Q none { s with dev := d })
    (hsome : ∀ inum, lookup s.dev.disk (s.icache ip).din name = some inum →
      ∀ d, Idle d [] → d.disk = s.dev.disk → (iget ROOTDEV inum).wp (fun jp t => Q (some jp) t) E { s with dev := d }) :
    (dirlookup ip name).wp Q E s := by
  unfold dirlookup
  rw [wp_bind, wp_gets]
  exact wp_dirlookupFrom hdev hsize hmap name 0 (Nat.dvd_zero _) s.dev hidle rfl hnone hsome

end Search

structure FsInv (s : State) (refs : Fin NINODE → Nat) : Prop where
  idle : Idle s.dev []
  counts : Refs s refs
  disk : DiskOk s.sb s.dev.disk
  live : ∀ ip, 0 < refs ip → (s.icache ip).dev = ROOTDEV ∧ Used s.sb (dinodeOf s.sb s.dev.disk) (s.icache ip).inum
  clean : ∀ ip, (s.icache ip).valid = true → (s.icache ip).din = dinodeOf s.sb s.dev.disk (s.icache ip).inum

/-- The disk is as it was, and the slots with references still hold their inodes. -/
structure Still (refs : Fin NINODE → Nat) (s t : State) : Prop where
  sb : t.sb = s.sb
  disk : t.dev.disk = s.dev.disk
  inum : ∀ ip, 0 < refs ip → (t.icache ip).inum = (s.icache ip).inum
  valid : ∀ ip, 0 < refs ip → (s.icache ip).valid = true → (t.icache ip).valid = true

namespace Still

variable {refs : Fin NINODE → Nat} {s t u : State}

theorem refl (s : State) : Still refs s s := ⟨rfl, rfl, fun _ _ => rfl, fun _ _ h => h⟩

theorem trans (h : Still refs s t) (h' : Still refs t u) : Still refs s u where
  sb := h'.sb.trans h.sb
  disk := h'.disk.trans h.disk
  inum ip hip := (h'.inum ip hip).trans (h.inum ip hip)
  valid ip hip hv := h'.valid ip hip (h.valid ip hip hv)

theorem of_hold {ip : Fin NINODE} (h : Still (hold refs ip) s t) : Still refs s t where
  sb := h.sb
  disk := h.disk
  inum jp hjp := h.inum jp (hjp.trans_le (le_hold refs ip jp))
  valid jp hjp := h.valid jp (hjp.trans_le (le_hold refs ip jp))

end Still

/-- `ilock` of a slot that has not been read yet: the dinode of the disk is taken, and must be in use. -/
theorem wp_ilock_read {s : State} {ip : Fin NINODE} {E : Halt → Prop} (hidle : Idle s.dev [])
    (hdev : (s.icache ip).dev = ROOTDEV) (href : 0 < (s.icache ip).ref) (hv : (s.icache ip).valid = false)
    {Q : Unit → State → Prop}
    (hQ : ∀ d, Idle d [] → d.disk = s.dev.disk → (dinodeOf s.sb s.dev.disk (s.icache ip).inum).type ≠ 0 →
      Q () (State.setInode { s with dev := d } ip
        { s.icache ip with valid := true, din := dinodeOf s.sb s.dev.disk (s.icache ip).inum }))
    (hE : (dinodeOf s.sb s.dev.disk (s.icache ip).inum).type = 0 → E (.panic "ilock: no type")) :
    (ilock ip).wp Q E s := by
  unfold ilock
  simp only [wp_bind, wp_get]
  rw [if_neg (by omega), if_neg (by rw [hv]; exact Bool.false_ne_true)]
  simp only [wp_bind, wp_lift, wp_modify, wp_gets, hdev]
  refine hidle.wp_bread (by decide) fun b t ht hdisk => ?_
  refine ht.wp_load ?_
  refine ht.wp_brelse fun u hu hdisk' => ?_
  rw [hdisk] at hdisk' ⊢
  -- the slot after the read
  generalize hw : State.setInode _ ip _ = w
  have hslot : w = State.setInode { s with dev := u } ip
      { s.icache ip with valid := true, din := dinodeOf s.sb s.dev.disk (s.icache ip).inum } := by
    rw [← hw]
    simp only [State.setDin, State.setInode, update_self, update_idem]
    rfl
  rw [hslot, State.setInode_self]
  by_cases htype : (dinodeOf s.sb s.dev.disk (s.icache ip).inum).type = 0
  · rw [if_pos htype]
    exact hE htype
  · rw [if_neg htype]
    exact hQ u hu hdisk' htype

namespace FsInv

variable {s : State} {refs : Fin NINODE → Nat} {ip : Fin NINODE} {E : Halt → Prop}

/-- The slots and the disk are the same. -/
theorem of_dev (h : FsInv s refs) {d : Dev} (hd : Idle d []) (hdisk : d.disk = s.dev.disk) :
    FsInv { s with dev := d } refs := by
  refine ⟨hd, h.counts.same fun _ => ⟨rfl, rfl, rfl, rfl⟩, ?_, fun jp hjp => ?_, fun jp hjp => ?_⟩ <;> simp only [hdisk]
  · exact h.disk
  · exact h.live jp hjp
  · exact h.clean jp hjp

theorem still_of_dev {d : Dev} (hdisk : d.disk = s.dev.disk) : Still refs s { s with dev := d } :=
  ⟨rfl, hdisk, fun _ _ => rfl, fun _ _ h => h⟩

theorem pos_of_valid (h : FsInv s refs) (hv : (s.icache ip).valid = true) : 0 < refs ip := by
  by_contra h0
  have hfree := h.counts.free ip (by omega)
  rw [hv] at hfree
  exact Bool.noConfusion hfree

theorem wp_iget (h : FsInv s refs) {inum : Nat} (hused : Used s.sb (dinodeOf s.sb s.dev.disk) inum)
    {Q : Fin NINODE → State → Prop}
    (hQ : ∀ ip t, FsInv t (hold refs ip) → Still refs s t → (t.icache ip).inum = inum → Q ip t)
    (hE : E (.panic "iget: no inodes") ∨ ∃ ip, refs ip = 0) : (iget ROOTDEV inum).wp Q E s := by
  refine Fs.wp_iget h.counts (fun ip hip hdev hinum => ?_) (fun hmiss ip hip => ?_) hE
  · have hslot (jp : Fin NINODE) : ∃ r, (s.setInode ip { s.icache ip with ref := (s.icache ip).ref + 1 }).icache jp =
        { s.icache jp with ref := r } := by
      by_cases hjp : jp = ip
      · rw [hjp, State.setInode_self]
        exact ⟨_, rfl⟩
      · rw [State.setInode_of_ne hjp]
        exact ⟨_, rfl⟩
    refine hQ ip _ ⟨h.idle, h.counts.found hip, h.disk, fun jp hjp => ?_, fun jp hv => ?_⟩
      ⟨rfl, rfl, fun jp _ => ?_, fun jp _ hv => ?_⟩ ?_
    · obtain ⟨r, hr⟩ := hslot jp
      rw [hr]
      refine h.live jp ?_
      by_cases hjp' : jp = ip
      · rwa [hjp']
      · unfold hold at hjp
        rwa [update_of_ne hjp'] at hjp
    · obtain ⟨r, hr⟩ := hslot jp
      rw [hr] at hv ⊢
      exact h.clean jp hv
    · obtain ⟨r, hr⟩ := hslot jp
      rw [hr]
    · obtain ⟨r, hr⟩ := hslot jp
      rw [hr]
      exact hv
    · obtain ⟨r, hr⟩ := hslot ip
      rw [hr]
      exact hinum
  · have hne {jp : Fin NINODE} (hjp : 0 < refs jp) : jp ≠ ip := by
      rintro rfl
      omega
    refine hQ ip _ ⟨h.idle, h.counts.taken hip hmiss, h.disk, fun jp hjp => ?_, fun jp hv => ?_⟩
      ⟨rfl, rfl, fun jp hjp => ?_, fun jp hjp hv => ?_⟩ ?_
    · by_cases hjp' : jp = ip
      · rw [hjp', State.setInode_self]
        exact ⟨rfl, hused⟩
      · rw [State.setInode_of_ne hjp']
        unfold hold at hjp
        rw [update_of_ne hjp'] at hjp
        exact h.live jp hjp
    · by_cases hjp' : jp = ip
      · rw [hjp', State.setInode_self] at hv
        exact Bool.noConfusion hv
      · rw [State.setInode_of_ne hjp'] at hv ⊢
        exact h.clean jp hv
    · rw [State.setInode_of_ne (hne hjp)]
    · rw [State.setInode_of_ne (hne hjp)]
      exact hv
    · rw [State.setInode_self]

theorem wp_ilock (h : FsInv s refs) (hip : 0 < refs ip) {Q : Unit → State → Prop}
    (hQ : ∀ t, FsInv t refs → Still refs s t → (t.icache ip).valid = true → Q () t) : (ilock ip).wp Q E s := by
  obtain ⟨hdev, hused⟩ := h.live ip hip
  have href : 0 < (s.icache ip).ref := by
    rw [h.counts.ref ip]
    exact Int.natCast_pos.2 hip
  by_cases hv : (s.icache ip).valid = true
  · unfold ilock
    simp only [wp_bind, wp_get]
    rw [if_neg (by omega), if_pos hv]
    exact hQ s h (Still.refl s) hv
  · refine wp_ilock_read h.idle hdev href (Bool.not_eq_true _ ▸ hv) (fun d hd hdisk _ => ?_) fun h0 => absurd h0 hused.2
    generalize hw : State.setInode _ ip _ = w
    have hself : w.icache ip = { s.icache ip with
        valid := true, din := dinodeOf s.sb s.dev.disk (s.icache ip).inum } := by
      rw [← hw, State.setInode_self]
    have hother {jp : Fin NINODE} (hjp : jp ≠ ip) : w.icache jp = s.icache jp := by
      rw [← hw]
      exact State.setInode_of_ne hjp _ _
    have hslot (jp : Fin NINODE) : (w.icache jp).dev = (s.icache jp).dev ∧ (w.icache jp).inum = (s.icache jp).inum ∧
        (w.icache jp).ref = (s.icache jp).ref ∧ ((s.icache jp).valid = true → (w.icache jp).valid = true) := by
      by_cases hjp : jp = ip
      · rw [hjp, hself]
        exact ⟨rfl, rfl, rfl, fun _ => rfl⟩
      · rw [hother hjp]
        exact ⟨rfl, rfl, rfl, id⟩
    have hsb : w.sb = s.sb := by
      rw [← hw]
      rfl
    have hdev' : w.dev = d := by
      rw [← hw]
      rfl
    have hinv : FsInv w refs := by
      refine ⟨hdev' ▸ hd, ⟨fun jp => ?_, fun jp kp hj hk hd hi => ?_, fun jp hjp => ?_⟩, ?_, fun jp hjp => ?_,
        fun jp hjv => ?_⟩
      · rw [(hslot jp).2.2.1, h.counts.ref]
      · rw [(hslot jp).1, (hslot kp).1] at hd
        rw [(hslot jp).2.1, (hslot kp).2.1] at hi
        exact h.counts.uniq jp kp hj hk hd hi
      · have hne : jp ≠ ip := by
          rintro rfl
          omega
        rw [hother hne]
        exact h.counts.free jp hjp
      · rw [hsb, hdev', hdisk]
        exact h.disk
      · rw [(hslot jp).1, (hslot jp).2.1, hsb, hdev', hdisk]
        exact h.live jp hjp
      · rw [hsb, hdev', hdisk]
        by_cases hjp : jp = ip
        · rw [hjp, hself]
        · rw [hother hjp] at hjv ⊢
          exact h.clean jp hjv
    refine hQ w hinv ⟨hsb, by rw [hdev', hdisk], fun jp _ => (hslot jp).2.1, fun jp _ => (hslot jp).2.2.2⟩ ?_
    rw [hself]

theorem wp_iput (h : FsInv s (hold refs ip)) {Q : Unit → State → Prop}
    (hQ : ∀ t, FsInv t refs → Still refs s t → Q () t) : (iput ip).wp Q E s := by
  show Q () (iputState s ip)
  have hslot (jp : Fin NINODE) : ((iputState s ip).icache jp).dev = (s.icache jp).dev ∧
      ((iputState s ip).icache jp).inum = (s.icache jp).inum ∧ ((iputState s ip).icache jp).din = (s.icache jp).din := by
    unfold iputState
    by_cases hjp : jp = ip
    · rw [hjp, State.setInode_self]
      exact ⟨rfl, rfl, rfl⟩
    · rw [State.setInode_of_ne hjp]
      exact ⟨rfl, rfl, rfl⟩
  have hvalid (jp : Fin NINODE) (hv : ((iputState s ip).icache jp).valid = true) : (s.icache jp).valid = true := by
    unfold iputState at hv
    by_cases hjp : jp = ip
    · rw [hjp, State.setInode_self] at hv
      rw [hjp]
      simp only at hv
      split at hv
      · exact Bool.noConfusion hv
      · split at hv
        · exact Bool.noConfusion hv
        · exact hv
    · rwa [State.setInode_of_ne hjp] at hv
  have hkeep (jp : Fin NINODE) (hjp : 0 < refs jp) (hv : (s.icache jp).valid = true) :
      ((iputState s ip).icache jp).valid = true := by
    unfold iputState
    by_cases hjp' : jp = ip
    · -- another reference is left, so the slot is not released
      have href : (s.icache ip).ref = refs ip + 1 := by
        rw [h.counts.ref ip]
        unfold hold
        rw [update_self, Nat.cast_succ]
      rw [hjp'] at hjp hv
      rw [hjp', State.setInode_self]
      simp only
      rw [if_neg (by omega), if_neg (by omega)]
      exact hv
    · rw [State.setInode_of_ne hjp']
      exact hv
  refine hQ _ ⟨h.idle, h.counts.put, h.disk, fun jp hjp => ?_, fun jp hv => ?_⟩
    ⟨rfl, rfl, fun jp _ => (hslot jp).2.1, hkeep⟩
  · rw [(hslot jp).1, (hslot jp).2.1]
    exact h.live jp (hjp.trans_le (le_hold refs ip jp))
  · rw [(hslot jp).2.2, (hslot jp).2.1]
    exact h.clean jp (hvalid jp hv)

theorem wp_iunlock (h : FsInv s refs) (hip : 0 < refs ip) {Q : Unit → State → Prop} (hQ : Q () s) :
    (iunlock ip).wp Q E s := by
  have href : ¬ (s.icache ip).ref < 1 := by
    rw [h.counts.ref ip]
    omega
  unfold iunlock
  rw [wp_bind, wp_gets, if_neg href]
  exact hQ

/-- A cached inode is mapped as far as its size. -/
theorem mappedTo (h : FsInv s refs) (hv : (s.icache ip).valid = true) :
    MappedTo s.dev.disk (s.icache ip).din (s.icache ip).din.size.toNat := by
  rw [h.clean ip hv]
  exact h.disk.structural.mappedTo (h.live ip (h.pos_of_valid hv)).2

theorem wp_readi (h : FsInv s refs) (hv : (s.icache ip).valid = true) {off n : UInt32}
    {Q : Int × List UInt8 → State → Prop}
    (hQ : ∀ t, FsInv t refs → Still refs s t → t.icache = s.icache →
      Q (readAt s.dev.disk (dinodeOf s.sb s.dev.disk (s.icache ip).inum) off n) t) : (readi ip off n).wp Q E s := by
  refine Fs.wp_readi h.idle (h.live ip (h.pos_of_valid hv)).1 (h.mappedTo hv) fun t ht hdisk => ?_
  rw [h.clean ip hv]
  exact hQ _ (h.of_dev ht hdisk) (still_of_dev hdisk) rfl

/-- The directory of a cached inode. -/
theorem dirOk (h : FsInv s refs) (hv : (s.icache ip).valid = true) (ht : (s.icache ip).din.type = T_DIR) :
    DirOk s.sb s.dev.disk (s.icache ip).inum := by
  rw [h.clean ip hv] at ht
  exact h.disk.dirs _ (h.live ip (h.pos_of_valid hv)).2 ht

theorem wp_dirlookup (name : Bytes) (h : FsInv s refs) (hv : (s.icache ip).valid = true)
    (ht : (s.icache ip).din.type = T_DIR) (hE : E (.panic "iget: no inodes") ∨ ∃ jp, refs jp = 0)
    {Q : Option (Fin NINODE) → State → Prop}
    (hnone : lookup s.dev.disk (dinodeOf s.sb s.dev.disk (s.icache ip).inum) name = none →
      ∀ t, FsInv t refs → Still refs s t → Q none t)
    (hsome : ∀ inum, lookup s.dev.disk (dinodeOf s.sb s.dev.disk (s.icache ip).inum) name = some inum →
      ∀ jp t, FsInv t (hold refs jp) → Still refs s t → (t.icache jp).inum = inum → Q (some jp) t) :
    (dirlookup ip name).wp Q E s := by
  obtain ⟨hdev, hused⟩ := h.live ip (h.pos_of_valid hv)
  have hclean := h.clean ip hv
  rw [← hclean] at hnone hsome
  refine Fs.wp_dirlookup h.idle hdev ?_ (h.mappedTo hv) name (fun hl d hd hdisk => ?_) fun inum hl d hd hdisk => ?_
  · rw [hclean]
    exact (h.dirOk hv ht).size
  · exact hnone hl _ (h.of_dev hd hdisk) (still_of_dev hdisk)
  · have hnamed : Used s.sb (dinodeOf s.sb s.dev.disk) inum := by
      rw [hclean] at hl ht
      exact h.disk.used_of_lookup hused ht hl
    refine (h.of_dev hd hdisk).wp_iget (by rw [hdisk]; exact hnamed) (fun jp t hinv hst hi => ?_) hE
    exact hsome inum hl jp t hinv ((still_of_dev hdisk).trans hst) hi

/-- Of two free slots one is left when another slot is taken. -/
theorem spare_hold (h : ∃ a b, a ≠ b ∧ refs a = 0 ∧ refs b = 0) (ip : Fin NINODE) : ∃ jp, hold refs ip jp = 0 := by
  obtain ⟨a, b, hab, ha, hb⟩ := h
  unfold hold
  by_cases hai : a = ip
  · exact ⟨b, by rw [update_of_ne (fun hbi => hab (hai.trans hbi.symm)), hb]⟩
  · exact ⟨a, by rw [update_of_ne hai, ha]⟩

theorem wp_namexFrom (parent : Bool) (base : Fin NINODE → Nat) (path : List UInt8) (ip : Fin NINODE) (name : Bytes)
    (s : State) (h : FsInv s (hold base ip))
    (hE : E (.panic "iget: no inodes") ∨ ∃ a b, a ≠ b ∧ base a = 0 ∧ base b = 0)
    {Q : Option (Fin NINODE) × Bytes → State → Prop}
    (hnone : ∀ name', walkFrom s.sb s.dev.disk parent (s.icache ip).inum path name = (none, name') →
      ∀ t, FsInv t base → Still base s t → Q (none, name') t)
    (hsome : ∀ inum name', walkFrom s.sb s.dev.disk parent (s.icache ip).inum path name = (some inum, name') →
      ∀ jp t, FsInv t (hold base jp) → Still base s t → (t.icache jp).inum = inum → Q (some jp, name') t) :
    (namexFrom parent ip path name).wp Q E s := by
  induction hk : path.length using Nat.strong_induction_on generalizing path ip name s with
  | _ k ih =>
    unfold namexFrom
    split
    · rename_i path' name' hskip
      rw [walkFrom_cons hskip] at hnone hsome
      rw [wp_bind]
      refine h.wp_ilock (hold_pos base ip) fun t ht hst hv => ?_
      have hinum := hst.inum ip (hold_pos base ip)
      have hdin : (t.icache ip).din = dinodeOf s.sb s.dev.disk (s.icache ip).inum := by
        rw [ht.clean ip hv, hst.sb, hst.disk, hinum]
      rw [wp_bind, wp_gets, hdin]
      by_cases htype : (dinodeOf s.sb s.dev.disk (s.icache ip).inum).type ≠ T_DIR
      · rw [if_pos htype] at hnone ⊢
        rw [wp_bind]
        refine ht.wp_iunlock (hold_pos base ip) ?_
        rw [wp_bind]
        exact ht.wp_iput fun u hu hsu => hnone _ rfl u hu (hst.of_hold.trans hsu)
      · rw [if_neg htype] at hnone hsome ⊢
        by_cases hlast : parent = true ∧ path' = []
        · rw [if_pos hlast] at hsome ⊢
          rw [wp_bind]
          exact ht.wp_iunlock (hold_pos base ip) (hsome _ _ rfl ip t ht hst.of_hold hinum)
        · rw [if_neg hlast] at hnone hsome ⊢
          rw [wp_bind]
          have hdir : (t.icache ip).din.type = T_DIR := by
            rw [hdin]
            exact not_not.1 htype
          refine ht.wp_dirlookup name' hv hdir (hE.imp_right fun hs => spare_hold hs ip) (fun hl u hu hsu => ?_)
            fun inum hl jp u hu hsu hj => ?_ <;> rw [hst.sb, hst.disk, hinum] at hl <;> rw [hl] at hnone hsome
          · simp only [wp_bind]
            refine hu.wp_iunlock (hold_pos base ip) (hu.wp_iput fun v hv' hsv => ?_)
            exact hnone _ rfl v hv' ((hst.of_hold.trans hsu.of_hold).trans hsv)
          · simp only [wp_bind]
            refine hu.wp_iunlock ((hold_pos base ip).trans_le (le_hold _ _ _)) ?_
            rw [hold_comm] at hu
            refine hu.wp_iput fun v hv' hsv => ?_
            have hall : Still base s v := (hst.of_hold.trans hsu.of_hold).trans hsv.of_hold
            have hjv : (v.icache jp).inum = inum := (hsv.inum jp (hold_pos base jp)).trans hj
            refine ih _ ?_ path' jp name' v hv' (fun n hw w hw' hsw => ?_) (fun m n hw lp w hw' hsw hl' => ?_) rfl
            · rw [← hk]
              exact skipelem_length hskip
            · rw [hall.sb, hall.disk, hjv] at hw
              exact hnone n hw w hw' (hall.trans hsw)
            · rw [hall.sb, hall.disk, hjv] at hw
              exact hsome m n hw lp w hw' (hall.trans hsw) hl'
    · rename_i hskip
      rw [walkFrom_nil hskip] at hnone hsome
      by_cases hparent : parent = true
      · rw [if_pos hparent] at hnone ⊢
        rw [wp_bind]
        exact h.wp_iput fun t ht hst => hnone _ rfl t ht hst
      · rw [if_neg hparent] at hsome ⊢
        exact hsome _ _ rfl ip s h (Still.refl s) rfl

theorem wp_namex (h : FsInv s refs) (parent : Bool) (path : List UInt8) (name : Bytes)
    (hE : E (.panic "iget: no inodes") ∨ ∃ a b, a ≠ b ∧ refs a = 0 ∧ refs b = 0)
    {Q : Option (Fin NINODE) × Bytes → State → Prop}
    (hnone : ∀ name', walk s.sb s.dev.disk parent path name = (none, name') →
      ∀ t, FsInv t refs → Still refs s t → Q (none, name') t)
    (hsome : ∀ inum name', walk s.sb s.dev.disk parent path name = (some inum, name') →
      ∀ jp t, FsInv t (hold refs jp) → Still refs s t → (t.icache jp).inum = inum → Q (some jp, name') t) :
    (namex path parent name).wp Q E s := by
  unfold namex
  rw [wp_bind]
  refine h.wp_iget h.disk.root (fun ip t ht hst hinum => ?_) (hE.imp_right fun ⟨a, _, _, ha, _⟩ => ⟨a, ha⟩)
  have hwalk : walkFrom t.sb t.dev.disk parent (t.icache ip).inum path name = walk s.sb s.dev.disk parent path name := by
    rw [hst.sb, hst.disk, hinum]
    rfl
  refine ht.wp_namexFrom parent refs path ip name t hE (fun n hw u hu hsu => ?_) fun m n hw jp u hu hsu hj => ?_
  · exact hnone n (hwalk ▸ hw) u hu (hst.trans hsu)
  · exact hsome m n (hwalk ▸ hw) jp u hu (hst.trans hsu) hj

end FsInv

/-! ## Mounting -/

/-- `binit` and `fsinit` over a disk with a superblock. -/
theorem wp_mount {D : Nat → Block} {s : State} (hs : s.dev = Dev.boot D) (hmagic : (sbAt (D 1)).magic = FSMAGIC) :
    (do lift binit; fsinit ROOTDEV : Prog State Unit).wp (fun _ t => Idle t.dev [] ∧ t.dev.disk = D ∧ t.sb = sbAt (D 1) ∧
      Refs t fun _ => 0) (fun _ => False) s := by
  obtain ⟨d, hrun, hdisk, hidle⟩ := idle_binit D
  unfold fsinit
  simp only [wp_bind, wp_lift, wp_modify, wp_gets, hs]
  rw [wp_of_run hrun]
  refine hidle.wp_bread (by decide) fun b t ht hdisk' => ?_
  refine ht.wp_load ?_
  refine ht.wp_brelse fun u hu hdisk'' => ?_
  rw [hdisk', hdisk] at hdisk'' ⊢
  rw [if_neg (not_not.2 hmagic)]
  refine ⟨hu, hdisk'', rfl, fun ip => (Int.natCast_zero).symm, fun _ _ hi => absurd hi (Nat.lt_irrefl 0), fun ip _ => ?_⟩
  exact Eq.refl false

/-- Over a sound disk `fsinit` establishes the invariant. -/
theorem fsInv_of_mount {D : Nat → Block} {s : State} (hidle : Idle s.dev []) (hdisk : s.dev.disk = D)
    (hsb : s.sb = sbAt (D 1)) (hrefs : Refs s fun _ => 0) (h : DiskOk (sbAt (D 1)) D) : FsInv s fun _ => 0 := by
  refine ⟨hidle, hrefs, ?_, fun ip hip => absurd hip (Nat.lt_irrefl 0), fun ip hv => ?_⟩
  · rw [hsb, hdisk]
    exact h
  · rw [hrefs.free ip rfl] at hv
    exact Bool.noConfusion hv

end RiscvOsLab.Fs
