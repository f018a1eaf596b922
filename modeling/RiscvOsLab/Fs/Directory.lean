import RiscvOsLab.Fs.Create
import RiscvOsLab.Fs.Names
import RiscvOsLab.Mkfs.Image

/-!
# A directory as a finite map

* `Entry`, `dirMap` : the live entries of a directory, and the map from names to inode numbers they make up;
* `dirMap_linked` : what an entry written into a vacant place does to the map;
* `dirlink_map` : `dirlink` adds to the map, `dirlookup` reads it.
-/

namespace RiscvOsLab.Fs

open Prog Bytes Function

/-! ## Entries -/

/-- At `off` the directory has a live entry of this name for inode `i`. -/
structure Entry (D : Nat → Block) (din : Dinode) (off : Nat) (n : Name) (i : Nat) : Prop where
  aligned : DIRENT ∣ off
  lt : off < din.size.toNat
  live : deInum (direntAt D din off) ≠ 0
  name : nameOf (deName (direntAt D din off)) = n
  inum : (deInum (direntAt D din off)).toNat = i

/-- Live entries have distinct names. -/
def Distinct (D : Nat → Block) (din : Dinode) : Prop :=
  ∀ o o' n i i', Entry D din o n i → Entry D din o' n i' → o = o'

/-- The inode number a directory has for a name. -/
def dirMap (D : Nat → Block) (din : Dinode) (n : Name) : Option Nat := lookup D din n.buffer

section Entries
variable {D : Nat → Block} {din : Dinode} {name : Bytes} {i : Nat}

/-- The search finds an entry of the name. -/
theorem entry_of_lookupFrom {off : Nat} (hoff : DIRENT ∣ off) (h : lookupFrom D din name off = some i) :
    ∃ o, Entry D din o (nameOf name) i := by
  induction hk : din.size.toNat - off using Nat.strong_induction_on generalizing off with
  | _ k ih =>
    rw [lookupFrom] at h
    split at h
    · rename_i hlt
      have hless : din.size.toNat - (off + DIRENT) < k := by
        unfold DIRENT
        omega
      have hnext (h : lookupFrom D din name (off + DIRENT) = some i) :=
        ih _ hless (Nat.dvd_add hoff (Nat.dvd_refl _)) h rfl
      split at h
      · exact hnext h
      · rename_i hlive
        split at h
        · rename_i hmatch
          exact ⟨off, hoff, hlt, hlive, (nameMatch_iff _ _).1 hmatch, Option.some.inj h⟩
        · exact hnext h
    · exact absurd h (by simp)

/-- The search passes over no entry of the name. -/
theorem no_entry_of_lookupFrom {off : Nat} (hoff : DIRENT ∣ off) (h : lookupFrom D din name off = none) {o : Nat}
    (ho : off ≤ o) : ¬ Entry D din o (nameOf name) i := by
  intro he
  induction hk : din.size.toNat - off using Nat.strong_induction_on generalizing off with
  | _ k ih =>
    have hlt : off < din.size.toNat := ho.trans_lt he.lt
    rw [lookupFrom, if_pos hlt] at h
    -- the entry is not at `off`, since there the search would have stopped
    have hne : o ≠ off := by
      rintro rfl
      rw [if_neg he.live, if_pos ((nameMatch_iff _ _).2 he.name)] at h
      exact absurd h (by simp)
    have hle : off + DIRENT ≤ o := by
      obtain ⟨a, rfl⟩ := hoff
      obtain ⟨b, rfl⟩ := he.aligned
      unfold DIRENT at *
      omega
    have hless : din.size.toNat - (off + DIRENT) < k := by
      unfold DIRENT
      omega
    have hnext : lookupFrom D din name (off + DIRENT) = none := by
      split at h
      · exact h
      · split at h
        · exact absurd h (by simp)
        · exact h
    exact ih _ hless (Nat.dvd_add hoff (Nat.dvd_refl _)) hnext hle rfl

theorem lookup_eq_none_iff : lookup D din name = none ↔ ∀ o i, ¬ Entry D din o (nameOf name) i := by
  constructor
  · intro h o i
    exact no_entry_of_lookupFrom (Nat.dvd_zero _) h (Nat.zero_le o)
  · intro h
    cases hl : lookup D din name with
    | none => rfl
    | some i =>
        obtain ⟨o, ho⟩ := entry_of_lookupFrom (Nat.dvd_zero _) hl
        exact absurd ho (h o i)

theorem lookup_eq_some_iff (hd : Distinct D din) : lookup D din name = some i ↔ ∃ o, Entry D din o (nameOf name) i := by
  constructor
  · exact entry_of_lookupFrom (Nat.dvd_zero _)
  · rintro ⟨o, ho⟩
    cases hl : lookup D din name with
    | none => exact absurd ho (lookup_eq_none_iff.1 hl o i)
    | some j =>
        obtain ⟨o', ho'⟩ := entry_of_lookupFrom (Nat.dvd_zero _) hl
        obtain rfl := hd o o' _ i j ho ho'
        rw [← ho'.inum, ho.inum]

/-- Buffers with the same name are looked up alike. -/
theorem lookupFrom_congr {name' : Bytes} (h : nameOf name = nameOf name') (off : Nat) :
    lookupFrom D din name off = lookupFrom D din name' off := by
  induction hk : din.size.toNat - off using Nat.strong_induction_on generalizing off with
  | _ k ih =>
    have hmatch (de : Bytes) : nameMatch de name DIRSIZ 0 = nameMatch de name' DIRSIZ 0 := by
      rw [Bool.eq_iff_iff, nameMatch_iff, nameMatch_iff, h]
    conv_lhs => rw [lookupFrom]
    conv_rhs => rw [lookupFrom]
    by_cases hlt : off < din.size.toNat
    · rw [if_pos hlt, if_pos hlt, hmatch, ih _ (by unfold DIRENT; omega) (off + DIRENT) rfl]
    · rw [if_neg hlt, if_neg hlt]

/-- The search reads the map. -/
theorem lookup_eq_dirMap (D : Nat → Block) (din : Dinode) (name : Bytes) :
    lookup D din name = dirMap D din (nameOf name) := lookupFrom_congr (nameOf_buffer _).symm 0

end Entries

/-! ## A new entry -/

section Linked
variable {sb : Superblock} {D D' : Nat → Block} {i off inum : Nat} {name : Bytes}

/-- The name of the entry written. -/
theorem Spliced.nameOf_new {e : Bytes} (h : Spliced sb D D' i e off DIRENT) :
    nameOf (deName (direntAt D' (dinodeOf sb D' i) off)) = nameOf (deName e) := by
  apply Name.ext
  refine nameFrom_congr fun j hj _ => ?_
  have hlt : 2 + j < DIRENT := by
    unfold DIRENT DIRSIZ at *
    omega
  unfold deName
  rw [Nat.zero_add, direntAt_eq _ _ _ hlt, h.bytes _ (by omega), if_pos ⟨Nat.le_add_right _ _, by omega⟩,
    Nat.add_sub_cancel_left]

/-- The live entries after one is written into a vacant place. -/
theorem Spliced.entry_iff (h : Spliced sb D D' i (mkDirent (UInt16.ofNat inum) name) off DIRENT)
    (hsize : DIRENT ∣ (dinodeOf sb D i).size.toNat) (hvac : Vacant D (dinodeOf sb D i) off) (hpos : 1 ≤ inum)
    (hlt : inum < 2 ^ 16) {o : Nat} {n : Name} {j : Nat} : Entry D' (dinodeOf sb D' i) o n j ↔
      o = off ∧ n = nameOf name ∧ j = inum ∨ Entry D (dinodeOf sb D i) o n j := by
  have hinum : (UInt16.ofNat inum).toNat = inum := by
    rw [UInt16.toNat_ofNat', Nat.mod_eq_of_lt hlt]
  have hnew := h.deInum_new
  have hname := h.nameOf_new
  rw [deInum_mkDirent] at hnew
  rw [nameOf_deName_mkDirent] at hname
  by_cases ho : o = off
  · rw [ho]
    constructor
    · intro he
      refine .inl ⟨rfl, ?_, ?_⟩
      · rw [← he.name, hname]
      · rw [← he.inum, hnew, hinum]
    · rintro (⟨-, rfl, rfl⟩ | he)
      · refine ⟨hvac.aligned, ?_, fun h0 => ?_, hname, by rw [hnew, hinum]⟩
        · rw [h.size]
          unfold DIRENT
          omega
        · rw [hnew] at h0
          have hzero := congrArg UInt16.toNat h0
          rw [hinum] at hzero
          exact absurd hzero (by simp; omega)
      · exact absurd (hvac.free he.lt) he.live
  · -- the other entries are as they were, and the directory grows by the new one only
    have hend (ho' : DIRENT ∣ o) (hin : o < (dinodeOf sb D' i).size.toNat) :
        o + DIRENT ≤ (dinodeOf sb D i).size.toNat := by
      rw [h.size] at hin
      have hle := hvac.le
      obtain ⟨a, rfl⟩ := ho'
      obtain ⟨b, rfl⟩ := hvac.aligned
      obtain ⟨c, hc⟩ := hsize
      rw [hc] at hin hle ⊢
      unfold DIRENT at *
      omega
    constructor
    · intro he
      have hold := h.direntAt_old hvac.aligned he.aligned ho (hend he.aligned he.lt)
      refine .inr ⟨he.aligned, ?_, ?_, ?_, ?_⟩
      · have := hend he.aligned he.lt
        unfold DIRENT at this
        omega
      · rw [← hold]
        exact he.live
      · rw [← hold]
        exact he.name
      · rw [← hold]
        exact he.inum
    · rintro (⟨he, -⟩ | he)
      · exact absurd he ho
      · have hold := h.direntAt_old hvac.aligned he.aligned ho (dirent_end hsize he.aligned he.lt)
        refine ⟨he.aligned, ?_, ?_, ?_, ?_⟩
        · rw [h.size]
          exact he.lt.trans_le (le_max_left _ _)
        · rw [hold]
          exact he.live
        · rw [hold]
          exact he.name
        · rw [hold]
          exact he.inum

/-- The entry written has a name of its own. -/
theorem Spliced.distinct (h : Spliced sb D D' i (mkDirent (UInt16.ofNat inum) name) off DIRENT)
    (hsize : DIRENT ∣ (dinodeOf sb D i).size.toNat) (hvac : Vacant D (dinodeOf sb D i) off) (hpos : 1 ≤ inum)
    (hlt : inum < 2 ^ 16) (hd : Distinct D (dinodeOf sb D i)) (hnone : lookup D (dinodeOf sb D i) name = none) :
    Distinct D' (dinodeOf sb D' i) := by
  intro o o' n j j' ho ho'
  rw [h.entry_iff hsize hvac hpos hlt] at ho ho'
  rw [lookup_eq_none_iff] at hnone
  rcases ho with ⟨rfl, hn, -⟩ | ho <;> rcases ho' with ⟨rfl, hn', -⟩ | ho'
  · rfl
  · exact absurd (hn ▸ ho') (hnone _ _)
  · exact absurd (hn' ▸ ho) (hnone _ _)
  · exact hd o o' n j j' ho ho'

/-- The map with one more name. -/
theorem Spliced.dirMap_linked (h : Spliced sb D D' i (mkDirent (UInt16.ofNat inum) name) off DIRENT)
    (hsize : DIRENT ∣ (dinodeOf sb D i).size.toNat) (hvac : Vacant D (dinodeOf sb D i) off) (hpos : 1 ≤ inum)
    (hlt : inum < 2 ^ 16) (hd : Distinct D (dinodeOf sb D i)) (hnone : lookup D (dinodeOf sb D i) name = none) :
    dirMap D' (dinodeOf sb D' i) = update (dirMap D (dinodeOf sb D i)) (nameOf name) (some inum) := by
  have hd' := h.distinct hsize hvac hpos hlt hd hnone
  funext n
  apply Option.ext
  intro j
  have hentry : dirMap D' (dinodeOf sb D' i) n = some j ↔ ∃ o, o = off ∧ n = nameOf name ∧ j = inum ∨
      Entry D (dinodeOf sb D i) o n j := by
    unfold dirMap
    rw [lookup_eq_some_iff hd', nameOf_buffer]
    exact exists_congr fun o => h.entry_iff hsize hvac hpos hlt
  rw [hentry]
  by_cases hn : n = nameOf name
  · rw [hn, update_self]
    constructor
    · rintro ⟨o, ⟨-, -, rfl⟩ | ho⟩
      · rfl
      · exact absurd ho (lookup_eq_none_iff.1 hnone o j)
    · intro he
      exact ⟨off, .inl ⟨rfl, rfl, (Option.some.inj he).symm⟩⟩
  · unfold dirMap
    rw [update_of_ne hn, lookup_eq_some_iff hd, nameOf_buffer]
    exact exists_congr fun o => or_iff_right fun he => hn he.2.1

end Linked

/-! ## Directories in memory -/

/-- Slot `dp` holds, locked, a directory of whole entries whose live names are distinct. The entries may name any
inode number. -/
structure Directory (s : State) (refs : Fin NINODE → Nat) (dp : Fin NINODE) : Prop where
  idle : Idle s.dev []
  counts : Refs s refs
  structural : Structural s.sb s.dev.disk (dinodeOf s.sb s.dev.disk)
  locked : Locked s dp
  valid : (s.icache dp).valid = true
  type : (s.icache dp).din.type = T_DIR
  clean : (s.icache dp).din = dinodeOf s.sb s.dev.disk (s.icache dp).inum
  size : DIRENT ∣ (s.icache dp).din.size.toNat
  distinct : Distinct s.dev.disk (s.icache dp).din

/-- The directory has an entry that is not in use. -/
def FreeEntry (D : Nat → Block) (din : Dinode) : Prop :=
  ∃ o, DIRENT ∣ o ∧ o < din.size.toNat ∧ deInum (direntAt D din o) = 0

/-- There is room for one more entry: one is not in use, or the directory can grow. -/
def EntryRoom (s : State) (dp : Fin NINODE) : Prop :=
  FreeEntry s.dev.disk (s.icache dp).din ∨ (s.icache dp).din.size.toNat + DIRENT ≤ MAXBYTES ∧
    blocksFor (nblk (s.icache dp).din.size.toNat) (nblk ((s.icache dp).din.size.toNat + DIRENT)) ≤ freeBlocks s

/-- The map of the directory in slot `dp`. -/
def mapOf (s : State) (dp : Fin NINODE) : Name → Option Nat := dirMap s.dev.disk (s.icache dp).din

/-- `iget` finds no slot. -/
def NoSlot (refs : Fin NINODE → Nat) (e : Halt) : Prop := e = .panic "iget: no inodes" ∧ ∀ jp, 0 < refs jp

theorem noSlot_or (refs : Fin NINODE → Nat) : NoSlot refs (.panic "iget: no inodes") ∨ ∃ jp, refs jp = 0 := by
  by_cases hslot : ∃ jp, refs jp = 0
  · exact .inr hslot
  · rw [not_exists] at hslot
    exact .inl ⟨rfl, fun jp => Nat.pos_of_ne_zero (hslot jp)⟩

/-- `dirlookup` yields what the map has, and takes a reference to it. -/
def Reads (s : State) (refs : Fin NINODE → Nat) (dp : Fin NINODE) : Prop :=
  ∀ name, (dirlookup dp name).wp (fun r t => t.dev.disk = s.dev.disk ∧
      match mapOf s dp (nameOf name) with
      | none => r = none ∧ Refs t refs
      | some i => ∃ jp, r = some jp ∧ (t.icache jp).inum = i ∧ Refs t (hold refs jp))
    (fun e => NoSlot refs e ∧ mapOf s dp (nameOf name) ≠ none) s

theorem Vacant.lt_iff {D : Nat → Block} {din : Dinode} {off : Nat} (h : Vacant D din off) :
    off < din.size.toNat ↔ FreeEntry D din := by
  constructor
  · intro hlt
    exact ⟨off, h.aligned, hlt, h.free hlt⟩
  · rintro ⟨o, ho, hlt, hfree⟩
    by_contra hge
    exact h.full o (by omega) ho hfree

namespace Directory

variable {s : State} {refs : Fin NINODE → Nat} {dp : Fin NINODE}

theorem mappedTo (h : Directory s refs dp) :
    MappedTo s.dev.disk (s.icache dp).din (s.icache dp).din.size.toNat := by
  have hused : Used s.sb (dinodeOf s.sb s.dev.disk) (s.icache dp).inum := ⟨h.locked.inum, h.clean ▸ h.locked.type⟩
  rw [h.clean]
  exact h.structural.mappedTo hused

theorem tableOf_eq (h : Directory s refs dp) : tableOf s dp = dinodeOf s.sb s.dev.disk := by
  unfold tableOf
  rw [h.clean]
  exact update_eq_self _ _

theorem of_dev (h : Directory s refs dp) {d : Dev} (hd : Idle d []) (hdisk : d.disk = s.dev.disk) :
    Directory { s with dev := d } refs dp := by
  have hl := h.locked
  refine ⟨hd, h.counts.same fun _ => ⟨rfl, rfl, rfl, rfl⟩, ?_, ⟨hl.dev, hl.inum, hl.type⟩, h.valid, h.type, ?_, h.size,
    ?_⟩ <;> simp only [hdisk]
  · exact h.structural
  · exact h.clean
  · exact h.distinct

/-- Only the slot of the directory matters. -/
theorem of_slot (h : Directory s refs dp) {t : State} (hdev : t.dev = s.dev) (hsb : t.sb = s.sb)
    (hslot : t.icache dp = s.icache dp) (hcounts : Refs t refs) : Directory t refs dp := by
  have hl := h.locked
  refine ⟨hdev ▸ h.idle, hcounts, ?_, ⟨?_, ?_, ?_⟩, ?_, ?_, ?_, ?_, ?_⟩ <;> try rw [hslot]
  · rw [hdev, hsb]
    exact h.structural
  · exact hl.dev
  · rw [hsb]
    exact hl.inum
  · exact hl.type
  · exact h.valid
  · exact h.type
  · rw [hdev, hsb]
    exact h.clean
  · exact h.size
  · rw [hdev]
    exact h.distinct

/-- The inode of an entry is taken and put back. -/
theorem wp_get_put (h : Directory s refs dp) (i : Nat) {E : Halt → Prop} {Q : State → Prop}
    (hQ : ∀ t, Directory t refs dp → t.dev = s.dev → t.icache dp = s.icache dp → Q t)
    (hE : (∀ e, NoSlot refs e → E e)) : (iget ROOTDEV i).wp (fun jp t => (iput jp).wp (fun _ u => Q u) E t) E s := by
  have hpos : 0 < refs dp := by
    by_contra h0
    have hfree := h.counts.free dp (by omega)
    rw [h.valid] at hfree
    exact Bool.noConfusion hfree
  refine Fs.wp_iget h.counts (fun jp hjp _ _ => ?_) (fun hmiss jp hjp => ?_) ?_
  · show Q (iputState _ jp)
    have hslot : (iputState (s.setInode jp { s.icache jp with ref := (s.icache jp).ref + 1 }) jp).icache dp =
        s.icache dp := by
      unfold iputState
      by_cases hdp : dp = jp
      · -- a slot that was in use stays in use
        have href : (s.icache jp).ref = refs jp := h.counts.ref jp
        rw [hdp, State.setInode_self, State.setInode_self]
        simp only [Int.add_sub_cancel]
        rw [if_neg (by omega), if_neg (by omega)]
      · rw [State.setInode_of_ne hdp, State.setInode_of_ne hdp]
    exact hQ _ (h.of_slot rfl rfl hslot (h.counts.found hjp).put) rfl hslot
  · show Q (iputState _ jp)
    have hdp : dp ≠ jp := by
      rintro rfl
      omega
    have hslot : (iputState (s.setInode jp { s.icache jp with dev := ROOTDEV, inum := i, ref := 1, valid := false })
        jp).icache dp = s.icache dp := by
      unfold iputState
      rw [State.setInode_of_ne hdp, State.setInode_of_ne hdp]
    exact hQ _ (h.of_slot rfl rfl hslot (h.counts.taken hjp hmiss).put) rfl hslot
  · exact (noSlot_or refs).imp_left (hE _)

/-- What is looked up is what the map has. -/
theorem reads (h : Directory s refs dp) : Reads s refs dp := by
  intro name
  have hlookup := lookup_eq_dirMap s.dev.disk (s.icache dp).din name
  unfold mapOf
  rw [← hlookup]
  refine Fs.wp_dirlookup h.idle h.locked.dev h.size h.mappedTo name (fun hl d hd hdisk => ?_) fun i hl d hd hdisk => ?_
  · refine ⟨hdisk, ?_⟩
    rw [hl]
    exact ⟨rfl, h.counts.same fun _ => ⟨rfl, rfl, rfl, rfl⟩⟩
  · have hcounts : Refs { s with dev := d } refs := h.counts.same fun _ => ⟨rfl, rfl, rfl, rfl⟩
    rw [hl]
    refine Fs.wp_iget hcounts (fun jp hjp hdev hinum => ⟨hdisk, jp, rfl, ?_, hcounts.found hjp⟩)
      (fun hmiss jp hjp => ⟨hdisk, jp, rfl, ?_, hcounts.taken hjp hmiss⟩) ?_
    · rw [State.setInode_self]
      exact hinum
    · rw [State.setInode_self]
    · exact (noSlot_or refs).imp_left fun hno => ⟨hno, by simp⟩

/-- After an entry is written into a vacant place. -/
theorem written (h : Directory s refs dp) {name : Bytes} {inum off : Nat} {t : State} (hpos : 1 ≤ inum)
    (hlt : inum < 2 ^ 16) (hnone : lookup s.dev.disk (s.icache dp).din name = none)
    (hvac : Vacant s.dev.disk (s.icache dp).din off)
    (hw : Written s dp (mkDirent (UInt16.ofNat inum) name) off DIRENT t) :
    Directory t refs dp ∧ mapOf t dp = update (mapOf s dp) (nameOf name) (some inum) ∧
      (t.icache dp).din.size.toNat = max (s.icache dp).din.size.toNat (off + DIRENT) := by
  have hclean := hw.clean h.clean
  have hsplice := hw.spliced h.clean
  have hsize := h.size
  have hdistinct := h.distinct
  have hstruct := hw.structural
  obtain ⟨hvalid, hl⟩ : (t.icache dp).valid = true ∧ Locked t dp := by
    obtain ⟨addrs, hin⟩ := hw.inode
    rw [hin]
    refine ⟨h.valid, ?_, ?_, ?_⟩ <;> rw [hin]
    · exact h.locked.dev
    · rw [hw.sb]
      exact h.locked.inum
    · exact h.locked.type
  have htype : (t.icache dp).din.type = T_DIR := by
    obtain ⟨addrs, hin⟩ := hw.inode
    rw [hin]
    exact h.type
  rw [hw.tableOf_eq h.clean] at hstruct
  have hdvd : DIRENT ∣ (t.icache dp).din.size.toNat := by
    rw [hw.size]
    rcases max_choice (s.icache dp).din.size.toNat (off + DIRENT) with he | he <;> rw [he]
    · exact hsize
    · exact Nat.dvd_add hvac.aligned (Nat.dvd_refl _)
  refine ⟨⟨hw.idle, h.counts.same hw.sameSlots, hstruct, hl, hvalid, htype, ?_, hdvd, ?_⟩, ?_, hw.size⟩
  · rw [hclean, hw.sb, hw.inum]
  · rw [hclean]
    rw [h.clean] at hsize hvac hdistinct hnone
    exact hsplice.distinct hsize hvac hpos hlt hdistinct hnone
  · unfold mapOf
    rw [hclean]
    rw [h.clean] at hsize hvac hdistinct hnone ⊢
    exact hsplice.dirMap_linked hsize hvac hpos hlt hdistinct hnone

end Directory

/-- A directory of the file system whose live names are distinct. -/
theorem FsInv.directory {s : State} {refs : Fin NINODE → Nat} {dp : Fin NINODE} (h : FsInv s refs)
    (hv : (s.icache dp).valid = true) (ht : (s.icache dp).din.type = T_DIR)
    (hd : Distinct s.dev.disk (s.icache dp).din) : Directory s refs dp := by
  refine ⟨h.idle, h.counts, h.disk.structural, h.locked hv, hv, ht, h.clean dp hv, ?_, hd⟩
  rw [h.clean dp hv]
  exact (h.dirOk hv ht).size

/-- `dirlink` and `dirlookup` implement a finite map. -/
theorem dirlink_map (s : State) (refs : Fin NINODE → Nat) (dp : Fin NINODE) (name : Bytes) (inum : Nat)
    (h : Directory s refs dp) (hpos : 1 ≤ inum) (hlt : inum < 2 ^ 16) (hroom : EntryRoom s dp) :
    Reads s refs dp ∧ (dirlink dp name inum).wp (fun r t => Directory t refs dp ∧ Reads t refs dp ∧
        (r = -1 ∧ mapOf s dp (nameOf name) ≠ none ∧ t.dev.disk = s.dev.disk ∧ mapOf t dp = mapOf s dp ∨
         r = 0 ∧ mapOf s dp (nameOf name) = none ∧ mapOf t dp = update (mapOf s dp) (nameOf name) (some inum) ∧
          (FreeEntry s.dev.disk (s.icache dp).din ∧
            (t.icache dp).din.size.toNat = (s.icache dp).din.size.toNat ∨
           ¬ FreeEntry s.dev.disk (s.icache dp).din ∧
            (t.icache dp).din.size.toNat = (s.icache dp).din.size.toNat + DIRENT)))
      (fun e => NoSlot refs e ∧ mapOf s dp (nameOf name) ≠ none) s := by
  refine ⟨h.reads, ?_⟩
  have hlookup : lookup s.dev.disk (s.icache dp).din name = mapOf s dp (nameOf name) := lookup_eq_dirMap _ _ _
  refine Fs.wp_dirlink h.idle h.locked.dev h.size h.mappedTo name inum (fun i hl d hd hdisk => ?_)
    fun hl off hvac d hd hdisk => ?_
  · have hsome : mapOf s dp (nameOf name) ≠ none := by
      rw [← hlookup, hl]
      simp
    refine (h.of_dev hd hdisk).wp_get_put i (fun t ht hdev hslot => ?_) fun e he => ⟨he, hsome⟩
    have hdisk' : t.dev.disk = s.dev.disk := by
      rw [hdev]
      exact hdisk
    refine ⟨ht, ht.reads, .inl ⟨rfl, hsome, hdisk', ?_⟩⟩
    unfold mapOf
    rw [hdisk', hslot]
  · have hinv := h.of_dev hd hdisk
    have hoff := hvac.toNat_off
    have hlen : (UInt32.ofNat DIRENT).toNat = DIRENT := by decide
    have hle := hvac.le
    have hmax := h.mappedTo.le
    have hcases := hvac.lt_iff
    -- the entry fits, and the blocks it needs are there
    have hfits : off + DIRENT ≤ MAXBYTES ∧ blocksFor (nblk (s.icache dp).din.size.toNat)
        (max (nblk (s.icache dp).din.size.toNat) (nblk (off + DIRENT))) ≤ freeBlocks s := by
      by_cases hin : off < (s.icache dp).din.size.toNat
      · have hend := dirent_end h.size hvac.aligned hin
        refine ⟨hend.trans hmax, ?_⟩
        rw [max_eq_left (nblk_mono hend)]
        unfold blocksFor
        rw [if_neg (by omega)]
        omega
      · obtain rfl : off = (s.icache dp).din.size.toNat := by omega
        have hgrow := hroom.resolve_left fun hfree => hin (hcases.2 hfree)
        rwa [max_eq_right (nblk_mono (Nat.le_add_right _ _))]
    refine Fs.wp_writei hd hinv.locked (hinv.tableOf_eq ▸ hinv.structural) (fun _ => .inr ?_) (fun hr => ?_)
      fun _ t hw => ?_
    · rw [hoff, hlen]
      unfold freeBlocks at hfits ⊢
      rw [hdisk]
      exact hfits.2
    · exact absurd hr (hvac.not_refused hfits.1)
    · rw [hlen, if_neg (by simp)]
      rw [hoff, hlen] at hw
      rw [← hdisk] at hl hvac
      obtain ⟨ht, hmap, hsize⟩ := hinv.written hpos hlt hl hvac hw
      refine ⟨ht, ht.reads, .inr ⟨rfl, by rw [← hlookup, ← hdisk, hl], ?_, ?_⟩⟩
      · rw [hmap]
        unfold mapOf
        rw [hdisk]
      · rw [hsize]
        by_cases hin : off < (s.icache dp).din.size.toNat
        · exact .inl ⟨hcases.1 hin, max_eq_left (dirent_end h.size hvac.aligned hin)⟩
        · obtain rfl : off = (s.icache dp).din.size.toNat := by omega
          exact .inr ⟨fun hfree => hin (hcases.2 hfree), max_eq_right (Nat.le_add_right _ _)⟩

/-- The root of a made image. -/
theorem distinct_root {total : Nat} {D : Nat → Block} (h : Mkfs.Image total D) (hlt : Mkfs.nmeta total < 2 ^ 32) :
    Distinct D (Mkfs.rootDinode (Mkfs.nmeta total) 32) := by
  have hsize : (Mkfs.rootDinode (Mkfs.nmeta total) 32).size.toNat = 32 := (by decide : (32 : UInt32).toNat = 32)
  have hoff {o : Nat} {n : Name} {i : Nat} (he : Entry D (Mkfs.rootDinode (Mkfs.nmeta total) 32) o n i) :
      o = 0 ∨ o = DIRENT := by
    have hin := he.lt
    obtain ⟨k, rfl⟩ := he.aligned
    rw [hsize] at hin
    unfold DIRENT at *
    omega
  have hno {n : Name} {i i' : Nat} (he : Entry D (Mkfs.rootDinode (Mkfs.nmeta total) 32) 0 n i)
      (he' : Entry D (Mkfs.rootDinode (Mkfs.nmeta total) 32) DIRENT n i') : False := by
    -- the second byte of one is the NUL, that of the other a dot
    have hmatch := (nameMatch_iff _ _).2 (he.name.trans he'.name.symm)
    have hname {off : Nat} (hoff : off = 0 ∨ off = DIRENT) (i : Nat) (hi : i < DIRSIZ) := Mkfs.deName_root h hlt hoff hi
    unfold DIRSIZ nameMatch nameMatch at hmatch
    rw [hname (.inl rfl) 0 (by decide), hname (.inl rfl) 1 (by decide), hname (.inr rfl) 0 (by decide),
      hname (.inr rfl) 1 (by decide), if_neg (by decide), if_neg (by decide), if_pos (by decide)] at hmatch
    exact Bool.false_ne_true hmatch
  intro o o' n i i' ho ho'
  rcases hoff ho with rfl | rfl <;> rcases hoff ho' with rfl | rfl
  · rfl
  · exact (hno ho ho').elim
  · exact (hno ho' ho).elim
  · rfl

/-- A name of one letter is put into the root of the default image. -/
theorem dirlink_map_root : ∃ s refs dp, Directory s refs dp ∧
    ∃ t, (dirlink dp (fun i => if i = 0 then 0x61 else 0) 5).run s = .ok (0, t) ∧ mapOf t dp (nameOf fun i => if i = 0 then 0x61 else 0) = some 5 := by
  obtain ⟨img, hm, -⟩ := Mkfs.makes 1000 (by unfold Mkfs.NoImage Mkfs.nmeta; decide)
  obtain ⟨s, hs⟩ := hm.mountStart
  obtain ⟨dp, t, -, ht, hv, hdin, hdisk⟩ := wp_total (hm.wp_root hs)
  have hlt : Mkfs.nmeta 1000 < 2 ^ 32 := by decide
  have hd : Distinct t.dev.disk (t.icache dp).din := by
    rw [hdin, hdisk]
    exact distinct_root hm.image.1 hlt
  have hdir := ht.directory hv (by rw [hdin]; rfl) hd
  have hnone : mapOf t dp (nameOf fun i => if i = 0 then 0x61 else 0) = none := by
    unfold mapOf
    rw [← lookup_eq_dirMap, hdin, hdisk]
    exact Mkfs.lookup_root hm.image.1 hlt (by decide)
  have hroom : EntryRoom t dp := by
    unfold EntryRoom
    rw [hdin]
    exact .inr ⟨by decide, Nat.zero_le _⟩
  obtain ⟨-, hlink⟩ := dirlink_map t _ dp (fun i => if i = 0 then 0x61 else 0) 5 hdir (by decide) (by decide) hroom
  obtain ⟨r, u, hrun, -, -, ⟨-, hsome, -⟩ | ⟨rfl, -, hmap, -⟩⟩ :=
    wp_total (wp_mono hlink (fun _ _ h => h) fun e he => he.2 hnone)
  · exact absurd hnone hsome
  · refine ⟨t, _, dp, hdir, u, hrun, ?_⟩
    rw [hmap, update_self]

end RiscvOsLab.Fs
