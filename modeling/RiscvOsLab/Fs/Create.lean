import RiscvOsLab.Fs.Tree

/-!
# Files that grow and files that are made

What the writing half of the file system does to the disk, and that it keeps `FsInv`:

* `Spliced` : bytes of one inode are replaced; `FsInv.wp_writei`;
* `Allotted` : a free dinode is taken; `FsInv.wp_ialloc`;
* `FsInv.wp_dirlink` : an entry is written into a directory that has none with the name.
-/

namespace RiscvOsLab.Fs

open Prog Bytes Function

/-- The slots with references still hold their inodes. -/
structure Slots (refs : Fin NINODE → Nat) (s t : State) : Prop where
  sb : t.sb = s.sb
  inum : ∀ ip, 0 < refs ip → (t.icache ip).inum = (s.icache ip).inum
  valid : ∀ ip, 0 < refs ip → (s.icache ip).valid = true → (t.icache ip).valid = true

section Slots
variable {refs : Fin NINODE → Nat} {s t u : State}

theorem Slots.trans (h : Slots refs s t) (h' : Slots refs t u) : Slots refs s u where
  sb := h'.sb.trans h.sb
  inum ip hip := (h'.inum ip hip).trans (h.inum ip hip)
  valid ip hip hv := h'.valid ip hip (h.valid ip hip hv)

theorem Slots.of_hold {ip : Fin NINODE} (h : Slots (hold refs ip) s t) : Slots refs s t where
  sb := h.sb
  inum jp hjp := h.inum jp (hjp.trans_le (le_hold refs ip jp))
  valid jp hjp := h.valid jp (hjp.trans_le (le_hold refs ip jp))

theorem Still.slots (h : Still refs s t) : Slots refs s t := ⟨h.sb, h.inum, h.valid⟩

theorem SameSlots.slots (h : SameSlots s t) (hsb : t.sb = s.sb) : Slots refs s t :=
  ⟨hsb, fun ip _ => (h ip).2.1, fun ip _ hv => (h ip).2.2.2.trans hv⟩

end Slots

theorem direntAt_congr {D D' : Nat → Block} {din din' : Dinode} {off : Nat}
    (h : ∀ i < DIRENT, contents D' din' (off + i) = contents D din (off + i)) :
    direntAt D' din' off = direntAt D din off := by
  have hbytes : bytesFrom D' din' off DIRENT = bytesFrom D din off DIRENT :=
    List.map_congr_left fun i hi => h i (List.mem_range.1 hi)
  unfold direntAt
  rw [hbytes]

/-! ## Writing -/

/-- The bytes of inode `i` from `off` on are those of `src`, the file has grown to hold them, and the rest is as it
was. -/
structure Spliced (sb : Superblock) (D D' : Nat → Block) (i : Nat) (src : Bytes) (off n : Nat) : Prop where
  others : ∀ k < sb.ninodes, k ≠ i → dinodeOf sb D' k = dinodeOf sb D k
  inode : ∃ addrs, dinodeOf sb D' i =
    { dinodeOf sb D i with addrs, size := UInt32.ofNat (max (dinodeOf sb D i).size.toNat (off + n)) }
  size : (dinodeOf sb D' i).size.toNat = max (dinodeOf sb D i).size.toNat (off + n)
  bytes : ∀ o < max (dinodeOf sb D i).size.toNat (off + n), contents D' (dinodeOf sb D' i) o =
    if off ≤ o ∧ o < off + n then src (o - off) else contents D (dinodeOf sb D i) o
  frame : ∀ k, Used sb (dinodeOf sb D) k → k ≠ i → ∀ o < (dinodeOf sb D k).size.toNat,
    contents D' (dinodeOf sb D k) o = contents D (dinodeOf sb D k) o

namespace Spliced

variable {sb : Superblock} {D D' : Nat → Block} {i : Nat} {src : Bytes} {off n : Nat}

theorem type (h : Spliced sb D D' i src off n) {k : Nat} (hk : k < sb.ninodes) :
    (dinodeOf sb D' k).type = (dinodeOf sb D k).type := by
  by_cases hki : k = i
  · obtain ⟨addrs, he⟩ := h.inode
    rw [hki, he]
  · rw [h.others k hk hki]

theorem used (h : Spliced sb D D' i src off n) (k : Nat) : Used sb (dinodeOf sb D') k ↔ Used sb (dinodeOf sb D) k :=
  and_congr_right fun hk => by rw [h.type hk]

/-- Sizes do not shrink. -/
theorem size_le (h : Spliced sb D D' i src off n) {k : Nat} (hk : k < sb.ninodes) :
    (dinodeOf sb D k).size.toNat ≤ (dinodeOf sb D' k).size.toNat := by
  by_cases hki : k = i
  · rw [hki, h.size]
    exact le_max_left _ _
  · rw [h.others k hk hki]

/-- An entry of another file is as it was. -/
theorem direntAt_other (h : Spliced sb D D' i src off n) {k o : Nat} (hk : Used sb (dinodeOf sb D) k) (hki : k ≠ i)
    (hend : o + DIRENT ≤ (dinodeOf sb D k).size.toNat) :
    direntAt D' (dinodeOf sb D' k) o = direntAt D (dinodeOf sb D k) o := by
  rw [h.others k hk.1 hki]
  exact direntAt_congr fun j hj => h.frame k hk hki _ (by omega)

/-- The other directories. -/
theorem dirOk (h : Spliced sb D D' i src off n) {k : Nat} (hk : Used sb (dinodeOf sb D) k) (hki : k ≠ i)
    (hd : DirOk sb D k) : DirOk sb D' k := by
  have hdin := h.others k hk.1 hki
  refine ⟨by rw [hdin]; exact hd.size, fun o ho hlt h0 => ?_⟩
  rw [hdin] at hlt
  have hentry := h.direntAt_other hk hki (dirent_end hd.size ho hlt)
  rw [hentry] at h0 ⊢
  exact (h.used _).2 (hd.entries o ho hlt h0)

section Entry
variable {e : Bytes}

/-- The entry written. -/
theorem deInum_new (h : Spliced sb D D' i e off DIRENT) : deInum (direntAt D' (dinodeOf sb D' i) off) = deInum e := by
  refine u16At_congr fun j hj => ?_
  rw [direntAt_eq _ _ _ (by unfold DIRENT; omega), h.bytes _ (by unfold DIRENT at *; omega),
    if_pos (by unfold DIRENT; omega)]
  congr 1
  omega

/-- The entries that were there. -/
theorem direntAt_old (h : Spliced sb D D' i e off DIRENT) (hoff : DIRENT ∣ off) {o : Nat} (ho : DIRENT ∣ o)
    (hne : o ≠ off) (hend : o + DIRENT ≤ (dinodeOf sb D i).size.toNat) :
    direntAt D' (dinodeOf sb D' i) o = direntAt D (dinodeOf sb D i) o := by
  have hout : ∀ j < DIRENT, ¬ (off ≤ o + j ∧ o + j < off + DIRENT) := by
    intro j hj hin
    obtain ⟨a, rfl⟩ := ho
    obtain ⟨b, rfl⟩ := hoff
    unfold DIRENT at *
    omega
  exact direntAt_congr fun j hj => by rw [h.bytes _ (by omega), if_neg (hout j hj)]

end Entry

/-- A directory into which one entry is written. -/
theorem dirOk_entry {inum : Nat} {name : Bytes} (h : Spliced sb D D' i (mkDirent (UInt16.ofNat inum) name) off DIRENT)
    (hd : DirOk sb D i) (hoff : DIRENT ∣ off) (hle : off ≤ (dinodeOf sb D i).size.toNat) (hused : Used sb (dinodeOf sb D) inum) (hfew : sb.ninodes ≤ 2 ^ 16) :
    DirOk sb D' i := by
  have hdvd : DIRENT ∣ max (dinodeOf sb D i).size.toNat (off + DIRENT) := by
    rcases max_choice (dinodeOf sb D i).size.toNat (off + DIRENT) with he | he <;> rw [he]
    · exact hd.size
    · exact Nat.dvd_add hoff (Nat.dvd_refl _)
  refine ⟨by rw [h.size]; exact hdvd, fun o ho hlt h0 => ?_⟩
  rw [h.size] at hlt
  refine (h.used _).2 ?_
  by_cases heq : o = off
  · -- the new entry
    rw [heq, h.deInum_new, deInum_mkDirent, UInt16.toNat_ofNat', Nat.mod_eq_of_lt (hused.1.trans_le hfew)]
    exact hused
  · -- an old one
    have hold : o < (dinodeOf sb D i).size.toNat := by
      by_contra hge
      obtain ⟨a, ha⟩ := ho
      obtain ⟨b, hb⟩ := hoff
      obtain ⟨c, hc⟩ := hd.size
      unfold DIRENT at *
      omega
    have hentry := h.direntAt_old hoff ho heq (dirent_end hd.size ho hold)
    rw [hentry] at h0 ⊢
    exact hd.entries o ho hold h0

end Spliced

namespace Written

variable {s t : State} {ip : Fin NINODE} {src : Bytes} {off n : Nat}

theorem inum (h : Written s ip src off n t) : (t.icache ip).inum = (s.icache ip).inum := by
  obtain ⟨addrs, hin⟩ := h.inode
  rw [hin]

theorem sameSlots (h : Written s ip src off n t) : SameSlots s t := by
  intro jp
  by_cases hjp : jp = ip
  · obtain ⟨addrs, hin⟩ := h.inode
    rw [hjp, hin]
    exact ⟨rfl, rfl, rfl, rfl⟩
  · rw [h.others jp hjp]
    exact ⟨rfl, rfl, rfl, rfl⟩

/-- The inode in memory is the one on the disk, if it was. -/
theorem clean (h : Written s ip src off n t)
    (hclean : (s.icache ip).din = dinodeOf s.sb s.dev.disk (s.icache ip).inum) :
    (t.icache ip).din = dinodeOf s.sb t.dev.disk (s.icache ip).inum := by
  rcases h.stored with he | ⟨hic, he⟩
  · exact he.symm
  · rw [he, hic, hclean]

theorem tableOf_eq (h : Written s ip src off n t)
    (hclean : (s.icache ip).din = dinodeOf s.sb s.dev.disk (s.icache ip).inum) :
    tableOf t ip = dinodeOf t.sb t.dev.disk := by
  unfold tableOf
  rw [h.inum, h.clean hclean, h.sb]
  exact update_eq_self _ _

theorem spliced (h : Written s ip src off n t)
    (hclean : (s.icache ip).din = dinodeOf s.sb s.dev.disk (s.icache ip).inum) :
    Spliced s.sb s.dev.disk t.dev.disk (s.icache ip).inum src off n := by
  have hstored := h.clean hclean
  obtain ⟨addrs, hin⟩ := h.inode
  refine ⟨h.dinodes, ⟨addrs, ?_⟩, ?_, fun o ho => ?_, h.frame⟩
  · rw [← hstored, hin, hclean]
  · rw [← hstored, ← hclean]
    exact h.size
  · rw [← hclean] at ho ⊢
    rw [← hstored]
    exact h.bytes o ho

end Written

namespace FsInv

variable {s t : State} {refs : Fin NINODE → Nat} {ip : Fin NINODE} {E : Halt → Prop} {src : Bytes}

/-- The table of a cached inode is the one on the disk. -/
theorem tableOf_eq (h : FsInv s refs) (hv : (s.icache ip).valid = true) : tableOf s ip = dinodeOf s.sb s.dev.disk := by
  unfold tableOf
  rw [h.clean ip hv]
  exact update_eq_self _ _

theorem locked (h : FsInv s refs) (hv : (s.icache ip).valid = true) : Locked s ip := by
  obtain ⟨hdev, hused⟩ := h.live ip (h.pos_of_valid hv)
  refine ⟨hdev, hused.1, ?_⟩
  rw [h.clean ip hv]
  exact hused.2

/-- After a write to a cached inode. -/
theorem written (h : FsInv s refs) (hv : (s.icache ip).valid = true) {off n : Nat} (hw : Written s ip src off n t)
    (hdir : (s.icache ip).din.type = T_DIR → ∀ D', Spliced s.sb s.dev.disk D' (s.icache ip).inum src off n →
      DirOk s.sb D' (s.icache ip).inum) :
    FsInv t refs ∧ Spliced s.sb s.dev.disk t.dev.disk (s.icache ip).inum src off n ∧ SameSlots s t := by
  have hclean := h.clean ip hv
  have hsb := hw.sb
  have hsplice := hw.spliced hclean
  have hslots := hw.sameSlots
  have hstruct := hw.structural
  rw [hw.tableOf_eq hclean] at hstruct
  refine ⟨⟨hw.idle, h.counts.same hslots, ⟨hstruct, ?_, fun k hk ht => ?_⟩, fun jp hjp => ?_, fun jp hjv => ?_⟩,
    hsplice, hslots⟩
  · rw [hsb]
    exact (hsplice.used _).2 h.disk.root
  · rw [hsb] at hk ht ⊢
    have hk' := (hsplice.used k).1 hk
    rw [hsplice.type hk'.1] at ht
    by_cases hki : k = (s.icache ip).inum
    · rw [hki] at ht ⊢
      exact hdir (by rw [hclean]; exact ht) _ hsplice
    · exact hsplice.dirOk hk' hki (h.disk.dirs k hk' ht)
  · obtain ⟨hdev, hused⟩ := h.live jp hjp
    rw [(hslots jp).1, (hslots jp).2.1, hsb]
    exact ⟨hdev, (hsplice.used _).2 hused⟩
  · rw [(hslots jp).2.2.2] at hjv
    rw [hsb]
    by_cases hjp : jp = ip
    · rw [hjp, hw.inum, hw.clean hclean]
    · -- another slot is another inode
      have hpos := h.pos_of_valid hjv
      have hne : (s.icache jp).inum ≠ (s.icache ip).inum := fun he =>
        hjp (h.counts.uniq jp ip hpos (h.pos_of_valid hv)
          ((h.live jp hpos).1.trans (h.live ip (h.pos_of_valid hv)).1.symm) he)
      rw [(hslots jp).2.1, hw.others jp hjp, h.clean jp hjv, hw.dinodes _ (h.live jp hpos).2.1 hne]

theorem wp_writei (h : FsInv s refs) (hv : (s.icache ip).valid = true) {off n : UInt32}
    (hdir : (s.icache ip).din.type = T_DIR → ∀ D',
      Spliced s.sb s.dev.disk D' (s.icache ip).inum src off.toNat n.toNat → DirOk s.sb D' (s.icache ip).inum)
    (hE : E (.panic "balloc: out of blocks") ∨
      blocksFor (nblk (dinodeOf s.sb s.dev.disk (s.icache ip).inum).size.toNat)
        (max (nblk (dinodeOf s.sb s.dev.disk (s.icache ip).inum).size.toNat) (nblk (off.toNat + n.toNat))) ≤ freeBlocks s)
    {Q : Int → State → Prop}
    (hrefused : Refused (dinodeOf s.sb s.dev.disk (s.icache ip).inum) off n → Q (-1) s)
    (hQ : ¬ Refused (dinodeOf s.sb s.dev.disk (s.icache ip).inum) off n → ∀ t, FsInv t refs → t.sb = s.sb →
      Spliced s.sb s.dev.disk t.dev.disk (s.icache ip).inum src off.toNat n.toNat → SameSlots s t → Q n.toNat t) :
    (writei ip src off n).wp Q E s := by
  have hclean := h.clean ip hv
  refine Fs.wp_writei h.idle (h.locked hv) (h.tableOf_eq hv ▸ h.disk.structural) (fun _ => hclean ▸ hE)
    (fun hr => hrefused (hclean ▸ hr)) fun hr t ht => ?_
  obtain ⟨hinv, hsplice, hslots⟩ := h.written hv ht hdir
  exact hQ (hclean ▸ hr) t hinv ht.sb hsplice hslots

end FsInv

/-! ## A new inode -/

/-- The free dinode `i` is taken for a file of this type. -/
structure Allotted (sb : Superblock) (D D' : Nat → Block) (i : Nat) (type : UInt16) : Prop where
  free : ¬ Used sb (dinodeOf sb D) i
  pos : 1 ≤ i
  lt : i < sb.ninodes
  inode : dinodeOf sb D' i = { Dinode.zero with type }
  others : ∀ k, k ≠ i → dinodeOf sb D' k = dinodeOf sb D k
  map : ∀ b < mapSize sb.size, marked sb D' b = marked sb D b
  frame : ∀ k, Used sb (dinodeOf sb D) k → ∀ o < (dinodeOf sb D k).size.toNat,
    contents D' (dinodeOf sb D k) o = contents D (dinodeOf sb D k) o

theorem Structural.contents_congr {sb : Superblock} {D D' : Nat → Block} {T : Nat → Dinode} (h : Structural sb D T)
    (hD : ∀ b, nmeta sb ≤ b → D' b = D b) {k o : Nat} (hk : Used sb T k) (ho : o < (T k).size.toNat) :
    contents D' (T k) o = contents D (T k) o := by
  have hmap := (h.mappedTo hk o ho).2
  have hlt := (h.mappedTo hk o ho).1
  have hslot : slotVal D' (T k) (slotOf (o / BSIZE)) = slotVal D (T k) (slotOf (o / BSIZE)) := by
    refine slotVal_congr (slotOf_lt hlt) fun _ h0 p _ => ?_
    have hind : NDIRECT < SLOTS := by
      unfold SLOTS
      omega
    have harea := (h.inArea k NDIRECT hk hind (by rwa [slotVal_direct _ _ (Nat.le_refl _)])).1
    rw [slotVal_direct _ _ (Nat.le_refl _)] at harea
    rw [hD _ harea]
  unfold contents
  rw [hslot, hD _ (h.inArea k _ hk (slotOf_lt hlt) hmap).1]

namespace Allotted

variable {sb : Superblock} {D D' : Nat → Block} {i : Nat} {type : UInt16}

theorem used (h : Allotted sb D D' i type) (ht : type ≠ 0) (k : Nat) :
    Used sb (dinodeOf sb D') k ↔ Used sb (dinodeOf sb D) k ∨ k = i := by
  unfold Used
  by_cases hk : k = i
  · rw [hk, h.inode]
    exact ⟨fun _ => .inr rfl, fun _ => ⟨h.lt, ht⟩⟩
  · rw [h.others k hk]
    exact ⟨.inl, fun hx => hx.resolve_right hk⟩

theorem inode_old (h : Allotted sb D D' i type) {k : Nat} (hk : Used sb (dinodeOf sb D) k) :
    dinodeOf sb D' k = dinodeOf sb D k := h.others k fun he => h.free (he ▸ hk)

theorem direntAt_old (h : Allotted sb D D' i type) {k o : Nat} (hk : Used sb (dinodeOf sb D) k)
    (hend : o + DIRENT ≤ (dinodeOf sb D k).size.toNat) :
    direntAt D' (dinodeOf sb D' k) o = direntAt D (dinodeOf sb D k) o := by
  rw [h.inode_old hk]
  exact direntAt_congr fun j hj => h.frame k hk _ (by omega)

theorem dirOk (h : Allotted sb D D' i type) (ht : type ≠ 0) {k : Nat} (hk : Used sb (dinodeOf sb D) k)
    (hd : DirOk sb D k) : DirOk sb D' k := by
  have hdin := h.inode_old hk
  refine ⟨by rw [hdin]; exact hd.size, fun o ho hlt h0 => ?_⟩
  rw [hdin] at hlt
  have hentry := h.direntAt_old hk (dirent_end hd.size ho hlt)
  rw [hentry] at h0 ⊢
  exact (h.used ht _).2 (.inl (hd.entries o ho hlt h0))

end Allotted

/-- The dinode of inode `i` is written. -/
theorem DiskOk.allot {sb : Superblock} {D : Nat → Block} (h : DiskOk sb D) {i : Nat} (hi : i < sb.ninodes)
    (hpos : 1 ≤ i) (hfree : (dinodeOf sb D i).type = 0) {type : UInt16} (ht : type ≠ 0) :
    let D' := update D (inodeBlock sb i) (putDinode (D (inodeBlock sb i)) (i % IPB) { Dinode.zero with type })
    DiskOk sb D' ∧ Allotted sb D D' i type := by
  intro D'
  have hnot : ¬ Used sb (dinodeOf sb D) i := fun hu => hu.2 hfree
  have hblk := h.structural.geo.inodes i hi
  have hle := bmapstart_le sb
  have hdin (k : Nat) : dinodeOf sb D' k = if k = i then { Dinode.zero with type } else dinodeOf sb D k :=
    dinodeOf_put i k _
  have hallot : Allotted sb D D' i type := by
    refine ⟨hnot, hpos, hi, by rw [hdin, if_pos rfl], fun k hk => by rw [hdin, if_neg hk], fun b _ => ?_,
      fun k hk o ho => ?_⟩
    · have hmap : sb.bmapstart ≤ mapBlock sb b := Nat.le_add_right _ _
      unfold marked
      simp only [D']
      rw [update_of_ne (by omega)]
    · exact h.structural.contents_congr (fun b hb => update_of_ne (by omega) _ _) hk ho
  have htable : update (dinodeOf sb D) i { Dinode.zero with type } = dinodeOf sb D' := by
    funext k
    rw [hdin]
    by_cases hk : k = i
    · rw [hk, update_self, if_pos rfl]
    · rw [update_of_ne hk, if_neg hk]
  have haddr (j : Nat) : ({ Dinode.zero with type } : Dinode).addr j = 0 := by
    unfold Dinode.addr Dinode.zero
    split <;> rfl
  have hrep := (h.structural.rep.putInode hi { Dinode.zero with type }).addInode hnot haddr
  rw [htable] at hrep
  have hshape : Rep sb D' (dinodeOf sb D') (Shape sb (dinodeOf sb D') (sizeCnt (dinodeOf sb D')))
      fun k bn => D (slotVal D (dinodeOf sb D k) (slotOf bn)) := by
    refine hrep.of_iff fun x => ?_
    unfold Shape sizeCnt
    rw [hallot.used ht]
    by_cases hx : x.1 = i
    · -- the new inode has no blocks
      have hempty : nblk (dinodeOf sb D' x.1).size.toNat = 0 := by
        rw [hx, hallot.inode]
        show nblk (0 : UInt32).toNat = 0
        decide
      rw [hempty, hx]
      simp only [hnot, false_and, or_true, true_and, iff_false, not_and]
      intro _
      split <;> omega
    · rw [hallot.others x.1 hx]
      simp only [hx, or_false]
  have hsizes (k : Nat) (hk : Used sb (dinodeOf sb D') k) : (dinodeOf sb D' k).size.toNat ≤ MAXBYTES := by
    rcases (hallot.used ht k).1 hk with hk | rfl
    · rw [hallot.others k fun he => hnot (he ▸ hk)]
      exact h.structural.sizes k hk
    · rw [hallot.inode]
      exact Nat.zero_le _
  refine ⟨⟨hshape.structural hsizes, (hallot.used ht _).2 (.inl h.root), fun k hk hd => ?_⟩, hallot⟩
  rcases (hallot.used ht k).1 hk with hk | rfl
  · rw [hallot.others k fun he => hnot (he ▸ hk)] at hd
    exact hallot.dirOk ht hk (h.dirs k hk hd)
  · refine ⟨?_, fun o _ hlt => ?_⟩
    · rw [hallot.inode]
      exact Nat.dvd_zero _
    · rw [hallot.inode] at hlt
      exact absurd hlt (Nat.not_lt_zero _)

/-- `off` is the place for a new entry of the directory: a free entry, or the end. -/
structure Vacant (D : Nat → Block) (din : Dinode) (off : Nat) : Prop where
  aligned : DIRENT ∣ off
  le : off ≤ din.size.toNat
  free : off < din.size.toNat → deInum (direntAt D din off) = 0
  full : ∀ o < off, DIRENT ∣ o → deInum (direntAt D din o) ≠ 0

namespace Vacant

variable {D : Nat → Block} {din : Dinode} {off : Nat}

theorem toNat_off (h : Vacant D din off) : (UInt32.ofNat off).toNat = off := by
  have hle := h.le
  have hsize := din.size.toNat_lt
  rw [UInt32.toNat_ofNat', Nat.mod_eq_of_lt (by omega)]

/-- An entry can be written, if the directory may grow or need not. -/
theorem not_refused (h : Vacant D din off) (hmax : off + DIRENT ≤ MAXBYTES) :
    ¬ Refused din (UInt32.ofNat off) (UInt32.ofNat DIRENT) := by
  have hle := h.le
  have hlen : (UInt32.ofNat DIRENT).toNat = DIRENT := by decide
  unfold Refused
  rw [h.toNat_off, hlen]
  unfold MAXBYTES NDIRECT NINDIRECT BSIZE DIRENT at *
  omega

end Vacant

/-- One more entry takes two blocks at most. -/
theorem blocksFor_dirent {size off : Nat} (h : off ≤ size) :
    blocksFor (nblk size) (max (nblk size) (nblk (off + DIRENT))) ≤ 2 := by
  unfold blocksFor nblk DIRENT BSIZE
  split <;> omega

section Entries
variable {s : State} {ip : Fin NINODE} {E : Halt → Prop}

/-- The search of `dirlink` for a free entry, from a cache `d` over the same disk. -/
theorem wp_freeEntryFrom (hdev : (s.icache ip).dev = ROOTDEV) (hsize : DIRENT ∣ (s.icache ip).din.size.toNat)
    (hmap : MappedTo s.dev.disk (s.icache ip).din (s.icache ip).din.size.toNat) (off : Nat) (hoff : DIRENT ∣ off)
    (hle : off ≤ (s.icache ip).din.size.toNat)
    (hfull : ∀ o < off, DIRENT ∣ o → deInum (direntAt s.dev.disk (s.icache ip).din o) ≠ 0) (d : Dev) (hd : Idle d [])
    (hdisk : d.disk = s.dev.disk) {Q : Nat → State → Prop}
    (hQ : ∀ o, Vacant s.dev.disk (s.icache ip).din o → ∀ d, Idle d [] → d.disk = s.dev.disk → Q o { s with dev := d }) :
    (freeEntryFrom ip (s.icache ip).din.size.toNat off).wp Q E { s with dev := d } := by
  induction hk : (s.icache ip).din.size.toNat - off using Nat.strong_induction_on generalizing off d with
  | _ k ih =>
    unfold freeEntryFrom
    by_cases hlt : off < (s.icache ip).din.size.toNat
    · rw [if_pos hlt]
      have hend := dirent_end hsize hoff hlt
      rw [wp_bind]
      refine wp_readi (s := { s with dev := d }) hd hdev (by rw [hdisk]; exact hmap) fun t ht hdisk' => ?_
      rw [hdisk] at hdisk' ⊢
      rw [readAt_dirent hend]
      simp only
      rw [if_neg (by simp)]
      show (if deInum (direntAt s.dev.disk (s.icache ip).din off) = 0 then _ else _ : Prog State _).wp Q E
        { s with dev := t }
      by_cases hfree : deInum (direntAt s.dev.disk (s.icache ip).din off) = 0
      · rw [if_pos hfree]
        exact hQ off ⟨hoff, hle, fun _ => hfree, hfull⟩ t ht hdisk'
      · rw [if_neg hfree]
        refine ih _ ?_ (off + DIRENT) (Nat.dvd_add hoff (Nat.dvd_refl _)) hend (fun o ho hdvd => ?_) t ht hdisk' rfl
        · unfold DIRENT at *
          omega
        · rcases Nat.lt_or_ge o off with hlo | hge
          · exact hfull o hlo hdvd
          · have heq : o = off := by
              obtain ⟨a, rfl⟩ := hdvd
              obtain ⟨b, rfl⟩ := hoff
              unfold DIRENT at *
              omega
            rw [heq]
            exact hfree
    · rw [if_neg hlt]
      exact hQ off ⟨hoff, hle, fun hx => absurd hx hlt, hfull⟩ d hd hdisk

/-- `dirlink` up to the write of the entry. -/
theorem wp_dirlink (hidle : Idle s.dev []) (hdev : (s.icache ip).dev = ROOTDEV)
    (hsize : DIRENT ∣ (s.icache ip).din.size.toNat)
    (hmap : MappedTo s.dev.disk (s.icache ip).din (s.icache ip).din.size.toNat) (name : Bytes) (inum : Nat)
    {Q : Int → State → Prop}
    (hpresent : ∀ j, lookup s.dev.disk (s.icache ip).din name = some j → ∀ d, Idle d [] → d.disk = s.dev.disk →
      (iget ROOTDEV j).wp (fun jp t => (iput jp).wp (fun _ u => Q (-1) u) E t) E { s with dev := d })
    (hlinked : lookup s.dev.disk (s.icache ip).din name = none → ∀ off, Vacant s.dev.disk (s.icache ip).din off →
      ∀ d, Idle d [] → d.disk = s.dev.disk →
      (writei ip (mkDirent (UInt16.ofNat inum) name) (UInt32.ofNat off) (UInt32.ofNat DIRENT)).wp
        (fun r t => (if r ≠ DIRENT then .panic "dirlink write" else return 0 : Prog State Int).wp Q E t) E
        { s with dev := d }) :
    (dirlink ip name inum).wp Q E s := by
  unfold dirlink
  rw [wp_bind]
  refine wp_dirlookup hidle hdev hsize hmap name (fun hl d hd hdisk => ?_) fun j hl d hd hdisk => ?_
  · simp only [wp_bind, wp_gets]
    refine wp_freeEntryFrom hdev hsize hmap 0 (Nat.dvd_zero _) (Nat.zero_le _) (fun o ho => absurd ho (Nat.not_lt_zero o))
      d hd hdisk fun off hvac d hd hdisk => ?_
    exact hlinked hl off hvac d hd hdisk
  · refine wp_post (hpresent j hl d hd hdisk) fun jp t hput => ?_
    rw [wp_bind]
    exact hput

end Entries

namespace FsInv

variable {s t : State} {refs : Fin NINODE → Nat} {ip : Fin NINODE} {E : Halt → Prop}

/-- The disk has one inode more. -/
theorem allotted (h : FsInv s refs) {i : Nat} {type : UInt16} (ht : type ≠ 0) {d : Dev} (hd : Idle d [])
    (hok : DiskOk s.sb d.disk) (ha : Allotted s.sb s.dev.disk d.disk i type) : FsInv { s with dev := d } refs := by
  refine ⟨hd, h.counts.same fun _ => ⟨rfl, rfl, rfl, rfl⟩, hok, fun jp hjp => ?_, fun jp hjv => ?_⟩
  · obtain ⟨hdev, hused⟩ := h.live jp hjp
    exact ⟨hdev, (ha.used ht _).2 (.inl hused)⟩
  · have hused := (h.live jp (h.pos_of_valid hjv)).2
    show (s.icache jp).din = dinodeOf s.sb d.disk (s.icache jp).inum
    rw [ha.others _ fun he => ha.free (he ▸ hused), h.clean jp hjv]

theorem wp_iallocFrom {type : UInt16} (ht : type ≠ 0) (inum : Nat) (s : State) (h : FsInv s refs) (hpos : 1 ≤ inum)
    (hE₁ : E (.panic "ialloc: no inodes") ∨
      ∃ i, inum ≤ i ∧ i < s.sb.ninodes ∧ (dinodeOf s.sb s.dev.disk i).type = 0)
    (hE₂ : E (.panic "iget: no inodes") ∨ ∃ jp, refs jp = 0) {Q : Fin NINODE → State → Prop}
    (hQ : ∀ jp t i, FsInv t (hold refs jp) → Slots refs s t → (t.icache jp).inum = i →
      Allotted s.sb s.dev.disk t.dev.disk i type → Q jp t) : (iallocFrom ROOTDEV type s.sb inum).wp Q E s := by
  induction hk : s.sb.ninodes - inum using Nat.strong_induction_on generalizing inum s with
  | _ k ih =>
    unfold iallocFrom
    by_cases hlt : inum < s.sb.ninodes
    · rw [if_pos hlt]
      simp only [wp_bind, wp_lift]
      refine h.idle.wp_bread (by decide) fun b d hd hdisk => ?_
      refine hd.wp_load ?_
      rw [hdisk]
      by_cases hfree : (dinodeAt (s.dev.disk (s.sb.inodestart + inum / IPB)) (inum % IPB)).type = 0
      · rw [if_pos hfree]
        simp only [wp_bind, wp_lift]
        refine hd.wp_storeWrite fun u hu hdisk' => ?_
        refine hu.wp_brelse fun v hv hdisk'' => ?_
        rw [hdisk', hdisk] at hdisk''
        obtain ⟨hok, ha⟩ := h.disk.allot hlt hpos hfree ht
        rw [show inodeBlock s.sb inum = s.sb.inodestart + inum / IPB from rfl, ← hdisk''] at hok ha
        have hinv := h.allotted ht hv hok ha
        refine hinv.wp_iget ((ha.used ht inum).2 (.inr rfl)) (fun jp t hinv' hst hi => ?_) hE₂
        refine hQ jp t inum hinv' ⟨hst.sb, hst.inum, hst.valid⟩ hi ?_
        rw [hst.disk]
        exact ha
      · rw [if_neg hfree]
        simp only [wp_bind, wp_lift]
        refine hd.wp_brelse fun u hu hdisk' => ?_
        rw [hdisk] at hdisk'
        have hless : s.sb.ninodes - (inum + 1) < k := by omega
        have hE₁' : E (.panic "ialloc: no inodes") ∨
            ∃ i, inum + 1 ≤ i ∧ i < s.sb.ninodes ∧ (dinodeOf s.sb u.disk i).type = 0 := by
          refine hE₁.imp_right fun hex => ?_
          obtain ⟨i, hle, hi, hz⟩ := hex
          refine ⟨i, ?_, hi, by rw [hdisk']; exact hz⟩
          have hne : i ≠ inum := fun he => hfree (he ▸ hz)
          omega
        refine ih _ hless (inum + 1) { s with dev := u } (h.of_dev hu hdisk') (by omega) hE₁'
          (fun jp t i hinv hslots hi ha => ?_) rfl
        refine hQ jp t i hinv ⟨hslots.sb, hslots.inum, hslots.valid⟩ hi ?_
        rw [show ({ s with dev := u } : State).dev.disk = s.dev.disk from hdisk'] at ha
        exact ha
    · rw [if_neg hlt]
      refine hE₁.resolve_right fun hex => ?_
      obtain ⟨i, hle, hi, -⟩ := hex
      exact hlt (hle.trans_lt hi)

theorem wp_ialloc (h : FsInv s refs) {type : UInt16} (ht : type ≠ 0)
    (hE₁ : E (.panic "ialloc: no inodes") ∨ ∃ i, 1 ≤ i ∧ i < s.sb.ninodes ∧ (dinodeOf s.sb s.dev.disk i).type = 0)
    (hE₂ : E (.panic "iget: no inodes") ∨ ∃ jp, refs jp = 0) {Q : Fin NINODE → State → Prop}
    (hQ : ∀ jp t i, FsInv t (hold refs jp) → Slots refs s t → (t.icache jp).inum = i →
      Allotted s.sb s.dev.disk t.dev.disk i type → Q jp t) : (ialloc ROOTDEV type).wp Q E s := by
  unfold ialloc
  rw [wp_bind, wp_gets]
  exact wp_iallocFrom ht 1 s h (Nat.le_refl 1) hE₁ hE₂ hQ

/-! ## A new entry -/

/-- A name that is there is refused; else an entry is written into the first vacant place. -/
theorem wp_dirlink (h : FsInv s refs) (hv : (s.icache ip).valid = true) (ht : (s.icache ip).din.type = T_DIR)
    (name : Bytes) {inum : Nat} (hused : Used s.sb (dinodeOf s.sb s.dev.disk) inum)
    (hE₁ : E (.panic "iget: no inodes") ∨ ∃ jp, refs jp = 0)
    (hE₂ : E (.panic "balloc: out of blocks") ∨ 2 ≤ freeBlocks s)
    (hE₃ : E (.panic "dirlink write") ∨
      (dinodeOf s.sb s.dev.disk (s.icache ip).inum).size.toNat + DIRENT ≤ MAXBYTES) {Q : Int → State → Prop}
    (hpresent : ∀ j, lookup s.dev.disk (dinodeOf s.sb s.dev.disk (s.icache ip).inum) name = some j →
      ∀ t, FsInv t refs → Still refs s t → Q (-1) t)
    (hlinked : lookup s.dev.disk (dinodeOf s.sb s.dev.disk (s.icache ip).inum) name = none → ∀ t off,
      Vacant s.dev.disk (dinodeOf s.sb s.dev.disk (s.icache ip).inum) off → FsInv t refs → Slots refs s t →
      Spliced s.sb s.dev.disk t.dev.disk (s.icache ip).inum (mkDirent (UInt16.ofNat inum) name) off DIRENT → Q 0 t) :
    (dirlink ip name inum).wp Q E s := by
  obtain ⟨hdev, hdir⟩ := h.live ip (h.pos_of_valid hv)
  have hclean := h.clean ip hv
  have hsize : DIRENT ∣ (s.icache ip).din.size.toNat := by
    rw [hclean]
    exact (h.dirOk hv ht).size
  rw [← hclean] at hpresent hlinked hE₃
  refine Fs.wp_dirlink h.idle hdev hsize (h.mappedTo hv) name inum (fun j hl d hd hdisk => ?_)
    fun hl off hvac d hd hdisk => ?_
  · have hnamed : Used s.sb (dinodeOf s.sb s.dev.disk) j := by
      rw [hclean] at hl ht
      exact h.disk.used_of_lookup hdir ht hl
    refine (h.of_dev hd hdisk).wp_iget (by rw [hdisk]; exact hnamed) (fun jp t hinv hst _ => ?_) hE₁
    exact hinv.wp_iput fun u hu hsu => hpresent j hl u hu ((still_of_dev hdisk).trans (hst.trans hsu))
  · have hinv := h.of_dev hd hdisk
    have hoff := hvac.toNat_off
    have hlen : (UInt32.ofNat DIRENT).toNat = DIRENT := by decide
    refine hinv.wp_writei hv (fun _ D' hD' => ?_) ?_ (fun hr => ?_) fun _ v hv' hsb hsplice hslots => ?_
    · rw [hdisk, hoff, hlen] at hD'
      rw [hclean] at hvac
      exact hD'.dirOk_entry (h.dirOk hv ht) hvac.aligned hvac.le hused h.disk.structural.geo.few
    · rw [hdisk, ← hclean, hoff, hlen]
      refine hE₂.imp_right fun hfree => le_trans (blocksFor_dirent hvac.le) ?_
      unfold freeBlocks at hfree ⊢
      rw [hdisk]
      exact hfree
    · rw [if_pos (by decide)]
      refine hE₃.resolve_right fun hmax => ?_
      rw [hdisk, ← hclean] at hr
      exact hvac.not_refused (le_trans (Nat.add_le_add_right hvac.le DIRENT) hmax) hr
    · rw [hlen, if_neg (by simp)]
      rw [hdisk, hoff, hlen] at hsplice
      exact hlinked hl v off hvac hv' ((still_of_dev hdisk).slots.trans (hslots.slots hsb)) hsplice

end FsInv

end RiscvOsLab.Fs
