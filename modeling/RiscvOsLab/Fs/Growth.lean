import RiscvOsLab.Fs.CutTree
import RiscvOsLab.Fs.Paths

/-!
# What a disk keeps

* `Grows` : nothing of one disk is lost in another: inodes keep their types, files do not shrink, and what a directory
  names it still names;
* `WriteCut.grows`, `WriteCut.grows_entry`, `Allotted.grows` : so it is after each write, a whole one or one cut off;
* `Grows.resolve` : a path still leads where it led;
* `SameInode` : an inode and its bytes are the same on two disks; `WriteCut.sameInode` : so they are after a write to
  another one.
-/

namespace RiscvOsLab.Fs

open Prog Bytes Function

/-! ## The first entry of a name -/

section First
variable {D D' : Nat → Block} {din din' : Dinode} {name : Bytes} {n : Name} {i : Nat}

/-- The search finds the first entry of the name. -/
theorem lookupFrom_eq_some_iff {off : Nat} (hoff : DIRENT ∣ off) : lookupFrom D din name off = some i ↔
    ∃ o, off ≤ o ∧ Entry D din o (nameOf name) i ∧ ∀ o' j, off ≤ o' → o' < o → ¬ Entry D din o' (nameOf name) j := by
  induction hk : din.size.toNat - off using Nat.strong_induction_on generalizing off with
  | _ k ih =>
    rw [lookupFrom]
    by_cases hlt : off < din.size.toNat
    · have hless : din.size.toNat - (off + DIRENT) < k := by
        unfold DIRENT
        omega
      have hnext := ih _ hless (Nat.dvd_add hoff (Nat.dvd_refl _)) rfl
      -- where `off` is no entry of the name, nothing is lost by starting behind it
      have hskip (hno : ∀ j, ¬ Entry D din off (nameOf name) j) : lookupFrom D din name (off + DIRENT) = some i ↔
          ∃ o, off ≤ o ∧ Entry D din o (nameOf name) i ∧
            ∀ o' j, off ≤ o' → o' < o → ¬ Entry D din o' (nameOf name) j := by
        have hbehind {o j : Nat} (hle : off ≤ o) (he : Entry D din o (nameOf name) j) : off + DIRENT ≤ o := by
          have hne : o ≠ off := fun heq => hno j (heq ▸ he)
          obtain ⟨a, rfl⟩ := hoff
          obtain ⟨b, rfl⟩ := he.aligned
          unfold DIRENT at *
          omega
        rw [hnext]
        constructor
        · rintro ⟨o, hle, he, hfirst⟩
          exact ⟨o, by omega, he, fun o' j hle' hlt' he' => hfirst o' j (hbehind hle' he') hlt' he'⟩
        · rintro ⟨o, hle, he, hfirst⟩
          exact ⟨o, hbehind hle he, he, fun o' j hle' hlt' => hfirst o' j (by omega) hlt'⟩
      rw [if_pos hlt]
      by_cases hlive : deInum (direntAt D din off) = 0
      · rw [if_pos hlive]
        exact hskip fun j he => he.live hlive
      · rw [if_neg hlive]
        by_cases hmatch : nameMatch (deName (direntAt D din off)) name DIRSIZ 0 = true
        · rw [if_pos hmatch]
          have hhere : Entry D din off (nameOf name) (deInum (direntAt D din off)).toNat :=
            ⟨hoff, hlt, hlive, (nameMatch_iff _ _).1 hmatch, rfl⟩
          constructor
          · intro he
            rw [Option.some.inj he] at hhere
            exact ⟨off, Nat.le_refl _, hhere, fun o' j hle hlt' => absurd hlt' (by omega)⟩
          · rintro ⟨o, hle, he, hfirst⟩
            rcases Nat.eq_or_lt_of_le hle with rfl | hlt'
            · rw [he.inum]
            · exact absurd hhere (hfirst off _ (Nat.le_refl _) hlt')
        · rw [if_neg hmatch]
          exact hskip fun j he => hmatch ((nameMatch_iff _ _).2 he.name)
    · rw [if_neg hlt]
      refine iff_of_false (by simp) ?_
      rintro ⟨o, hle, he, -⟩
      exact hlt (hle.trans_lt he.lt)

/-- The entries of a name are all that matters to it. -/
theorem dirMap_congr (h : ∀ o j, Entry D' din' o n j ↔ Entry D din o n j) : dirMap D' din' n = dirMap D din n := by
  apply Option.ext
  intro i
  unfold dirMap lookup
  rw [lookupFrom_eq_some_iff (Nat.dvd_zero _), lookupFrom_eq_some_iff (Nat.dvd_zero _)]
  simp only [nameOf_buffer, h]

theorem entry_congr (hsize : din'.size = din.size)
    (h : ∀ o, DIRENT ∣ o → o < din.size.toNat → direntAt D' din' o = direntAt D din o) {o : Nat} :
    Entry D' din' o n i ↔ Entry D din o n i := by
  constructor
  · rintro ⟨ho, hlt, hlive, hname, hinum⟩
    rw [hsize] at hlt
    rw [h o ho hlt] at hlive hname hinum
    exact ⟨ho, hlt, hlive, hname, hinum⟩
  · rintro ⟨ho, hlt, hlive, hname, hinum⟩
    rw [← h o ho hlt] at hlive hname hinum
    exact ⟨ho, by rwa [hsize], hlive, hname, hinum⟩

end First

/-! ## Growth -/

/-- Nothing of `D` is lost in `D'`. -/
structure Grows (sb : Superblock) (D D' : Nat → Block) : Prop where
  type : ∀ k, Used sb (dinodeOf sb D) k → (dinodeOf sb D' k).type = (dinodeOf sb D k).type
  size : ∀ k, Used sb (dinodeOf sb D) k → (dinodeOf sb D k).size.toNat ≤ (dinodeOf sb D' k).size.toNat
  names : ∀ k, Used sb (dinodeOf sb D) k → (dinodeOf sb D k).type = T_DIR → ∀ n i,
    dirMap D (dinodeOf sb D k) n = some i → dirMap D' (dinodeOf sb D' k) n = some i

/-- Every directory is made of entries. -/
def Dirs (sb : Superblock) (D : Nat → Block) : Prop :=
  ∀ k, Used sb (dinodeOf sb D) k → (dinodeOf sb D k).type = T_DIR → DirOk sb D k

section Growth
variable {sb : Superblock} {D D' D'' : Nat → Block} {i off n : Nat} {src : Bytes}

namespace Grows

theorem refl (sb : Superblock) (D : Nat → Block) : Grows sb D D :=
  ⟨fun _ _ => rfl, fun _ _ => Nat.le_refl _, fun _ _ _ _ _ hn => hn⟩

theorem used (h : Grows sb D D') {k : Nat} (hk : Used sb (dinodeOf sb D) k) : Used sb (dinodeOf sb D') k :=
  ⟨hk.1, by rw [h.type k hk]; exact hk.2⟩

theorem trans (h : Grows sb D D') (h' : Grows sb D' D'') : Grows sb D D'' where
  type k hk := (h'.type k (h.used hk)).trans (h.type k hk)
  size k hk := (h.size k hk).trans (h'.size k (h.used hk))
  names k hk hd n i hn := h'.names k (h.used hk) ((h.type k hk).trans hd) n i (h.names k hk hd n i hn)

end Grows

/-- A write of which no directory sees anything. -/
theorem Torn.grows (h : Torn sb D D' i src off n) (hdirs : Dirs sb D)
    (hsame : (dinodeOf sb D i).type = T_DIR → n = 0 ∨ (dinodeOf sb D i).size.toNat ≤ off) : Grows sb D D' where
  type k hk := by rw [h.dinodes k hk.1]
  size k hk := by rw [h.dinodes k hk.1]
  names k hk hd m j hm := by
    rw [← hm]
    refine dirMap_congr fun o l => entry_congr (by rw [h.dinodes k hk.1]) fun o ho hlt => ?_
    exact h.direntAt_old hk (fun he => hsame (he ▸ hd)) (dirent_end (hdirs k hk hd).size ho hlt)

theorem Spliced.grows (h : Spliced sb D D' i src off n) (hdirs : Dirs sb D)
    (hnames : (dinodeOf sb D i).type = T_DIR → ∀ m j, dirMap D (dinodeOf sb D i) m = some j →
      dirMap D' (dinodeOf sb D' i) m = some j) : Grows sb D D' where
  type k hk := h.type hk.1
  size k hk := h.size_le hk.1
  names k hk hd m j hm := by
    by_cases hki : k = i
    · rw [hki] at hd hm ⊢
      exact hnames hd m j hm
    · rw [← hm]
      refine dirMap_congr fun o l => entry_congr (by rw [h.others k hk.1 hki]) fun o ho hlt => ?_
      exact h.direntAt_other hk hki (dirent_end (hdirs k hk hd).size ho hlt)

namespace WriteCut

/-- A write to a file. -/
theorem grows (h : WriteCut sb D D' i src off n) (hdirs : Dirs sb D) (hfile : (dinodeOf sb D i).type ≠ T_DIR) :
    Grows sb D D' := by
  cases h with
  | torn m hm hat h => exact h.grows hdirs fun hd => absurd hd hfile
  | whole h => exact h.grows hdirs fun hd => absurd hd hfile

/-- An entry of a new name. -/
theorem grows_entry {inum : Nat} {name : Bytes}
    (h : WriteCut sb D D' i (mkDirent (UInt16.ofNat inum) name) off DIRENT) (hdirs : Dirs sb D)
    (hi : Used sb (dinodeOf sb D) i) (hd : (dinodeOf sb D i).type = T_DIR) (hvac : Vacant D (dinodeOf sb D i) off)
    (hpos : 1 ≤ inum) (hlt : inum < 2 ^ 16) (hnone : lookup D (dinodeOf sb D i) name = none) : Grows sb D D' := by
  have hsize := (hdirs i hi hd).size
  rcases h.entry hi hsize hvac.aligned hvac.le with h | ⟨m, h, hm⟩
  · refine h.grows hdirs fun _ k j hk => ?_
    -- the name of the new entry was not in the directory
    have hne : k ≠ nameOf name := by
      rintro rfl
      rw [lookup_eq_dirMap, hk] at hnone
      exact absurd hnone (by simp)
    rw [← hk]
    refine dirMap_congr fun o l => ?_
    rw [h.entry_iff hsize hvac hpos hlt]
    exact or_iff_right fun he => hne he.2.1
  · exact h.grows hdirs fun _ => hm

end WriteCut

namespace Allotted

variable {type : UInt16}

theorem grows (h : Allotted sb D D' i type) (hdirs : Dirs sb D) : Grows sb D D' where
  type k hk := by rw [h.inode_old hk]
  size k hk := by rw [h.inode_old hk]
  names k hk hd m j hm := by
    rw [← hm]
    refine dirMap_congr fun o l => entry_congr (by rw [h.inode_old hk]) fun o ho hlt => ?_
    exact h.direntAt_old hk (dirent_end (hdirs k hk hd).size ho hlt)

theorem dirs (h : Allotted sb D D' i type) (ht : type ≠ 0) (hfile : type ≠ T_DIR) (hdirs : Dirs sb D) : Dirs sb D' := by
  intro k hk hd
  rcases (h.used ht k).1 hk with hk | rfl
  · rw [h.inode_old hk] at hd
    exact h.dirOk ht hk (hdirs k hk hd)
  · rw [h.inode] at hd
    exact absurd hd hfile

end Allotted

/-- The entry of a new name is the one that is found. -/
theorem Spliced.dirMap_new {inum : Nat} {name : Bytes}
    (h : Spliced sb D D' i (mkDirent (UInt16.ofNat inum) name) off DIRENT)
    (hsize : DIRENT ∣ (dinodeOf sb D i).size.toNat) (hvac : Vacant D (dinodeOf sb D i) off) (hpos : 1 ≤ inum)
    (hlt : inum < 2 ^ 16) (hnone : lookup D (dinodeOf sb D i) name = none) :
    dirMap D' (dinodeOf sb D' i) (nameOf name) = some inum := by
  have hentry {o j : Nat} := h.entry_iff hsize hvac hpos hlt (o := o) (n := nameOf name) (j := j)
  rw [lookup_eq_none_iff] at hnone
  unfold dirMap lookup
  rw [lookupFrom_eq_some_iff (Nat.dvd_zero _), nameOf_buffer]
  refine ⟨off, Nat.zero_le _, hentry.2 (.inl ⟨rfl, rfl, rfl⟩), fun o j _ hlt he => ?_⟩
  rcases hentry.1 he with ⟨rfl, -⟩ | he
  · exact absurd hlt (Nat.lt_irrefl _)
  · exact hnone o j he

/-- What has been written is read back. -/
theorem Spliced.readAt {off n : UInt32} (h : Spliced sb D D' i src off.toNat n.toNat)
    (hlt : off.toNat + n.toNat < 2 ^ 32) :
    readAt D' (dinodeOf sb D' i) off n = ((n.toNat : Int), (List.range n.toNat).map src) := by
  have hsize := h.size
  have hin : ¬ (off > (dinodeOf sb D' i).size ∨ off + n < off) := by
    rw [u32_add_lt_iff, gt_iff_lt, UInt32.lt_iff_toNat_lt, hsize]
    omega
  have hlen : readLen (dinodeOf sb D' i) off n = n.toNat := by
    unfold readLen
    rw [hsize]
    omega
  unfold Fs.readAt
  rw [if_neg hin, hlen]
  refine congrArg (Prod.mk (n.toNat : Int)) (List.map_congr_left fun o ho => ?_)
  rw [List.mem_range] at ho
  rw [h.bytes _ (by omega), if_pos (by omega), Nat.add_sub_cancel_left]

/-! ## The inodes that are not written -/

/-- Inode `i` and its bytes are the same in `D'` as in `D`. -/
structure SameInode (sb : Superblock) (D D' : Nat → Block) (i : Nat) : Prop where
  inode : dinodeOf sb D' i = dinodeOf sb D i
  bytes : ∀ o < (dinodeOf sb D i).size.toNat, contents D' (dinodeOf sb D i) o = contents D (dinodeOf sb D i) o

namespace SameInode

theorem refl (sb : Superblock) (D : Nat → Block) (i : Nat) : SameInode sb D D i := ⟨rfl, fun _ _ => rfl⟩

theorem trans (h : SameInode sb D D' i) (h' : SameInode sb D' D'' i) : SameInode sb D D'' i := by
  refine ⟨h'.inode.trans h.inode, fun o ho => ?_⟩
  have hbytes := h'.bytes o
  rw [h.inode] at hbytes
  exact (hbytes ho).trans (h.bytes o ho)

/-- What is read of it. -/
theorem readAt (h : SameInode sb D D' i) (off n : UInt32) :
    readAt D' (dinodeOf sb D i) off n = readAt D (dinodeOf sb D i) off n := by
  have hbytes : bytesFrom D' (dinodeOf sb D i) off.toNat (readLen (dinodeOf sb D i) off n) =
      bytesFrom D (dinodeOf sb D i) off.toNat (readLen (dinodeOf sb D i) off n) := by
    refine List.map_congr_left fun o ho => h.bytes _ ?_
    rw [List.mem_range] at ho
    unfold readLen at ho
    omega
  unfold Fs.readAt
  rw [hbytes]

end SameInode

theorem WriteCut.sameInode (h : WriteCut sb D D' i src off n) {k : Nat} (hk : Used sb (dinodeOf sb D) k)
    (hki : k ≠ i) : SameInode sb D D' k := by
  cases h with
  | torn m hm hat h =>
      refine ⟨h.dinodes k hk.1, fun o ho => ?_⟩
      rw [h.bytes k hk o ho, if_neg fun hin => hki hin.1]
  | whole h => exact ⟨h.others k hk.1 hki, h.frame k hk hki⟩

theorem Allotted.sameInode {type : UInt16} (h : Allotted sb D D' i type) {k : Nat} (hk : Used sb (dinodeOf sb D) k) :
    SameInode sb D D' k := ⟨h.inode_old hk, h.frame k hk⟩

/-! ## Paths -/

variable {j : Nat} {c : Name} {cs : List Name}

theorem enter_eq_some_iff : enter sb D i c = some j ↔
    (dinodeOf sb D i).type = T_DIR ∧ dirMap D (dinodeOf sb D i) c = some j := by
  unfold enter
  by_cases hd : (dinodeOf sb D i).type = T_DIR <;> simp [hd]

theorem Recoverable.used_of_enter (h : Recoverable sb D) (hi : Used sb (dinodeOf sb D) i)
    (he : enter sb D i c = some j) : Used sb (dinodeOf sb D) j := by
  obtain ⟨hd, hl⟩ := enter_eq_some_iff.1 he
  exact h.used_of_lookup hi hd hl

theorem Recoverable.used_of_resolve (h : Recoverable sb D) (hi : Used sb (dinodeOf sb D) i)
    (hr : resolve sb D i cs = some j) : Used sb (dinodeOf sb D) j := by
  induction cs generalizing i with
  | nil =>
      obtain rfl := Option.some.inj hr
      exact hi
  | cons c cs ih =>
      rw [resolve_cons, Option.bind_eq_some_iff] at hr
      obtain ⟨k, hk, hr⟩ := hr
      exact ih (h.used_of_enter hi hk) hr

theorem resolve_concat : resolve sb D i (cs ++ [c]) = (resolve sb D i cs).bind fun k => enter sb D k c := by
  unfold resolve
  rw [List.foldlM_append]
  simp

/-- The directory in which a new name is put. -/
theorem Recoverable.used_of_parentOf (h : Recoverable sb D) (hp : parentOf sb D ROOTINO cs = some j) :
    Used sb (dinodeOf sb D) j ∧ (dinodeOf sb D j).type = T_DIR := by
  unfold parentOf at hp
  split at hp
  · exact absurd hp (by simp)
  · obtain ⟨hr, hd⟩ := Option.filter_eq_some_iff.1 hp
    exact ⟨h.used_of_resolve h.root hr, of_decide_eq_true hd⟩

theorem Grows.resolve (h : Grows sb D D') (hD : Recoverable sb D) (hi : Used sb (dinodeOf sb D) i)
    (hr : Fs.resolve sb D i cs = some j) : Fs.resolve sb D' i cs = some j := by
  induction cs generalizing i with
  | nil => exact hr
  | cons c cs ih =>
      rw [resolve_cons, Option.bind_eq_some_iff] at hr ⊢
      obtain ⟨k, hk, hr⟩ := hr
      have hused := hD.used_of_enter hi hk
      obtain ⟨hd, hmap⟩ := enter_eq_some_iff.1 hk
      have hd' := (h.type i hi).trans hd
      exact ⟨k, enter_eq_some_iff.2 ⟨hd', h.names i hi hd c k hmap⟩, ih hused hr⟩

end Growth

/-- What `namei` returns. -/
theorem Safe.namei_eq {s t : State} {refs : Fin NINODE → Nat} {path : List UInt8} {r : Option (Fin NINODE)}
    (h : Safe s refs) (hrun : (namei path).run s = .ok (r, t)) :
    resolve s.sb s.dev.disk ROOTINO (components path) = r.map fun ip => (t.icache ip).inum := by
  have hwalk (name : Bytes) : (walk s.sb s.dev.disk false path name).1 = _ := walkFrom_eq_resolve
  rw [← hwalk fun _ => 0]
  have hwp : (namei path).wpc (fun r t => (walk s.sb s.dev.disk false path fun _ => 0).1 =
      r.map fun ip => (t.icache ip).inum) (fun _ => True) s := by
    unfold namei
    rw [wpc_bind]
    refine h.wpc_namex false path _ (C := fun _ => True) trivial (fun name hw u _ _ => ?_)
      fun inum name hw ip u _ _ hinum => ?_ <;> rw [hw, wpc_pure]
    · exact ⟨rfl, trivial⟩
    · exact ⟨congrArg some hinum.symm, trivial⟩
  exact wp_ok hwp.1 hrun

end RiscvOsLab.Fs
