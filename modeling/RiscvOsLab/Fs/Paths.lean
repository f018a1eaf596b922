import RiscvOsLab.Fs.Directory

/-!
# Paths

* `components` : the names in a path, its maximal runs of bytes other than `/`, each cut to `DIRSIZ` bytes;
* `resolve`, `parentOf` : the inode the names lead to, and the directory of the last one;
* `namei_resolves` : what `namei` and `nameiparent` return.
-/

namespace RiscvOsLab.Fs

open Prog Bytes Function

/-! ## The names in a path -/

/-- The maximal runs of bytes other than `/`. -/
def runs (path : List UInt8) : List (List UInt8) := (path.splitOn slash).filter (· ≠ [])

/-- The name a run is cut to. -/
def Name.cut (e : List UInt8) : Name := nameOf fun i => e.getD i 0

def components (path : List UInt8) : List Name := (runs path).map Name.cut

theorem Name.bytes_cut {e : List UInt8} (he : 0 ∉ e) : (Name.cut e).bytes = e.take DIRSIZ := by
  refine nameFrom_getD (fun x hx h0 => he (h0 ▸ List.mem_of_mem_take hx)) (List.length_take_le _ _) fun j hj hle => ?_
  rw [Nat.zero_add]
  by_cases hlt : j < e.length
  · rw [List.getD_eq_getElem?_getD, List.getD_eq_getElem?_getD, List.getElem?_take_of_lt hj]
  · rw [List.getD_eq_default _ _ (by omega), List.getD_eq_default _ _ (by rw [List.length_take]; omega)]

section Runs
variable {path : List UInt8}

theorem runs_slash (l : List UInt8) : runs (slash :: l) = runs l := by
  unfold runs
  rw [List.splitOn_cons_eq_if_modifyHead, if_pos (beq_self_eq_true slash), List.filter_cons_of_neg (by simp)]

theorem mem_of_mem_splitOn {e l : List UInt8} {x : UInt8} (he : e ∈ l.splitOn slash) (hx : x ∈ e) : x ∈ l := by
  induction l generalizing e with
  | nil =>
      rw [List.splitOn_nil, List.mem_singleton] at he
      exact he ▸ hx
  | cons y l ih =>
      rw [List.splitOn_cons_eq_if_modifyHead] at he
      obtain ⟨hd, tl, hsplit⟩ := List.exists_cons_of_ne_nil (List.splitOn_ne_nil slash l)
      rw [hsplit] at he ih
      split at he
      · rcases List.mem_cons.1 he with rfl | he
        · exact absurd hx List.not_mem_nil
        · exact List.mem_cons_of_mem y (ih he hx)
      · rcases List.mem_cons.1 he with rfl | he
        · rcases List.mem_cons.1 hx with rfl | hx
          · exact List.mem_cons_self
          · exact List.mem_cons_of_mem y (ih List.mem_cons_self hx)
        · exact List.mem_cons_of_mem y (ih (List.mem_cons_of_mem hd he) hx)

/-- Slashes in front do not count. -/
theorem runs_dropWhile (l : List UInt8) : runs (l.dropWhile (· == slash)) = runs l := by
  induction l with
  | nil => rfl
  | cons x l ih =>
      rw [List.dropWhile_cons]
      split
      · rename_i hx
        rw [ih, eq_of_beq hx, runs_slash]
      · rfl

theorem runs_append {e l : List UInt8} (he : e ≠ []) (hno : slash ∉ e) (hl : ∀ x ∈ l.head?, x = slash) :
    runs (e ++ l) = e :: runs l := by
  cases l with
  | nil =>
      unfold runs
      rw [List.append_nil, List.splitOn_eq_singleton hno, List.filter_cons_of_pos (by simpa using he)]
      rfl
  | cons x l =>
      obtain rfl : x = slash := hl x rfl
      rw [runs_slash]
      unfold runs
      rw [List.splitOn_append_cons_self_of_not_mem hno, List.filter_cons_of_pos (by simpa using he)]

/-- The first run. -/
theorem runs_cons (h : path.dropWhile (· == slash) ≠ []) :
    runs path = (path.dropWhile (· == slash)).takeWhile (· != slash) ::
      runs (((path.dropWhile (· == slash)).dropWhile (· != slash)).dropWhile (· == slash)) := by
  rw [runs_dropWhile, ← runs_dropWhile path]
  obtain ⟨x, l, hx⟩ := List.exists_cons_of_ne_nil h
  have hhead : (x == slash) = false := by
    have hdrop := List.head_dropWhile_not (· == slash) (l := path) h
    simpa [hx] using hdrop
  conv_lhs => rw [← List.takeWhile_append_dropWhile (p := (· != slash)) (l := path.dropWhile (· == slash))]
  refine runs_append ?_ (fun hmem => ?_) fun y hy => ?_
  · rw [hx, List.takeWhile_cons_of_pos (by simpa using hhead)]
    exact List.cons_ne_nil _ _
  · have hne := List.all_eq_true.1 List.all_takeWhile _ hmem
    simp at hne
  · have hnot := List.head?_dropWhile_not (· != slash) (path.dropWhile (· == slash))
    rw [Option.mem_def.1 hy] at hnot
    simpa using hnot

/-- A path that starts with no slash is empty if it has no run. -/
theorem runs_eq_nil {l : List UInt8} (h : runs (l.dropWhile (· == slash)) = []) : l.dropWhile (· == slash) = [] := by
  by_contra hne
  rw [runs_dropWhile, runs_cons hne] at h
  exact List.cons_ne_nil _ _ h

/-! ## The buffer of `skipelem` -/

theorem components_of_skipelem_none {name : Bytes} (h : skipelem path name = none) : components path = [] := by
  unfold skipelem at h
  simp only at h
  split at h
  · rename_i hnil
    unfold components
    rw [← runs_dropWhile, hnil]
    rfl
  · exact absurd h (by simp)

/-- `skipelem` takes the first name off the path. -/
theorem components_of_skipelem {name name' : Bytes} {rest : List UInt8} (h : skipelem path name = some (rest, name')) :
    components path = nameOf name' :: components rest ∧ (rest = [] ↔ components rest = []) := by
  unfold skipelem at h
  simp only at h
  split at h
  · exact absurd h (by simp)
  · rename_i hne
    obtain ⟨rfl, rfl⟩ := Prod.mk.inj (Option.some.inj h)
    constructor
    · unfold components
      rw [runs_cons hne, List.map_cons]
      congr 1
      apply Name.ext
      refine (nameFrom_congr fun j hj hpre => ?_).symm
      simp only [Nat.zero_add] at hpre ⊢
      generalize (path.dropWhile (· == slash)).takeWhile (· != slash) = e at hpre
      by_cases hlong : DIRSIZ ≤ e.length
      · rw [if_pos hlong, blit_in (Nat.zero_le _) (by omega), Nat.sub_zero]
      · -- the short name is followed by a NUL, behind which nothing counts
        rw [if_neg hlong]
        rcases Nat.lt_trichotomy j e.length with hlt | rfl | hgt
        · rw [update_of_ne (by omega), blit_in (Nat.zero_le _) (by omega), Nat.sub_zero]
        · rw [update_self, List.getD_eq_default _ _ (Nat.le_refl _)]
        · exact absurd (List.getD_eq_default _ _ (Nat.le_refl _)) (hpre e.length hgt)
    · constructor
      · intro hnil
        rw [hnil]
        rfl
      · intro hnil
        exact runs_eq_nil (List.map_eq_nil_iff.1 hnil)

end Runs

/-! ## Where the names lead -/

/-- One name is looked up, in a directory. -/
def enter (sb : Superblock) (D : Nat → Block) (i : Nat) (c : Name) : Option Nat :=
  if (dinodeOf sb D i).type = T_DIR then dirMap D (dinodeOf sb D i) c else none

/-- The inode reached from `i` by looking up the names in turn. -/
def resolve (sb : Superblock) (D : Nat → Block) (i : Nat) (cs : List Name) : Option Nat := cs.foldlM (enter sb D) i

/-- The directory, from `i`, in which the last name would be looked up. -/
def parentOf (sb : Superblock) (D : Nat → Block) (i : Nat) (cs : List Name) : Option Nat :=
  if cs = [] then none else (resolve sb D i cs.dropLast).filter fun j => (dinodeOf sb D j).type = T_DIR

section Resolve
variable {sb : Superblock} {D : Nat → Block} {i : Nat} {cs : List Name} {c : Name}

@[simp] theorem resolve_nil : resolve sb D i [] = some i := rfl

theorem resolve_cons : resolve sb D i (c :: cs) = (enter sb D i c).bind fun j => resolve sb D j cs := rfl

/-- A name that does not resolve is looked up in no directory, or has no entry there. -/
theorem resolve_eq_none_iff : resolve sb D i cs = none ↔ ∃ pre c post j, cs = pre ++ c :: post ∧
    resolve sb D i pre = some j ∧ ((dinodeOf sb D j).type ≠ T_DIR ∨ dirMap D (dinodeOf sb D j) c = none) := by
  have henter (j : Nat) (c : Name) : enter sb D j c = none ↔
      (dinodeOf sb D j).type ≠ T_DIR ∨ dirMap D (dinodeOf sb D j) c = none := by
    unfold enter
    by_cases ht : (dinodeOf sb D j).type = T_DIR <;> simp [ht]
  induction cs generalizing i with
  | nil => simp
  | cons c cs ih =>
      rw [resolve_cons]
      constructor
      · intro h
        cases hc : enter sb D i c with
        | none => exact ⟨[], c, cs, i, rfl, rfl, (henter i c).1 hc⟩
        | some j =>
            rw [hc, Option.bind_some] at h
            obtain ⟨pre, d, post, k, rfl, hk, hd⟩ := ih.1 h
            refine ⟨c :: pre, d, post, k, rfl, ?_, hd⟩
            rw [resolve_cons, hc, Option.bind_some, hk]
      · rintro ⟨pre, d, post, k, hcs, hk, hd⟩
        cases pre with
        | nil =>
            obtain ⟨rfl, rfl⟩ := List.cons.inj hcs
            obtain rfl := Option.some.inj hk
            rw [(henter i c).2 hd, Option.bind_none]
        | cons c' pre =>
            obtain ⟨rfl, rfl⟩ := List.cons.inj hcs
            rw [resolve_cons] at hk
            cases hc : enter sb D i c with
            | none => rw [Option.bind_none]
            | some j =>
                rw [hc, Option.bind_some] at hk
                rw [Option.bind_some]
                exact ih.2 ⟨pre, d, post, k, rfl, hk, hd⟩

/-- The walk of `namei`. -/
theorem walkFrom_eq_resolve {path : List UInt8} {name : Bytes} :
    (walkFrom sb D false i path name).1 = resolve sb D i (components path) := by
  induction hk : path.length using Nat.strong_induction_on generalizing path name i with
  | _ k ih =>
    cases hskip : skipelem path name with
    | none =>
        rw [walkFrom_nil hskip, components_of_skipelem_none hskip]
        rfl
    | some r =>
        obtain ⟨rest, name'⟩ := r
        rw [walkFrom_cons hskip, (components_of_skipelem hskip).1, resolve_cons]
        unfold enter
        by_cases htype : (dinodeOf sb D i).type = T_DIR
        · rw [if_neg (not_not.2 htype), if_neg (by simp), if_pos htype, lookup_eq_dirMap]
          cases hl : dirMap D (dinodeOf sb D i) (nameOf name') with
          | none => rfl
          | some next => exact ih _ (hk ▸ skipelem_length hskip) rfl
        · rw [if_pos htype, if_neg htype]
          rfl

/-- The walk of `nameiparent`. -/
theorem walkFrom_eq_parent {path : List UInt8} {name : Bytes} :
    (walkFrom sb D true i path name).1 = parentOf sb D i (components path) ∧
    ((walkFrom sb D true i path name).1 ≠ none →
      some (nameOf (walkFrom sb D true i path name).2) = (components path).getLast?) := by
  unfold parentOf
  induction hk : path.length using Nat.strong_induction_on generalizing path name i with
  | _ k ih =>
    cases hskip : skipelem path name with
    | none =>
        rw [walkFrom_nil hskip, components_of_skipelem_none hskip]
        exact ⟨rfl, fun h => absurd rfl h⟩
    | some r =>
        obtain ⟨rest, name'⟩ := r
        obtain ⟨hcons, hrest⟩ := components_of_skipelem hskip
        rw [walkFrom_cons hskip, hcons, if_neg (List.cons_ne_nil _ _)]
        by_cases hlast : rest = []
        · -- the last name is not looked up
          rw [hrest.1 hlast]
          by_cases htype : (dinodeOf sb D i).type = T_DIR
          · simp [Option.filter_some, htype, hlast]
          · simp [Option.filter_some, htype]
        · have hne : components rest ≠ [] := fun h => hlast (hrest.2 h)
          rw [List.dropLast_cons_of_ne_nil hne, resolve_cons, List.getLast?_cons_of_ne_nil hne]
          unfold enter
          by_cases htype : (dinodeOf sb D i).type = T_DIR
          · rw [if_neg (not_not.2 htype), if_neg (fun h => hlast h.2), if_pos htype, lookup_eq_dirMap]
            cases hl : dirMap D (dinodeOf sb D i) (nameOf name') with
            | none => exact ⟨rfl, fun h => absurd rfl h⟩
            | some next =>
                have hwalk : (walkFrom sb D true next rest name').1 = _ ∧ _ := ih _ (hk ▸ skipelem_length hskip) rfl
                obtain ⟨hdir, hname⟩ := hwalk
                rw [if_neg hne] at hdir
                exact ⟨hdir, hname⟩
          · rw [if_pos htype, if_neg htype]
            exact ⟨rfl, fun h => absurd rfl h⟩

end Resolve

/-- The slot returned holds inode `i` and has one reference more; the disk and the other counts are as they were. -/
def Yields (s : State) (refs : Fin NINODE → Nat) (r : Option (Fin NINODE)) (t : State) (i : Option Nat) : Prop :=
  t.dev.disk = s.dev.disk ∧ match i with
    | none => r = none ∧ FsInv t refs
    | some i => ∃ ip, r = some ip ∧ (t.icache ip).dev = ROOTDEV ∧ (t.icache ip).inum = i ∧ FsInv t (hold refs ip)

/-- `namex` without a panic, from a cache with two free slots. -/
theorem wp_namex_yields {s : State} {refs : Fin NINODE → Nat} (h : FsInv s refs)
    (hfree : ∃ a b, a ≠ b ∧ refs a = 0 ∧ refs b = 0) (parent : Bool) (path : List UInt8) (name : Bytes) :
    (namex path parent name).wp (fun r t => Yields s refs r.1 t (walk s.sb s.dev.disk parent path name).1 ∧
      r.2 = (walk s.sb s.dev.disk parent path name).2) (fun _ => False) s := by
  refine h.wp_namex parent path name (.inr hfree) (fun name' hw t ht hst => ?_) fun i name' hw ip t ht hst hi => ?_
  · rw [hw]
    exact ⟨⟨hst.disk, rfl, ht⟩, rfl⟩
  · rw [hw]
    exact ⟨⟨hst.disk, ip, rfl, (ht.live ip (hold_pos refs ip)).1, hi, ht⟩, rfl⟩

/-- Path resolution is exact. -/
theorem namei_resolves (s : State) (refs : Fin NINODE → Nat) (h : FsInv s refs)
    (hfree : ∃ a b, a ≠ b ∧ refs a = 0 ∧ refs b = 0) (path : List UInt8) (hpath : 0 ∉ path) :
    (components path).map Name.bytes = (runs path).map (List.take DIRSIZ) ∧
    (∃ r t, (namei path).run s = .ok (r, t) ∧
      Yields s refs r t (resolve s.sb s.dev.disk ROOTINO (components path)) ∧
      (r = none ↔ ∃ pre c post j, components path = pre ++ c :: post ∧ resolve s.sb s.dev.disk ROOTINO pre = some j ∧
        ((dinodeOf s.sb s.dev.disk j).type ≠ T_DIR ∨ dirMap s.dev.disk (dinodeOf s.sb s.dev.disk j) c = none))) ∧
    ∀ name, ∃ r name' t, (nameiparent path name).run s = .ok ((r, name'), t) ∧
      Yields s refs r t (parentOf s.sb s.dev.disk ROOTINO (components path)) ∧
      (r ≠ none → some (nameOf name') = (components path).getLast?) := by
  have hnone {r : Option (Fin NINODE)} {t : State} {i : Option Nat} (hy : Yields s refs r t i) :
      r = none ↔ i = none := by
    cases i with
    | none => exact iff_of_true hy.2.1 rfl
    | some i =>
        obtain ⟨-, ip, rfl, -⟩ := hy
        exact iff_of_false (by simp) (by simp)
  refine ⟨?_, ?_, fun name => ?_⟩
  · unfold components
    rw [List.map_map]
    refine List.map_congr_left fun e he => Name.bytes_cut fun h0 => hpath ?_
    exact mem_of_mem_splitOn (List.mem_of_mem_filter he) h0
  · obtain ⟨⟨r, name'⟩, t, hrun, hy, -⟩ := wp_total (wp_namex_yields h hfree false path fun _ => 0)
    unfold walk at hy
    rw [walkFrom_eq_resolve] at hy
    refine ⟨r, t, ?_, hy, ?_⟩
    · unfold namei
      rw [run_bind, hrun]
      rfl
    · rw [hnone hy, resolve_eq_none_iff]
  · obtain ⟨⟨r, name'⟩, t, hrun, hy, hname⟩ := wp_total (wp_namex_yields h hfree true path name)
    have hwalk : (walkFrom s.sb s.dev.disk true ROOTINO path name).1 = _ ∧ _ := walkFrom_eq_parent
    obtain ⟨hdir, hlast⟩ := hwalk
    have hnone' := hnone hy
    unfold walk at hy hname hnone'
    rw [← hname] at hlast
    rw [hdir] at hy
    exact ⟨r, name', t, hrun, hy, fun hr => hlast fun h0 => hr (hnone'.2 h0)⟩

/-- `//.//` in the default image. -/
theorem namei_resolves_dot : ∃ s, FsInv s (fun _ => 0) ∧ ∃ ip t, (namei [0x2f, 0x2f, 0x2e, 0x2f, 0x2f]).run s =
    .ok (some ip, t) ∧ (t.icache ip).inum = ROOTINO ∧ FsInv t (hold (fun _ => 0) ip) := by
  obtain ⟨img, hm, -⟩ := Mkfs.makes 1000 (by unfold Mkfs.NoImage Mkfs.nmeta; decide)
  obtain ⟨s, hs⟩ := hm.mountStart
  have hinv := hm.fsInv hs
  obtain ⟨-, hdisk, hsb, -⟩ := hm.mounted hs
  have hroot : dinodeOf s.sb s.dev.disk ROOTINO = Mkfs.rootDinode (Mkfs.nmeta 1000) 32 := by
    rw [hsb, hdisk]
    exact hm.image.1.root
  have hfree : ∃ a b : Fin NINODE, a ≠ b ∧ (0 : Nat) = 0 ∧ (0 : Nat) = 0 :=
    ⟨⟨0, by decide⟩, ⟨1, by decide⟩, by decide, rfl, rfl⟩
  obtain ⟨-, ⟨r, t, hrun, hy, -⟩, -⟩ :=
    namei_resolves s (fun _ => 0) hinv hfree [0x2f, 0x2f, 0x2e, 0x2f, 0x2f] (by decide)
  have hcomponents : components [0x2f, 0x2f, 0x2e, 0x2f, 0x2f] = [Name.cut [0x2e]] := by decide
  have hdot : resolve s.sb s.dev.disk ROOTINO [Name.cut [0x2e]] = some ROOTINO := by
    rw [resolve_cons]
    unfold enter Name.cut
    rw [hroot, if_pos (by rfl), ← lookup_eq_dirMap, hdisk]
    rw [Mkfs.lookup_dots hm.image.1 (by decide) (.inl fun i _ => rfl)]
    rfl
  rw [hcomponents, hdot] at hy
  obtain ⟨-, ip, rfl, -, hinum, ht⟩ := hy
  exact ⟨s, hinv, ip, t, hrun, hinum, ht⟩

end RiscvOsLab.Fs
