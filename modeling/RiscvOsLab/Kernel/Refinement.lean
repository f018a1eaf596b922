import RiscvOsLab.Kernel.Links
import RiscvOsLab.Lib.Descriptions

/-!
# Descriptors refine open descriptions

`view s` is the abstract state behind a state of the kernel: the bytes of the inodes in use, and for every descriptor
the inode, the offset and the mode of its entry of the file table. Every completed call is a call of the abstract model
with the same result (`call_step`), in every run (`descriptors_refine`). Behind it is that no two descriptors share an
entry, and that offsets stay inside their files (`Owned`).
-/

namespace RiscvOsLab.Kernel

open Prog Function Bytes
open RiscvOsLab.Fs
open RiscvOsLab.Descriptions (Desc Op Target Leads splice)

/-! ## Files -/

def fileBytes (D : Nat → Block) (din : Dinode) : List UInt8 := bytesFrom D din 0 din.size.toNat

instance (sb : Superblock) (T : Nat → Dinode) (i : Nat) : Decidable (Used sb T i) := inferInstanceAs (Decidable (_ ∧ _))

/-- The bytes of the inodes in use. -/
def filesOn (sb : Superblock) (D : Nat → Block) (i : Nat) : Option (List UInt8) :=
  if Used sb (dinodeOf sb D) i then some (fileBytes D (dinodeOf sb D i)) else none

section Files
variable {sb : Superblock} {D D' : Nat → Block} {i : Nat}

theorem length_fileBytes (D : Nat → Block) (din : Dinode) : (fileBytes D din).length = din.size.toNat := by
  unfold fileBytes bytesFrom
  rw [List.length_map, List.length_range]

theorem getElem?_fileBytes (D : Nat → Block) (din : Dinode) (o : Nat) :
    (fileBytes D din)[o]? = if o < din.size.toNat then some (contents D din o) else none := by
  unfold fileBytes bytesFrom
  rw [List.getElem?_map]
  split
  · rename_i h
    rw [List.getElem?_range h, Option.map_some, Nat.zero_add]
  · rename_i h
    rw [List.getElem?_eq_none (by rw [List.length_range]; omega), Option.map_none]

theorem filesOn_used (h : Used sb (dinodeOf sb D) i) : filesOn sb D i = some (fileBytes D (dinodeOf sb D i)) := if_pos h

/-- What a read delivers. -/
theorem readAt_eq {din : Dinode} {off n : UInt32} (hoff : off.toNat ≤ din.size.toNat)
    (hn : off.toNat + n.toNat < 2 ^ 32) :
    readAt D din off n = (((((fileBytes D din).drop off.toNat).take n.toNat).length : Int),
      ((fileBytes D din).drop off.toNat).take n.toNat) := by
  have hin : ¬ (off > din.size ∨ off + n < off) := by
    rw [u32_add_lt_iff, gt_iff_lt, UInt32.lt_iff_toNat_lt]
    omega
  have hout : bytesFrom D din off.toNat (readLen din off n) = ((fileBytes D din).drop off.toNat).take n.toNat := by
    refine List.ext_getElem? fun o => ?_
    rw [List.getElem?_take, List.getElem?_drop, getElem?_fileBytes]
    unfold bytesFrom readLen
    rw [List.getElem?_map]
    by_cases ho : o < min n.toNat (din.size.toNat - off.toNat)
    · rw [List.getElem?_range ho, if_pos (by omega), if_pos (by omega)]
      rfl
    · rw [List.getElem?_eq_none (by rw [List.length_range]; omega)]
      split
      · rw [if_neg (by omega)]
        rfl
      · rfl
  unfold readAt
  rw [if_neg hin, ← hout]
  unfold bytesFrom
  rw [List.length_map, List.length_range]

/-- Files that have the same bytes. -/
theorem fileBytes_congr {din : Dinode} (h : ∀ o < din.size.toNat, contents D' din o = contents D din o) :
    fileBytes D' din = fileBytes D din :=
  List.map_congr_left fun o ho => by
    rw [Nat.zero_add]
    exact h o (List.mem_range.1 ho)

/-- A write replaces bytes of one file. -/
theorem filesOn_spliced {src : Bytes} {off n : Nat} (hu : Used sb (dinodeOf sb D) i)
    (hoff : off ≤ (dinodeOf sb D i).size.toNat) (hs : Spliced sb D D' i src off n) :
    filesOn sb D' = update (filesOn sb D) i
      (some (splice (fileBytes D (dinodeOf sb D i)) off ((List.range n).map src))) := by
  funext k
  by_cases hk : k = i
  · rw [hk, update_self, filesOn_used ((hs.used i).2 hu)]
    refine congrArg some (List.ext_getElem? fun o => ?_)
    rw [Descriptions.getElem?_splice (by rw [length_fileBytes]; exact hoff), getElem?_fileBytes, getElem?_fileBytes,
      hs.size, List.length_map, List.length_range]
    by_cases hin : off ≤ o ∧ o < off + n
    · rw [if_pos hin, if_pos (by omega), hs.bytes o (by omega), if_pos hin, List.getElem?_map,
        List.getElem?_range (by omega)]
      rfl
    · rw [if_neg hin]
      by_cases ho : o < (dinodeOf sb D i).size.toNat
      · rw [if_pos ho, if_pos (by omega), hs.bytes o (by omega), if_neg hin]
      · rw [if_neg ho, if_neg (by omega)]
  · rw [update_of_ne hk]
    unfold filesOn
    by_cases huk : Used sb (dinodeOf sb D) k
    · rw [if_pos huk, if_pos ((hs.used k).2 huk), hs.others k huk.1 hk, fileBytes_congr (hs.frame k huk hk)]
    · rw [if_neg huk, if_neg fun hx => huk ((hs.used k).1 hx)]

/-- A free dinode becomes an empty file. -/
theorem filesOn_allotted {type : UInt16} (ht : type ≠ 0) (ha : Allotted sb D D' i type) :
    filesOn sb D' = update (filesOn sb D) i (some []) := by
  funext k
  by_cases hk : k = i
  · have hempty : fileBytes D' { Dinode.zero with type } = [] := rfl
    rw [hk, update_self, filesOn_used ((ha.used ht i).2 (.inr rfl)), ha.inode, hempty]
  · rw [update_of_ne hk]
    unfold filesOn
    by_cases huk : Used sb (dinodeOf sb D) k
    · rw [if_pos huk, if_pos ((ha.used ht k).2 (.inl huk)), ha.others k hk, fileBytes_congr (ha.frame k huk)]
    · rw [if_neg huk, if_neg fun hx => ((ha.used ht k).1 hx).elim huk hk]

end Files

/-! ## The view -/

abbrev Model := Descriptions.State (Fin NPROC) Nat UInt8 NOFILE

/-- The description in an entry of the file table. -/
def descOf (s : Files) (f : Fin NFILE) : Option (Desc Nat) :=
  (s.ftable f).ip.map fun ip =>
    ⟨fileInum s ip, (s.ftable f).off.toNat, (s.ftable f).readable, (s.ftable f).writable⟩

def view (s : Machine) : Model where
  file := filesOn s.files.fs.sb s.files.fs.dev.disk
  desc p i := ((s.proc p).ofile i).bind (descOf s.files)

/-- The bytes of a directory entry. -/
def entryBytes (inum : Nat) (name : Bytes) : List UInt8 := (List.range DIRENT).map (mkDirent (UInt16.ofNat inum) name)

def OpenResult.target : OpenResult → Target Nat Bytes
  | .missing => .missing
  | .found inum => .found inum
  | .create dir name => .create dir name

/-- `(int)argraw(0)`. -/
def fdArg (a : Args) : Int := (argint a.a0).toInt32.toInt

/-- The call as one of the abstract model. -/
def opOf (s : Machine) (a : Args) : FileCall → Op Nat Bytes UInt8
  | .open =>
      .open (openResult s.files.fs.sb s.files.fs.dev.disk (argstr a.mem a.a0 MAXPATH) (argint a.a1)).target
        (argint a.a1 &&& O_WRONLY == 0) (argint a.a1 &&& O_WRONLY != 0 || argint a.a1 &&& O_RDWR != 0)
  | .read => .read (fdArg a) (argint a.a2).toNat
  | .write => .write (fdArg a) ((List.range (argint a.a2).toNat).map fun i => a.mem (a.a1 + UInt64.ofNat i))
  | .close => .close (fdArg a)

theorem fdSlot_eq {fd : UInt32} {i : Fin NOFILE} : fdSlot fd = some i ↔ fd.toInt32.toInt = i.val := by
  unfold fdSlot
  have hi := i.isLt
  split
  · rename_i h
    rw [Option.some.injEq, Fin.ext_iff]
    show fd.toInt32.toInt.toNat = i.val ↔ _
    omega
  · rename_i h
    refine ⟨fun hn => absurd hn (by simp), fun he => absurd ⟨?_, ?_⟩ h⟩ <;> omega

/-- The descriptor that a call names. -/
theorem fdFile_eq {s : Machine} {p : Fin NPROC} {a : Args} {i : Fin NOFILE} {f : Fin NFILE} :
    fdFile s p (argint a.a0) = some (i, f) ↔ fdArg a = i.val ∧ (s.proc p).ofile i = some f := by
  unfold fdFile
  constructor
  · intro h
    split at h
    · rename_i j hj
      obtain ⟨g, hg, he⟩ := Option.map_eq_some_iff.1 h
      obtain ⟨rfl, rfl⟩ := Prod.mk.inj he
      exact ⟨fdSlot_eq.1 hj, hg⟩
    · exact absurd h (by simp)
  · rintro ⟨hfd, hf⟩
    rw [fdSlot_eq.2 hfd]
    simp only
    rw [hf]
    rfl

/-! ## The invariant -/

/-- No two descriptors share an entry, and offsets stay inside their files. -/
structure Owned (s : Machine) : Prop where
  once : ∀ p i q j f, (s.proc p).ofile i = some f → (s.proc q).ofile j = some f → p = q ∧ i = j
  opened : ∀ p i f, (s.proc p).ofile i = some f → (s.files.ftable f).ref = 1 ∧ ∃ ip, (s.files.ftable f).ip = some ip ∧
    (s.files.ftable f).off.toNat ≤ (fileDinode s.files ip).size.toNat

/-- All descriptors but `x` are as they were. -/
structure Apart (s t : Machine) (x : Option (Fin NPROC × Fin NOFILE)) : Prop where
  ofile : ∀ q j, x ≠ some (q, j) → (t.proc q).ofile j = (s.proc q).ofile j
  entry : ∀ q j f, x ≠ some (q, j) → (s.proc q).ofile j = some f → t.files.ftable f = s.files.ftable f
  inode : ∀ q j f ip, x ≠ some (q, j) → (s.proc q).ofile j = some f → (s.files.ftable f).ip = some ip →
    fileInum t.files ip = fileInum s.files ip ∧ (fileDinode s.files ip).size.toNat ≤ (fileDinode t.files ip).size.toNat

namespace Apart

variable {s t : Machine} {x : Option (Fin NPROC × Fin NOFILE)}

theorem desc (h : Apart s t x) {q : Fin NPROC} {j : Fin NOFILE} (hx : x ≠ some (q, j)) :
    (view t).desc q j = (view s).desc q j := by
  show ((t.proc q).ofile j).bind (descOf t.files) = ((s.proc q).ofile j).bind (descOf s.files)
  rw [h.ofile q j hx]
  cases hf : (s.proc q).ofile j with
  | none => rfl
  | some f =>
      show descOf t.files f = descOf s.files f
      unfold descOf
      rw [h.entry q j f hx hf]
      cases hip : (s.files.ftable f).ip with
      | none => rfl
      | some ip =>
          simp only [Option.map_some]
          rw [(h.inode q j f ip hx hf hip).1]

/-- The view, when one descriptor has changed. -/
theorem view_eq {p : Fin NPROC} {i : Fin NOFILE} (h : Apart s t (some (p, i))) :
    view t = Descriptions.State.setDesc ⟨(view t).file, (view s).desc⟩ p i ((view t).desc p i) := by
  refine (Descriptions.State.mk.injEq ..).mpr ⟨rfl, ?_⟩
  funext q j
  by_cases hx : q = p ∧ j = i
  · rw [hx.1, hx.2]
    simp only [update_self]
    rfl
  · have hother := Descriptions.State.setDesc_of_ne hx ⟨(view t).file, (view s).desc⟩ ((view t).desc p i)
    refine (h.desc fun he => hx ?_).trans hother.symm
    obtain ⟨rfl, rfl⟩ := Prod.mk.inj (Option.some.inj he)
    exact ⟨rfl, rfl⟩

theorem owned (h : Apart s t x) (hs : Owned s)
    (hnew : ∀ p i f, x = some (p, i) → (t.proc p).ofile i = some f →
      (∀ q j, x ≠ some (q, j) → (s.proc q).ofile j ≠ some f) ∧ (t.files.ftable f).ref = 1 ∧
        ∃ ip, (t.files.ftable f).ip = some ip ∧ (t.files.ftable f).off.toNat ≤ (fileDinode t.files ip).size.toNat) :
    Owned t := by
  refine ⟨fun p i q j f hp hq => ?_, fun p i f hp => ?_⟩
  · by_cases hx : x = some (p, i)
    · by_cases hy : x = some (q, j)
      · exact Prod.mk.inj (Option.some.inj (hx.symm.trans hy))
      · rw [h.ofile q j hy] at hq
        exact absurd hq ((hnew p i f hx hp).1 q j hy)
    · rw [h.ofile p i hx] at hp
      by_cases hy : x = some (q, j)
      · exact absurd hp ((hnew q j f hy hq).1 p i hx)
      · rw [h.ofile q j hy] at hq
        exact hs.once p i q j f hp hq
  · by_cases hx : x = some (p, i)
    · exact (hnew p i f hx hp).2
    · rw [h.ofile p i hx] at hp
      obtain ⟨href, ip, hip, hoff⟩ := hs.opened p i f hp
      obtain ⟨-, hsize⟩ := h.inode p i f ip hx hp hip
      rw [h.entry p i f hx hp]
      exact ⟨href, ip, hip, hoff.trans hsize⟩

end Apart

/-! ## Every call -/

section Step
variable {s t : Machine} {p : Fin NPROC} {a : Args} {c : FileCall} {r : Int × List UInt8}

/-- The counts are not negative, and nothing is written to a descriptor 1 that is not open. -/
structure Proper (s : Machine) (p : Fin NPROC) (a : Args) (c : FileCall) : Prop where
  count : c = .read ∨ c = .write → 0 ≤ (argint a.a2).toInt32.toInt
  console : c = .write → ¬ (argint a.a0 = 1 ∧ (s.proc p).ofile ⟨1, by decide⟩ = none)

theorem lt_of_nonneg {n : UInt32} (h : 0 ≤ n.toInt32.toInt) : n.toNat < 2 ^ 31 := by
  have hsigned : n.toInt32.toInt = n.toBitVec.toInt := rfl
  have hnat : n.toBitVec.toNat = n.toNat := rfl
  rw [hsigned, BitVec.toInt_eq_toNat_cond, hnat] at h
  split at h
  · omega
  · have hlt := n.toNat_lt
    omega

theorem Opened.size_le {sb : Superblock} {D D' : Nat → Block} {path : List UInt8} {omode : UInt32} {inum : Nat}
    (h : Opened sb D D' path omode inum) {k : Nat} (hk : Used sb (dinodeOf sb D) k) :
    (dinodeOf sb D k).size.toNat ≤ (dinodeOf sb D' k).size.toNat := by
  rcases h with ⟨-, rfl⟩ | ⟨dir, name, -, hc⟩
  · exact Nat.le_refl _
  · obtain ⟨D₁, off, ha, -, hsplice⟩ := hc.made
    rw [← ha.inode_old hk]
    exact hsplice.size_le hk.1

/-- Where `sys_open` leads in the abstract model. -/
theorem Opened.leads (hs : Sound s.files) {u : Files} {inum : Nat} {path : List UInt8} {omode : UInt32}
    (h : Opened s.files.fs.sb s.files.fs.dev.disk u.fs.dev.disk path omode inum) (hsb : u.fs.sb = s.files.fs.sb) :
    Leads entryBytes (view s) (openResult s.files.fs.sb s.files.fs.dev.disk path omode).target inum
      { view s with file := filesOn u.fs.sb u.fs.dev.disk } := by
  rw [hsb]
  rcases h with ⟨hr, hD⟩ | ⟨dir, name, hr, hc⟩
  · rw [hr, hD]
    refine .found ?_
    show filesOn _ _ inum ≠ none
    rw [filesOn_used (used_of_found hs.fs.disk hr)]
    exact Option.some_ne_none _
  · rw [hr]
    obtain ⟨D₁, off, ha, hvac, hsplice⟩ := hc.made
    obtain ⟨hdir, -⟩ := hc.parent
    have hdir₁ := (ha.used (by decide) dir).2 (.inl hdir)
    have hfile : (view s).file inum = none := if_neg ha.free
    have hold : (view s).file dir =
        some (fileBytes s.files.fs.dev.disk (dinodeOf s.files.fs.sb s.files.fs.dev.disk dir)) := filesOn_used hdir
    have hoff := hvac.le
    rw [ha.inode_old hdir] at hoff
    rw [← length_fileBytes s.files.fs.dev.disk] at hoff
    have hleads : Leads entryBytes (view s) (.create dir name) inum _ := .create hfile hold hoff
    have hbytes : fileBytes D₁ (dinodeOf s.files.fs.sb D₁ dir) =
        fileBytes s.files.fs.dev.disk (dinodeOf s.files.fs.sb s.files.fs.dev.disk dir) := by
      rw [ha.inode_old hdir]
      exact fileBytes_congr (ha.frame dir hdir)
    have hfiles := filesOn_spliced hdir₁ hvac.le hsplice
    rw [filesOn_allotted (by decide) ha, hbytes] at hfiles
    rw [hfiles]
    exact hleads

/-- The entries that are open are kept. -/
theorem apart_of_same {u : Files} (ho : Owned s) (hs : Sound s.files) (hsame : SameOpen s.files u)
    (hsize : ∀ k, Used s.files.fs.sb (dinodeOf s.files.fs.sb s.files.fs.dev.disk) k →
      (dinodeOf s.files.fs.sb s.files.fs.dev.disk k).size.toNat ≤
        (dinodeOf s.files.fs.sb u.fs.dev.disk k).size.toNat)
    {x : Option (Fin NPROC × Fin NOFILE)} {proc : Fin NPROC → Proc}
    (hproc : ∀ q j, x ≠ some (q, j) → (proc q).ofile j = (s.proc q).ofile j) :
    Apart s { s with files := u, proc } x := by
  refine ⟨hproc, fun q j f _ hf => ?_, fun q j f ip _ _ hip => ?_⟩
  · refine hsame.entries f ?_
    rw [(ho.opened q j f hf).1]
    exact Int.one_pos
  · have hinum := hsame.inum f ip hip
    refine ⟨hinum, ?_⟩
    show _ ≤ (dinodeOf u.fs.sb u.fs.dev.disk (u.fs.icache ip).inum).size.toNat
    rw [hsame.sb, hinum]
    exact hsize _ (hs.fs.live ip (openRefs_pos hip)).2

/-- The descriptors after one of `p` has changed. -/
theorem ofile_of_ne {i : Fin NOFILE} {v : Option (Fin NFILE)} {q : Fin NPROC} {j : Fin NOFILE}
    (hx : some (p, i) ≠ some (q, j)) :
    ((update s.proc p { s.proc p with ofile := update (s.proc p).ofile i v } : Fin NPROC → Proc) q).ofile j =
      (s.proc q).ofile j := by
  by_cases hq : q = p
  · rw [hq, update_self]
    refine update_of_ne ?_ _ _
    rintro rfl
    exact hx (by rw [hq])
  · rw [update_of_ne hq]

theorem Owned.desc_some (ho : Owned s) {i : Fin NOFILE} {f : Fin NFILE} (hf : (s.proc p).ofile i = some f) :
    ∃ ip, (s.files.ftable f).ip = some ip ∧
      (s.files.ftable f).off.toNat ≤ (fileDinode s.files ip).size.toNat ∧
      (view s).desc p i = some ⟨fileInum s.files ip, (s.files.ftable f).off.toNat, (s.files.ftable f).readable,
        (s.files.ftable f).writable⟩ := by
  obtain ⟨-, ip, hip, hoff⟩ := ho.opened p i f hf
  refine ⟨ip, hip, hoff, ?_⟩
  show ((s.proc p).ofile i).bind (descOf s.files) = _
  rw [hf]
  show descOf s.files f = _
  unfold descOf
  rw [hip]
  rfl

/-- A descriptor that is not open. -/
theorem Owned.find_none (hfd : fdFile s p (argint a.a0) = none) : (view s).find p (fdArg a) = none := by
  cases hfind : (view s).find p (fdArg a) with
  | none => rfl
  | some x =>
      obtain ⟨hi, hd⟩ := Descriptions.State.find_eq_some.1 hfind
      cases hf : (s.proc p).ofile x.1 with
      | none =>
          have hnone : (view s).desc p x.1 = none := by
            show ((s.proc p).ofile x.1).bind (descOf s.files) = none
            rw [hf]
            rfl
          rw [hnone] at hd
          exact absurd hd (by simp)
      | some f =>
          rw [fdFile_eq.2 ⟨hi, hf⟩] at hfd
          exact absurd hfd (by simp)

theorem moved_eq (s : Files) (f : Fin NFILE) (k : Nat) :
    moved s f k = s.setFile f { s.ftable f with off := (s.ftable f).off + UInt32.ofNat k } := by
  unfold moved
  by_cases hk : (k : Int) > 0
  · rw [if_pos hk]
    rfl
  · have hzero : k = 0 := by omega
    rw [if_neg hk, hzero]
    have hsame : s.setFile f (s.ftable f) = s := by
      unfold Files.setFile
      rw [update_eq_self]
    rw [show (s.ftable f).off + UInt32.ofNat 0 = (s.ftable f).off from UInt32.add_zero _]
    exact hsame.symm

/-- `k` bytes have gone through descriptor `i` of `p`. -/
theorem Owned.transferred (ho : Owned s) (hs : Sound s.files) {i : Fin NOFILE} {f : Fin NFILE} {ip : Fin NINODE}
    (hf : (s.proc p).ofile i = some f) (hip : (s.files.ftable f).ip = some ip) {t : State}
    (hslots : Slots (openRefs s.files) s.files.fs t)
    (hsize : ∀ k, Used s.files.fs.sb (dinodeOf s.files.fs.sb s.files.fs.dev.disk) k →
      (dinodeOf s.files.fs.sb s.files.fs.dev.disk k).size.toNat ≤ (dinodeOf s.files.fs.sb t.dev.disk k).size.toNat)
    {k : Nat} (hfit : (s.files.ftable f).off.toNat + k ≤
      (dinodeOf s.files.fs.sb t.dev.disk (fileInum s.files ip)).size.toNat) :
    Owned { s with files := moved { s.files with fs := t } f k } ∧
      view { s with files := moved { s.files with fs := t } f k } =
        Descriptions.State.setDesc ⟨filesOn s.files.fs.sb t.dev.disk, (view s).desc⟩ p i
          (some ⟨fileInum s.files ip, (s.files.ftable f).off.toNat + k, (s.files.ftable f).readable,
            (s.files.ftable f).writable⟩) := by
  rw [moved_eq]
  have hinum : fileInum { s.files with fs := t } ip = fileInum s.files ip := hslots.inum ip (openRefs_pos hip)
  have hsb : t.sb = s.files.fs.sb := hslots.sb
  have hoff : ((s.files.ftable f).off + UInt32.ofNat k).toNat = (s.files.ftable f).off.toNat + k := by
    have hlt := (dinodeOf s.files.fs.sb t.dev.disk (fileInum s.files ip)).size.toNat_lt
    rw [UInt32.toNat_add, UInt32.toNat_ofNat', Nat.mod_eq_of_lt (b := 2 ^ 32) (by omega), Nat.mod_eq_of_lt (by omega)]
  generalize hv : ({ s.files.ftable f with off := (s.files.ftable f).off + UInt32.ofNat k } : File) = v
  have hself : ({ s.files with fs := t }.setFile f v).ftable f = v := Files.setFile_self _ _ _
  have happart : Apart s { s with files := { s.files with fs := t }.setFile f v } (some (p, i)) := by
    refine ⟨fun _ _ _ => rfl, fun q j g hx hg => ?_, fun q j g jp hx hg hjp => ?_⟩
    · refine Files.setFile_of_ne ?_ _ _
      rintro rfl
      obtain ⟨rfl, rfl⟩ := ho.once p i q j g hf hg
      exact hx rfl
    · have hpos := openRefs_pos hjp
      have hinum : fileInum { s.files with fs := t } jp = fileInum s.files jp := hslots.inum jp hpos
      refine ⟨hinum, ?_⟩
      show _ ≤ (dinodeOf t.sb t.dev.disk (fileInum { s.files with fs := t } jp)).size.toNat
      rw [hsb, hinum]
      exact hsize _ (hs.fs.live jp hpos).2
  refine ⟨happart.owned ho fun q j g hx hg => ?_, ?_⟩
  · obtain ⟨rfl, rfl⟩ := Prod.mk.inj (Option.some.inj hx)
    obtain rfl : f = g := Option.some.inj (hf.symm.trans hg)
    refine ⟨fun q' j' hx' hg' => ?_, ?_, ip, ?_, ?_⟩
    · obtain ⟨rfl, rfl⟩ := ho.once p i q' j' f hf hg'
      exact hx' rfl
    · rw [hself, ← hv]
      exact (ho.opened p i f hf).1
    · rw [hself, ← hv]
      exact hip
    · rw [hself, ← hv]
      show ((s.files.ftable f).off + UInt32.ofNat k).toNat ≤
        (dinodeOf t.sb t.dev.disk (fileInum { s.files with fs := t } ip)).size.toNat
      rw [hoff, hsb, hinum]
      exact hfit
  · have hdesc : (view { s with files := { s.files with fs := t }.setFile f v }).desc p i =
        some ⟨fileInum s.files ip, (s.files.ftable f).off.toNat + k, (s.files.ftable f).readable,
          (s.files.ftable f).writable⟩ := by
      show ((s.proc p).ofile i).bind (descOf _) = _
      rw [hf]
      show descOf _ f = _
      unfold descOf
      rw [hself, ← hv]
      simp only
      rw [hip, hoff]
      exact congrArg (fun x => some (⟨x, _, _, _⟩ : Desc Nat)) hinum
    rw [happart.view_eq, hdesc]
    show Descriptions.State.setDesc ⟨filesOn t.sb t.dev.disk, _⟩ p i _ = _
    rw [hsb]

/-- No descriptor has changed. -/
theorem Apart.view_of_none (h : Apart s t none) : view t = { view s with file := (view t).file } := by
  refine (Descriptions.State.mk.injEq ..).mpr ⟨rfl, ?_⟩
  funext q j
  exact h.desc (by simp)

/-- What the abstract model makes of a call. -/
abbrev Refines (s : Machine) (p : Fin NPROC) (a : Args) (c : FileCall) (r : Int × List UInt8) (t : Machine) : Prop :=
  Owned t ∧ Descriptions.Step MAXBYTES entryBytes (view s) p (opOf s a c) r (view t)

theorem refines_openFailed (hs : Sound s.files) (ho : Owned s) {u : Files} (hsame : SameOpen s.files u)
    (hdisk : openResult s.files.fs.sb s.files.fs.dev.disk (argstr a.mem a.a0 MAXPATH) (argint a.a1) = .missing ∧
        u.fs.dev.disk = s.files.fs.dev.disk ∨
      ∃ inum, Opened s.files.fs.sb s.files.fs.dev.disk u.fs.dev.disk (argstr a.mem a.a0 MAXPATH) (argint a.a1) inum) :
    Refines s p a .open (-1, []) { s with files := u } := by
  have hsize : ∀ k, Used s.files.fs.sb (dinodeOf s.files.fs.sb s.files.fs.dev.disk) k →
      (dinodeOf s.files.fs.sb s.files.fs.dev.disk k).size.toNat ≤
        (dinodeOf s.files.fs.sb u.fs.dev.disk k).size.toNat := by
    intro k hk
    rcases hdisk with ⟨-, hD⟩ | ⟨inum, hop⟩
    · rw [hD]
    · exact hop.size_le hk
  have happart : Apart s { s with files := u } none :=
    apart_of_same ho hs hsame hsize fun _ _ _ => rfl
  refine ⟨happart.owned ho fun _ _ _ hx => absurd hx (by simp), ?_⟩
  rw [happart.view_of_none]
  rcases hdisk with ⟨hr, hD⟩ | ⟨inum, hop⟩
  · have hfile : (view { s with files := u }).file = (view s).file := by
      show filesOn u.fs.sb u.fs.dev.disk = _
      rw [hsame.sb, hD]
      rfl
    rw [hfile]
    show Descriptions.Step _ _ _ p (.open _ _ _) _ _
    rw [hr]
    exact .missing
  · exact .full (hop.leads hs hsame.sb)

theorem refines_opened (hs : Sound s.files) (ho : Owned s) {u : Files} {fd : Fin NOFILE} {f : Fin NFILE}
    {ip : Fin NINODE} (hsame : SameOpen s.files u)
    (hdisk : Opened s.files.fs.sb s.files.fs.dev.disk u.fs.dev.disk (argstr a.mem a.a0 MAXPATH) (argint a.a1)
      (fileInum u ip))
    (hfd : (s.proc p).ofile fd = none) (hfirst : ∀ k < fd, (s.proc p).ofile k ≠ none)
    (hfree : (s.files.ftable f).ref = 0) (hfile : u.ftable f = openFile (argint a.a1) ip) :
    Refines s p a .open ((fd.val : Int), [])
      { s with files := u, proc := update s.proc p { s.proc p with ofile := update (s.proc p).ofile fd (some f) } } := by
  have hx {q : Fin NPROC} {j : Fin NOFILE} (hx : some (p, fd) ≠ some (q, j)) := ofile_of_ne (s := s) (v := some f) hx
  have hnew : ((update s.proc p { s.proc p with ofile := update (s.proc p).ofile fd (some f) } : Fin NPROC → Proc) p).ofile
      fd = some f := by
    rw [update_self]
    exact update_self _ _ _
  generalize update s.proc p { s.proc p with ofile := update (s.proc p).ofile fd (some f) } = procs at hx hnew ⊢
  have happart : Apart s { s with files := u, proc := procs } (some (p, fd)) := apart_of_same ho hs hsame (fun k hk => hdisk.size_le hk) fun q j => hx
  refine ⟨happart.owned ho fun q j g hq hg => ?_, ?_⟩
  · obtain ⟨rfl, rfl⟩ := Prod.mk.inj (Option.some.inj hq)
    obtain rfl : f = g := Option.some.inj (hnew.symm.trans hg)
    refine ⟨fun q' j' _ hg' => ?_, ?_, ip, ?_, ?_⟩
    · have href := (ho.opened q' j' f hg').1
      omega
    · rw [show u.ftable f = _ from hfile]
      rfl
    · rw [show u.ftable f = _ from hfile]
      rfl
    · rw [show u.ftable f = _ from hfile]
      exact Nat.zero_le _
  · have hdesc : (view { s with files := u, proc := procs }).desc p fd =
        some ⟨fileInum u ip, 0, (openFile (argint a.a1) ip).readable, (openFile (argint a.a1) ip).writable⟩ := by
      show Option.bind _ (descOf u) = _
      rw [hnew]
      show descOf u f = _
      unfold descOf
      rw [hfile]
      rfl
    rw [happart.view_eq, hdesc]
    refine .opened (hdisk.leads hs hsame.sb) ?_ fun j hj => ?_
    · show ((s.proc p).ofile fd).bind _ = none
      rw [hfd]
      rfl
    · cases hf : (s.proc p).ofile j with
      | none => exact absurd hf (hfirst j hj)
      | some g =>
          obtain ⟨jp, -, -, hd⟩ := ho.desc_some hf
          rw [hd]
          exact Option.some_ne_none _

theorem refines_unopened (ho : Owned s) (hc : c ≠ .open) (hfd : fdFile s p (argint a.a0) = none) :
    Refines s p a c (-1, []) s := by
  refine ⟨ho, ?_⟩
  have hfind := Owned.find_none hfd
  cases c with
  | «open» => exact absurd rfl hc
  | read =>
      refine .of_read ?_
      unfold Descriptions.State.read
      rw [hfind]
  | write =>
      refine .of_write ?_
      unfold Descriptions.State.write
      rw [hfind]
  | close =>
      refine .of_close ?_
      unfold Descriptions.State.close
      rw [hfind]

section Transfer
variable {fd : Fin NOFILE} {f : Fin NFILE} {ip : Fin NINODE} {u : State}

theorem refines_readDenied (ho : Owned s) (hfd : fdFile s p (argint a.a0) = some (fd, f))
    (hr : (s.files.ftable f).readable = false) : Refines s p a .read (-1, []) s := by
  obtain ⟨hi, hf⟩ := fdFile_eq.1 hfd
  obtain ⟨ip, -, -, hd⟩ := ho.desc_some hf
  refine ⟨ho, .of_read ?_⟩
  unfold Descriptions.State.read
  rw [Descriptions.State.find_eq_some.2 ⟨hi, hd⟩]
  simp only
  rw [if_neg (by rw [hr]; exact Bool.false_ne_true)]

theorem refines_read (hs : Sound s.files) (ho : Owned s) (hn : (argint a.a2).toNat < 2 ^ 31)
    (hfd : fdFile s p (argint a.a0) = some (fd, f)) (hr : (s.files.ftable f).readable = true)
    (hip : (s.files.ftable f).ip = some ip) (hst : Still (openRefs s.files) s.files.fs u)
    (hres : r = readAt s.files.fs.dev.disk (fileDinode s.files ip) (s.files.ftable f).off (argint a.a2)) :
    Refines s p a .read r { s with files := moved { s.files with fs := u } f r.1 } := by
  obtain ⟨hi, hf⟩ := fdFile_eq.1 hfd
  obtain ⟨jp, hjp, hoff, hd⟩ := ho.desc_some hf
  obtain rfl : ip = jp := Option.some.inj (hip.symm.trans hjp)
  have hused := (hs.fs.live ip (openRefs_pos hip)).2
  have hmax := hs.fs.disk.structural.sizes _ hused
  have hsum : (s.files.ftable f).off.toNat + (argint a.a2).toNat < 2 ^ 32 := by
    have hle : (fileDinode s.files ip).size.toNat ≤ MAXBYTES := hmax
    unfold MAXBYTES NDIRECT NINDIRECT BSIZE at hle
    omega
  rw [readAt_eq hoff hsum] at hres
  generalize hout : ((fileBytes s.files.fs.dev.disk (fileDinode s.files ip)).drop (s.files.ftable f).off.toNat).take
    (argint a.a2).toNat = out at hres
  subst hres
  have hlen : (s.files.ftable f).off.toNat + out.length ≤ (fileDinode s.files ip).size.toNat := by
    rw [← hout, List.length_take, List.length_drop, length_fileBytes]
    omega
  have hsize {k : Nat} : (dinodeOf s.files.fs.sb s.files.fs.dev.disk k).size.toNat ≤
      (dinodeOf s.files.fs.sb u.dev.disk k).size.toNat := by
    rw [hst.disk]
  obtain ⟨hown, hview⟩ := ho.transferred hs hf hip hst.slots (fun _ _ => hsize) (hlen.trans hsize)
  refine ⟨hown, .of_read ?_⟩
  rw [hview, hst.disk]
  have hfile : (view s).file (fileInum s.files ip) = some (fileBytes s.files.fs.dev.disk (fileDinode s.files ip)) :=
    filesOn_used hused
  unfold Descriptions.State.read
  rw [Descriptions.State.find_eq_some.2 ⟨hi, hd⟩]
  simp only
  rw [if_pos hr, hfile, Option.getD_some, hout]
  rfl

theorem refines_writeDenied (ho : Owned s) (hfd : fdFile s p (argint a.a0) = some (fd, f))
    (hw : (s.files.ftable f).writable = false) : Refines s p a .write (-1, []) s := by
  obtain ⟨hi, hf⟩ := fdFile_eq.1 hfd
  obtain ⟨ip, -, -, hd⟩ := ho.desc_some hf
  refine ⟨ho, .of_write ?_⟩
  unfold Descriptions.State.write
  rw [Descriptions.State.find_eq_some.2 ⟨hi, hd⟩]
  simp only
  rw [if_neg (by rw [hw]; simp)]

theorem refines_writeRefused (hs : Sound s.files) (ho : Owned s)
    (hfd : fdFile s p (argint a.a0) = some (fd, f)) (hip : (s.files.ftable f).ip = some ip)
    (hst : Still (openRefs s.files) s.files.fs u)
    (href : Refused (fileDinode s.files ip) (s.files.ftable f).off (argint a.a2)) :
    Refines s p a .write (-1, []) { s with files := { s.files with fs := u } } := by
  obtain ⟨hi, hf⟩ := fdFile_eq.1 hfd
  obtain ⟨jp, hjp, hoff, hd⟩ := ho.desc_some hf
  obtain rfl : ip = jp := Option.some.inj (hip.symm.trans hjp)
  have hsame : SameOpen s.files { s.files with fs := u } := SameOpen.of_slots hst.slots fun _ _ => rfl
  have hdisk : ({ s.files with fs := u } : Files).fs.dev.disk = s.files.fs.dev.disk := hst.disk
  have happart : Apart s { s with files := { s.files with fs := u } } none :=
    apart_of_same ho hs hsame (fun k _ => by rw [hdisk]) fun _ _ _ => rfl
  have hfile : (view { s with files := { s.files with fs := u } }).file = (view s).file := by
    show filesOn u.sb u.dev.disk = _
    rw [hst.sb, hst.disk]
    rfl
  refine ⟨happart.owned ho fun _ _ _ hx => absurd hx (by simp), .of_write ?_⟩
  rw [happart.view_of_none, hfile]
  unfold Descriptions.State.write
  rw [Descriptions.State.find_eq_some.2 ⟨hi, hd⟩]
  simp only
  rw [if_neg]
  rw [List.length_map, List.length_range]
  unfold Refused at href
  have hused := (hs.fs.live ip (openRefs_pos hip)).2
  have hmax : (fileDinode s.files ip).size.toNat ≤ MAXBYTES := hs.fs.disk.structural.sizes _ hused
  unfold MAXBYTES NDIRECT NINDIRECT BSIZE at *
  omega

theorem refines_written (hs : Sound s.files) (ho : Owned s) (hfd : fdFile s p (argint a.a0) = some (fd, f))
    (hw : (s.files.ftable f).writable = true) (hip : (s.files.ftable f).ip = some ip)
    (hslots : Slots (openRefs s.files) s.files.fs u)
    (href : ¬ Refused (fileDinode s.files ip) (s.files.ftable f).off (argint a.a2))
    (hsplice : Spliced s.files.fs.sb s.files.fs.dev.disk u.dev.disk (fileInum s.files ip)
      (fun i => a.mem (a.a1 + UInt64.ofNat i)) (s.files.ftable f).off.toNat (argint a.a2).toNat) :
    Refines s p a .write (((argint a.a2).toNat : Int), [])
      { s with files := moved { s.files with fs := u } f (argint a.a2).toNat } := by
  obtain ⟨hi, hf⟩ := fdFile_eq.1 hfd
  obtain ⟨jp, hjp, hoff, hd⟩ := ho.desc_some hf
  obtain rfl : ip = jp := Option.some.inj (hip.symm.trans hjp)
  have hused := (hs.fs.live ip (openRefs_pos hip)).2
  have hfit : (s.files.ftable f).off.toNat + (argint a.a2).toNat ≤
      (dinodeOf s.files.fs.sb u.dev.disk (fileInum s.files ip)).size.toNat := by
    rw [hsplice.size]
    exact le_max_right _ _
  obtain ⟨hown, hview⟩ := ho.transferred hs hf hip hslots (fun k hk => hsplice.size_le hk.1) hfit
  refine ⟨hown, .of_write ?_⟩
  have hfile : (view s).file (fileInum s.files ip) = some (fileBytes s.files.fs.dev.disk (fileDinode s.files ip)) :=
    filesOn_used hused
  rw [hview, filesOn_spliced hused hoff hsplice]
  unfold Descriptions.State.write
  rw [Descriptions.State.find_eq_some.2 ⟨hi, hd⟩]
  simp only
  rw [if_pos, hfile, Option.getD_some, List.length_map, List.length_range]
  · rfl
  · rw [List.length_map, List.length_range]
    unfold Refused at href
    refine ⟨hw, ?_⟩
    omega

theorem refines_closed (ho : Owned s) {v : File} (hfd : fdFile s p (argint a.a0) = some (fd, f))
    (hv : (s.files.ftable f).ref > 1 ∧ v = { s.files.ftable f with ref := (s.files.ftable f).ref - 1 } ∨
      (s.files.ftable f).ref = 1 ∧ v = shut)
    (hst : Still (openRefs (s.files.setFile f v)) s.files.fs u) :
    Refines s p a .close (0, []) { s with
      files := { s.files.setFile f v with fs := u },
      proc := update s.proc p { s.proc p with ofile := update (s.proc p).ofile fd none } } := by
  obtain ⟨hi, hf⟩ := fdFile_eq.1 hfd
  obtain ⟨ip, hip, -, hd⟩ := ho.desc_some hf
  have hone := (ho.opened p fd f hf).1
  have hshut : v = shut := by
    rcases hv with ⟨hmore, -⟩ | ⟨-, hv⟩
    · omega
    · exact hv
  have hx {q : Fin NPROC} {j : Fin NOFILE} (hx : some (p, fd) ≠ some (q, j)) := ofile_of_ne (s := s) (v := none) hx
  have hg {q : Fin NPROC} {j : Fin NOFILE} {g : Fin NFILE} (hx : some (p, fd) ≠ some (q, j))
      (hg : (s.proc q).ofile j = some g) : (s.files.setFile f v).ftable g = s.files.ftable g := by
    refine Files.setFile_of_ne ?_ _ _
    rintro rfl
    obtain ⟨rfl, rfl⟩ := ho.once p fd q j g hf hg
    exact hx rfl
  have hnew : ((update s.proc p { s.proc p with ofile := update (s.proc p).ofile fd none } : Fin NPROC → Proc) p).ofile
      fd = none := by
    rw [update_self]
    exact update_self _ _ _
  generalize update s.proc p { s.proc p with ofile := update (s.proc p).ofile fd none } = procs at hx hnew ⊢
  have happart : Apart s { s with files := { s.files.setFile f v with fs := u }, proc := procs } (some (p, fd)) := by
    refine ⟨fun q j => hx, fun q j g hne => hg hne, fun q j g jp hne hofile hjp => ?_⟩
    have hpos : 0 < openRefs (s.files.setFile f v) jp := openRefs_pos (f := g) (by rw [hg hne hofile]; exact hjp)
    have hinum : (u.icache jp).inum = (s.files.fs.icache jp).inum := hst.inum jp hpos
    refine ⟨hinum, ?_⟩
    show _ ≤ (dinodeOf u.sb u.dev.disk (u.icache jp).inum).size.toNat
    rw [hst.sb, hst.disk, hinum]
    exact Nat.le_refl _
  have hdesc : (view { s with files := { s.files.setFile f v with fs := u }, proc := procs }).desc p fd = none := by
    show Option.bind _ _ = _
    rw [hnew]
    rfl
  have hfile : (view { s with files := { s.files.setFile f v with fs := u }, proc := procs }).file = (view s).file := by
    show filesOn u.sb u.dev.disk = _
    rw [hst.sb, hst.disk]
    rfl
  refine ⟨happart.owned ho fun q j g hq hofile => ?_, .of_close ?_⟩
  · obtain ⟨rfl, rfl⟩ := Prod.mk.inj (Option.some.inj hq)
    exact absurd (hnew.symm.trans hofile) (by simp)
  · rw [happart.view_eq, hdesc, hfile]
    unfold Descriptions.State.close
    rw [Descriptions.State.find_eq_some.2 ⟨hi, hd⟩]

end Transfer

/-- A call is one of the abstract model, with the same result. -/
theorem call_step (hs : Sound s.files) (ho : Owned s) (hp : Proper s p a c) (h : CallEffect s p a c r t) :
    Refines s p a c r t := by
  cases h with
  | openFailed hsame hdisk => exact refines_openFailed hs ho hsame hdisk
  | opened hsame hdisk hfd hfirst hfree hfile => exact refines_opened hs ho hsame hdisk hfd hfirst hfree hfile
  | unopened hc hfd => exact refines_unopened ho hc hfd
  | console hcons => exact absurd hcons (hp.console rfl)
  | readDenied hfd hr => exact refines_readDenied ho hfd hr
  | read hfd hr hip hst hres => exact refines_read hs ho (lt_of_nonneg (hp.count (.inl rfl))) hfd hr hip hst hres
  | writeDenied hfd hw => exact refines_writeDenied ho hfd hw
  | writeRefused hfd hw hip hst href => exact refines_writeRefused hs ho hfd hip hst href
  | written hfd hw hip hslots href hsplice => exact refines_written hs ho hfd hw hip hslots href hsplice
  | closed hfd hv hst => exact refines_closed ho hfd hv hst

end Step

/-! ## Every run -/

/-- A call of the abstract model by a process, with its result. -/
structure Event where
  p : Fin NPROC
  op : Op Nat Bytes UInt8
  result : Int × List UInt8

/-- A completed call of the kernel. -/
def Called (s : Machine) (e : Event) (t : Machine) : Prop :=
  ∃ a c, Proper s e.p a c ∧ e.op = opOf s a c ∧ (fileCall e.p a c).run s = .ok (e.result, t)

/-- The same call in the abstract model, with files of at most 268 KB. -/
def ModelCall (m : Model) (e : Event) (m' : Model) : Prop :=
  Descriptions.Step MAXBYTES entryBytes m e.p e.op e.result m'

theorem called_step {s t : Machine} {e : Event} (h : Sound s.files ∧ Owned s) (hst : Called s e t) :
    (Sound t.files ∧ Owned t) ∧ ModelCall (view s) e (view t) := by
  obtain ⟨hs, ho⟩ := h
  obtain ⟨a, c, hp, hop, hrun⟩ := hst
  have hcall : (fileCall e.p a c).wp (fun r t => Sound t.files ∧ CallEffect s e.p a c r t) (fun _ => True) s :=
    sound_fileCall (E := fun _ => True) hs a c fun _ _ => trivial
  obtain ⟨ht, heff⟩ := wp_ok hcall hrun
  obtain ⟨hown, hstep⟩ := call_step hs ho hp heff
  refine ⟨⟨ht, hown⟩, ?_⟩
  unfold ModelCall
  rw [hop]
  exact hstep

/-- The results of every run of calls are those of the abstract model, in which every descriptor has a description of
its own; and a call changes no other description. -/
theorem descriptors_refine {total : Nat} {img : Mkfs.State} {s t : Machine} {es : List Event}
    (hm : Mkfs.Makes total img) (hs : FileStart img.blocks s) (h : Trace Called s es t) :
    (∀ p i, (view s).desc p i = none) ∧ Trace ModelCall (view s) es (view t) ∧
      ∀ e u, Called t e u → ∀ q j d, (view t).desc q j = some d → ¬ (q = e.p ∧ e.op.fd = some (j.val : Int)) →
        (view u).desc q j = some d := by
  have hstart : Sound s.files ∧ Owned s := by
    have hno (p : Fin NPROC) (i : Fin NOFILE) (f : Fin NFILE) : (s.proc p).ofile i ≠ some f := by
      rw [hs.ofile p i]
      exact fun hn => absurd hn (by simp)
    exact ⟨(sound_start hm hs).1, fun p i _ _ f hf => absurd hf (hno p i f), fun p i f hf => absurd hf (hno p i f)⟩
  obtain ⟨hinv, htrace⟩ := h.simulate view (fun s => Sound s.files ∧ Owned s) (fun _ _ _ => called_step) hstart
  refine ⟨fun p i => ?_, htrace, fun e u hst q j d hd hne => ?_⟩
  · show ((s.proc p).ofile i).bind _ = none
    rw [hs.ofile p i]
    rfl
  · exact (called_step hinv hst).2.desc_other hd hne

/-- A file is made on the default image. -/
theorem descriptors_refine_createA : ∃ img s e t, Mkfs.Makes 1000 img ∧ FileStart img.blocks s ∧ Called s e t ∧
    Trace ModelCall (view s) [e] (view t) := by
  obtain ⟨img, s, r, t, hm, hs, -, hrun, -⟩ := createA_runs
  have hcalled : Called s ⟨⟨0, by decide⟩, opOf s createA .open, r⟩ t :=
    ⟨createA, .open, ⟨fun h => absurd h (by decide), fun h => absurd h (by decide)⟩, rfl, hrun⟩
  obtain ⟨-, htrace, -⟩ := descriptors_refine hm hs (.cons hcalled .nil)
  exact ⟨img, s, _, t, hm, hs, hcalled, htrace⟩

end RiscvOsLab.Kernel
