import RiscvOsLab.Kernel.Descriptors
import RiscvOsLab.Kernel.Sound

/-!
# Counts of bytes (`sys_read`, `sys_write`)

The count is an `int` for the caller and for `fileread`, and a `uint` for `readi` and `writei`. `writei` compares the
end of the transfer with the largest file, so that a negative count never passes; `readi` cuts it to the size of the
file, and a negative count that does not wrap becomes the rest of the file (`Overreads`). Nothing is assumed of the
state a call starts in.

* `read_within_iff` : a read stays within its count exactly when it is not such a call, a write always does;
* `read_within_fails` : a call of init on the root directory.
-/

namespace RiscvOsLab.Kernel

open Prog Function Bytes
open RiscvOsLab.Fs

/-- `max(n, 0)`. -/
def asked (n : UInt32) : Nat := n.toInt32.toInt.toNat

/-- What a read of `n` bytes may return and store. -/
structure Within (n : UInt32) (r : Int) (bytes : List UInt8) : Prop where
  result : r = -1 ∨ 0 ≤ r ∧ r ≤ asked n
  stored : bytes.length ≤ asked n

/-- The size of an inode once it is locked. -/
def lockedSize (s : State) (ip : Fin NINODE) : UInt32 := (((ilock ip).exec s).icache ip).din.size

/-- A negative count, from an offset inside the file and smaller than its absolute value. -/
def Overreads (s : Machine) (p : Fin NPROC) (a : Args) : Prop :=
  (argint a.a2).toInt32.toInt < 0 ∧ ∃ fd f ip, fdFile s p (argint a.a0) = some (fd, f) ∧
    (s.files.ftable f).readable = true ∧ (s.files.ftable f).ip = some ip ∧
    (s.files.ftable f).off < lockedSize s.files.fs ip ∧
    ((s.files.ftable f).off.toNat : Int) < -(argint a.a2).toInt32.toInt

/-- The call writes to the UART. -/
def ToConsole (s : Machine) (p : Fin NPROC) (a : Args) : Prop :=
  argint a.a0 = 1 ∧ (s.proc p).ofile ⟨1, one_lt_nofile⟩ = none

/-- The disk, the open files with their offsets and the inodes in memory are the same. -/
structure SameFiles (s t : Files) : Prop where
  disk : t.fs.dev.disk = s.fs.dev.disk
  inodes : ∀ ip, (s.fs.icache ip).valid = true → t.fs.icache ip = s.fs.icache ip
  ftable : t.ftable = s.ftable

/-- A write returns and reads no more than its count; with a negative count it changes nothing. -/
structure WriteWithin (s : Machine) (p : Fin NPROC) (a : Args) : Prop where
  result : ∀ r t, (sysWrite p a).run s = .ok (r, t) → r = -1 ∨ 0 ≤ r ∧ r ≤ asked (argint a.a2)
  consumed : ∀ mem, (∀ i < asked (argint a.a2), mem (a.a1 + UInt64.ofNat i) = a.mem (a.a1 + UInt64.ofNat i)) →
    (sysWrite p { a with mem }).run s = (sysWrite p a).run s
  negative : (argint a.a2).toInt32.toInt < 0 → ∀ r t, (sysWrite p a).run s = .ok (r, t) →
    r = -1 ∧ SameFiles s.files t.files ∧ t.proc = s.proc

/-! ## Signed and unsigned counts -/

theorem toInt_of_ge {n : UInt32} (h : 2 ^ 31 ≤ n.toNat) : n.toInt32.toInt = n.toNat - 2 ^ 32 := by
  have hcond := BitVec.toInt_eq_toNat_cond n.toBitVec
  rw [if_neg (by show ¬ 2 * n.toNat < 2 ^ 32; omega)] at hcond
  exact hcond

theorem toInt_neg_iff {n : UInt32} : n.toInt32.toInt < 0 ↔ 2 ^ 31 ≤ n.toNat := by
  constructor
  · intro hneg
    by_contra hlt
    rw [toInt_of_lt (by omega)] at hneg
    omega
  · intro hge
    have hlt := n.toNat_lt
    rw [toInt_of_ge hge]
    omega

theorem asked_of_lt {n : UInt32} (h : n.toNat < 2 ^ 31) : asked n = n.toNat := by
  rw [asked, toInt_of_lt h, Int.toNat_natCast]

theorem asked_of_neg {n : UInt32} (h : n.toInt32.toInt < 0) : asked n = 0 := Int.toNat_of_nonpos h.le

/-! ## Reading -/

section Read
variable {s : State} {ip : Fin NINODE}

theorem wp_bmap_range (ip : Fin NINODE) (bn : Nat) (s : State) :
    (bmap ip bn).wp (fun _ _ => bn < NDIRECT + NINDIRECT) (fun _ => True) s := by
  unfold bmap
  by_cases hdirect : bn < NDIRECT
  · rw [if_pos hdirect]
    exact wp_any _ fun _ _ => Nat.lt_add_right _ hdirect
  · rw [if_neg hdirect]
    by_cases hind : bn - NDIRECT < NINDIRECT
    · rw [if_pos hind]
      exact wp_any _ fun _ _ => by omega
    · rw [if_neg hind]
      trivial

/-- The loop stores what it is asked for, and only below the end of the largest file. -/
theorem wp_readiLoop_length (ip : Fin NINODE) (off left : Nat) (s : State) :
    (readiLoop ip off left).wp (fun bytes _ => bytes.length = left ∧ (0 < left → off + left ≤ MAXBYTES))
      (fun _ => True) s := by
  induction hk : left using Nat.strong_induction_on generalizing off left s with
  | _ k ih =>
    subst hk
    unfold readiLoop
    by_cases hpos : 0 < left
    · rw [if_pos hpos]
      have hmod : off % BSIZE < BSIZE := Nat.mod_lt _ (by decide)
      generalize hm : min (BSIZE - off % BSIZE) left = m
      refine wp_seq (wp_bmap_range ip (off / BSIZE) s) fun bn _ hbn => ?_
      simp only [wp_bind, wp_gets, wp_lift, wp_pure]
      refine wp_any _ fun _ _ => wp_any _ fun _ _ => wp_any _ fun _ _ => ?_
      refine wp_post (ih (left - m) (by omega) (off + m) _ _ rfl) fun rest u hrest => ?_
      obtain ⟨hlen, hend⟩ := hrest
      refine ⟨by rw [List.length_append, List.length_map, List.length_range, hlen]; omega, fun _ => ?_⟩
      rw [Nat.div_lt_iff_lt_mul (by decide)] at hbn
      rcases Nat.eq_zero_or_pos (left - m) with hlast | hmore
      · -- the last block ends at a border
        unfold MAXBYTES NDIRECT NINDIRECT BSIZE at *
        omega
      · have := hend hmore
        omega
    · rw [if_neg hpos]
      exact ⟨(Nat.eq_zero_of_not_pos hpos).symm, fun h => absurd h hpos⟩

/-- How many bytes `readi` stores. -/
def readCount (size off n : UInt32) : Nat :=
  if off > size ∨ off + n < off then 0 else min n.toNat (size.toNat - off.toNat)

theorem wp_readi_count (ip : Fin NINODE) (off n : UInt32) (s : State) :
    (readi ip off n).wp (fun x _ => x.1 = x.2.length ∧ x.2.length = readCount (s.icache ip).din.size off n)
      (fun _ => True) s := by
  unfold readi readCount
  rw [wp_bind, wp_gets]
  by_cases hout : off > (s.icache ip).din.size ∨ off + n < off
  · simp only [if_pos hout]
    exact ⟨rfl, rfl⟩
  · simp only [if_neg hout]
    rw [not_or] at hout
    obtain ⟨hoff, hwrap⟩ := hout
    have hcut : (if off + n > (s.icache ip).din.size then (s.icache ip).din.size - off else n).toNat =
        min n.toNat ((s.icache ip).din.size.toNat - off.toNat) := by
      have hle := UInt32.le_iff_toNat_le.1 (UInt32.not_lt.1 hoff)
      by_cases hlt : off + n > (s.icache ip).din.size
      · have hlt' := UInt32.lt_iff_toNat_lt.1 hlt
        rw [u32_toNat_add hwrap] at hlt'
        rw [if_pos hlt, UInt32.toNat_sub_of_le _ _ (UInt32.not_lt.1 hoff)]
        omega
      · have hge := UInt32.le_iff_toNat_le.1 (UInt32.not_lt.1 hlt)
        rw [u32_toNat_add hwrap] at hge
        rw [if_neg hlt]
        omega
    refine wp_seq (wp_readiLoop_length ip off.toNat _ s) fun _ _ ⟨hlen, hend⟩ => ?_
    refine ⟨?_, hlen.trans hcut⟩
    rw [hlen]
    refine toInt_of_lt ?_
    by_contra hbig
    have := hend (by omega)
    unfold MAXBYTES NDIRECT NINDIRECT BSIZE at this
    omega

theorem wp_ilock_size (ip : Fin NINODE) (s : State) :
    (ilock ip).wp (fun _ t => (t.icache ip).din.size = lockedSize s ip) (fun _ => True) s := by
  rw [wp_iff]
  refine ⟨fun _ t hrun => ?_, fun _ _ => trivial⟩
  rw [lockedSize, exec, hrun]

theorem wp_fileread_count (f : Fin NFILE) (n : UInt32) (s : Files) :
    (fileread f n).wp (fun x _ => (s.ftable f).readable = false ∧ x = (-1, []) ∨
      (s.ftable f).readable = true ∧ ∃ ip, (s.ftable f).ip = some ip ∧ x.1 = x.2.length ∧
        x.2.length = readCount (lockedSize s.fs ip) (s.ftable f).off n) (fun _ => True) s := by
  unfold fileread
  rw [wp_bind, wp_gets]
  by_cases hr : (s.ftable f).readable = false
  · rw [if_pos hr]
    exact .inl ⟨hr, rfl⟩
  · rw [if_neg hr]
    unfold ilockPtr
    cases hip : (s.ftable f).ip with
    | none => trivial
    | some ip =>
        simp only [wp_bind, wp_liftFs, wp_pure]
        refine wp_post (wp_ilock_size ip s.fs) fun _ t hsize => ?_
        refine wp_post (wp_readi_count ip _ n t) fun x _ hx => ?_
        obtain ⟨r, bytes⟩ := x
        obtain ⟨hres, hlen⟩ := hx
        rw [hsize] at hlen
        have hdone : (s.ftable f).readable = true ∧ ∃ jp, some ip = some jp ∧ r = bytes.length ∧
            bytes.length = readCount (lockedSize s.fs jp) (s.ftable f).off n :=
          ⟨Bool.not_eq_false _ ▸ hr, ip, rfl, hres, hlen⟩
        split
        · simp only [wp_bind, wp_liftFs, wp_pure]
          exact wp_any _ fun _ _ => wp_any _ fun _ _ => .inr hdone
        · simp only [wp_bind, wp_liftFs, wp_pure]
          exact wp_any _ fun _ _ => .inr hdone

theorem wp_sysRead_count (s : Machine) (p : Fin NPROC) (a : Args) :
    (sysRead p a).wp (fun x _ => x = (-1, []) ∧ ¬ Overreads s p a ∨
      ∃ fd f ip, fdFile s p (argint a.a0) = some (fd, f) ∧ (s.files.ftable f).readable = true ∧
        (s.files.ftable f).ip = some ip ∧ x.1 = x.2.length ∧
        x.2.length = readCount (lockedSize s.files.fs ip) (s.files.ftable f).off (argint a.a2)) (fun _ => True) s := by
  unfold sysRead
  rw [wp_bind, wp_get]
  cases hfd : fdFile s p (argint a.a0) with
  | none =>
      refine .inl ⟨rfl, fun hover => ?_⟩
      obtain ⟨-, fd, f, ip, hsome, -⟩ := hover
      rw [hfd] at hsome
      exact absurd hsome (by simp)
  | some x =>
      obtain ⟨fd, f⟩ := x
      simp only [wp_liftFiles]
      refine wp_post (wp_fileread_count f _ s.files) fun x t h => ?_
      rcases h with ⟨hr, rfl⟩ | ⟨hr, ip, hip, hres, hlen⟩
      · refine .inl ⟨rfl, fun hover => ?_⟩
        obtain ⟨-, fd', f', ip, hsome, hr', -⟩ := hover
        rw [hfd] at hsome
        obtain ⟨-, rfl⟩ := Prod.mk.inj (Option.some.inj hsome)
        rw [hr] at hr'
        exact absurd hr' (by simp)
      · exact .inr ⟨fd, f, ip, rfl, hr, hip, hres, hlen⟩

/-- `readi` stores no more than the signed count, unless the count is negative and the unsigned one fits. -/
theorem readCount_le_asked {size off n : UInt32} :
    readCount size off n ≤ asked n ↔
      ¬ (n.toInt32.toInt < 0 ∧ off < size ∧ (off.toNat : Int) < -n.toInt32.toInt) := by
  have hn := n.toNat_lt
  unfold readCount
  simp only [u32_add_lt_iff]
  simp only [gt_iff_lt, UInt32.lt_iff_toNat_lt]
  by_cases hneg : n.toInt32.toInt < 0
  · have hge := toInt_neg_iff.1 hneg
    rw [asked_of_neg hneg, toInt_of_ge hge]
    split <;> omega
  · have hlt := mt toInt_neg_iff.2 hneg
    rw [asked_of_lt (by omega)]
    split <;> omega

end Read

/-! ## Writing -/

section Write
variable {s : State} {ip : Fin NINODE}

/-- The loop looks at the bytes it moves and at no other. -/
theorem writeiLoop_congr {src src' : Bytes} (ip : Fin NINODE) (pos off left : Nat)
    (h : ∀ i, pos ≤ i → i < pos + left → src i = src' i) :
    writeiLoop ip src pos off left = writeiLoop ip src' pos off left := by
  induction hk : left using Nat.strong_induction_on generalizing pos off left with
  | _ k ih =>
    subst hk
    rw [writeiLoop.eq_def ip src pos off left, writeiLoop.eq_def ip src' pos off left]
    by_cases hpos : 0 < left
    · rw [if_pos hpos, if_pos hpos]
      have hmod : off % BSIZE < BSIZE := Nat.mod_lt _ (by decide)
      dsimp only
      generalize hm : min (BSIZE - off % BSIZE) left = m
      have hblit : (fun d : Block => blit d (off % BSIZE) (fun i => src (pos + i)) m) =
          fun d => blit d (off % BSIZE) (fun i => src' (pos + i)) m := by
        funext d j
        unfold blit
        split
        · exact h _ (by omega) (by omega)
        · rfl
      rw [hblit, ih (left - m) (by omega) (pos + m) (off + m) _ (fun i hi hi' => h i (by omega) (by omega)) rfl]
    · rw [if_neg hpos, if_neg hpos]

/-- A negative count ends past the largest file, or wraps. -/
theorem refused_of_neg {off n : UInt32} (hneg : n.toInt32.toInt < 0) (hwrap : ¬ off + n < off) :
    off + n > UInt32.ofNat ((NDIRECT + NINDIRECT) * BSIZE) := by
  have hge := toInt_neg_iff.1 hneg
  have hsum := u32_toNat_add hwrap
  have hmax : (UInt32.ofNat ((NDIRECT + NINDIRECT) * BSIZE)).toNat = 274432 := by decide
  rw [gt_iff_lt, UInt32.lt_iff_toNat_lt, hsum, hmax]
  omega

theorem writei_congr {src src' : Bytes} (ip : Fin NINODE) (off n : UInt32) (h : ∀ i < asked n, src i = src' i) :
    writei ip src off n = writei ip src' off n := by
  unfold writei
  congr 1
  funext size
  by_cases hout : off > size ∨ off + n < off
  · rw [if_pos hout, if_pos hout]
  · rw [if_neg hout, if_neg hout]
    rw [not_or] at hout
    by_cases hneg : n.toInt32.toInt < 0
    · rw [if_pos (refused_of_neg hneg hout.2), if_pos (refused_of_neg hneg hout.2)]
    · have hlt := mt toInt_neg_iff.2 hneg
      rw [asked_of_lt (by omega)] at h
      rw [writeiLoop_congr ip 0 off.toNat n.toNat fun i _ hi => h i (by omega)]

theorem wp_writei_result (ip : Fin NINODE) (src : Bytes) (off n : UInt32) (s : State) :
    (writei ip src off n).wp (fun r t => r = -1 ∧ t = s ∨ ¬ n.toInt32.toInt < 0 ∧ r = n.toInt32.toInt)
      (fun _ => True) s := by
  unfold writei
  rw [wp_bind, wp_gets]
  split
  · exact .inl ⟨rfl, rfl⟩
  · rename_i hout
    rw [not_or] at hout
    split
    · exact .inl ⟨rfl, rfl⟩
    · rename_i hend
      have hres : ¬ n.toInt32.toInt < 0 := fun hneg => hend (refused_of_neg hneg hout.2)
      simp only [wp_bind, wp_gets]
      refine wp_any _ fun _ t => ?_
      split
      · rw [wp_bind, wp_modify, wp_bind]
        exact wp_any _ fun _ _ => .inr ⟨hres, rfl⟩
      · exact .inr ⟨hres, rfl⟩

theorem wp_bread_disk (dev blockno : Nat) (d : Dev) :
    (bread dev blockno).wp (fun _ t => t.disk = d.disk) (fun _ => True) d := by
  unfold bread bget virtioDiskRw
  simp only [wp_bind, wp_get, wp_gets]
  split
  · trivial
  · simp only [wp_bind, wp_modify, wp_pure]
    split <;> rfl
  · split
    · trivial
    · simp only [wp_bind, wp_modify, wp_pure]
      split <;> rfl
    · trivial

theorem wp_brelse_disk (b : Fin NBUF) (d : Dev) :
    (brelse b).wp (fun _ t => t.disk = d.disk) (fun _ => True) d := by
  unfold brelse
  simp only [wp_bind, wp_modify, wp_gets]
  split <;> rfl

/-- Locking an inode changes neither the disk nor the inodes that are valid. -/
theorem wp_ilock_same (ip : Fin NINODE) (s : State) :
    (ilock ip).wp (fun _ t => t.dev.disk = s.dev.disk ∧ ∀ jp, (s.icache jp).valid = true → t.icache jp = s.icache jp)
      (fun _ => True) s := by
  unfold ilock
  rw [wp_bind, wp_get]
  dsimp only
  split
  · trivial
  · split
    · exact ⟨rfl, fun _ _ => rfl⟩
    · rename_i hvalid
      simp only [wp_bind, wp_lift, wp_modify, wp_gets, load]
      refine wp_post (wp_bread_disk _ _ s.dev) fun b d hd => wp_post (wp_brelse_disk b d) fun _ u hu => ?_
      split
      · trivial
      · refine ⟨hu.trans hd, fun jp hjp => ?_⟩
        have hne : jp ≠ ip := by
          rintro rfl
          exact hvalid hjp
        exact (State.setInode_of_ne hne _ _).trans (State.setInode_of_ne hne _ _)

/-- A write returns -1 or its count, which is then not negative, and a negative count changes nothing. -/
theorem wp_filewrite_result (f : Fin NFILE) (src : Bytes) (n : UInt32) (s : Files) :
    (filewrite f src n).wp (fun r t => r = -1 ∧ SameFiles s t ∨ ¬ n.toInt32.toInt < 0 ∧ r = n.toInt32.toInt)
      (fun _ => True) s := by
  unfold filewrite
  rw [wp_bind, wp_gets]
  split
  · exact .inl ⟨rfl, rfl, fun _ _ => rfl, rfl⟩
  · unfold ilockPtr
    cases hip : (s.ftable f).ip with
    | none => trivial
    | some ip =>
        simp only [wp_bind, wp_liftFs, wp_pure]
        refine wp_post (wp_ilock_same ip s.fs) fun _ t hsame => ?_
        obtain ⟨hdisk, hinodes⟩ := hsame
        refine wp_post (wp_writei_result ip src _ n t) fun r u hr => ?_
        unfold iunlock
        rcases hr with ⟨rfl, rfl⟩ | ⟨hneg, rfl⟩
        · rw [if_neg (by omega)]
          simp only [wp_bind, wp_liftFs, wp_pure, wp_gets]
          split
          · trivial
          · exact .inl ⟨trivial, hdisk, hinodes, rfl⟩
        · split
          · simp only [wp_bind, wp_modify, wp_liftFs, wp_pure, wp_gets]
            split
            · trivial
            · exact .inr ⟨hneg, trivial⟩
          · simp only [wp_bind, wp_liftFs, wp_pure, wp_gets]
            split
            · trivial
            · exact .inr ⟨hneg, trivial⟩

theorem filewrite_congr {src src' : Bytes} (f : Fin NFILE) (n : UInt32) (h : ∀ i < asked n, src i = src' i) :
    filewrite f src n = filewrite f src' n := by
  unfold filewrite
  simp only [writei_congr _ _ n h]

theorem writeWithin {s : Machine} {p : Fin NPROC} {a : Args} (hfile : ¬ ToConsole s p a) : WriteWithin s p a := by
  unfold ToConsole at hfile
  have hcall : (sysWrite p a).wp (fun r t => r = -1 ∧ SameFiles s.files t.files ∧ t.proc = s.proc ∨
      ¬ (argint a.a2).toInt32.toInt < 0 ∧ r = (argint a.a2).toInt32.toInt) (fun _ => True) s := by
    unfold sysWrite
    rw [wp_bind, wp_get]
    dsimp only
    rw [if_neg hfile]
    split
    · exact .inl ⟨rfl, ⟨rfl, fun _ _ => rfl, rfl⟩, rfl⟩
    · rw [wp_liftFiles]
      refine wp_post (wp_filewrite_result _ _ _ s.files) fun r t hr => ?_
      exact hr.imp (fun ⟨hr, ht⟩ => ⟨hr, ht, rfl⟩) id
  refine ⟨fun r t hrun => ?_, fun mem hmem => ?_, fun hneg r t hrun => ?_⟩
  · refine (wp_ok hcall hrun).imp (fun h => h.1) fun ⟨hpos, hr⟩ => ?_
    rw [asked, hr]
    omega
  · unfold sysWrite
    rw [run_bind, run_bind]
    dsimp only [Prog.get, Prog.run, id]
    rw [if_neg hfile, if_neg hfile]
    split
    · rfl
    · rw [filewrite_congr _ _ hmem]
  · exact (wp_ok hcall hrun).resolve_right fun h => h.1 hneg

end Write

/-! ## The counts of a call -/

/-- In the states of a run, the size is that on the disk. -/
theorem lockedSize_eq {s : Files} {f : Fin NFILE} {ip : Fin NINODE} (h : Sound s) (hip : (s.ftable f).ip = some ip) :
    lockedSize s.fs ip = (fileDinode s ip).size := by
  have hlock : (ilock ip).wp (fun _ t => (t.icache ip).din.size = (fileDinode s ip).size) (fun _ => False) s.fs := by
    refine h.fs.wp_ilock (openRefs_pos hip) fun t ht hst hv => ?_
    rw [ht.clean ip hv, hst.sb, hst.disk, hst.inum ip (openRefs_pos hip)]
    rfl
  obtain ⟨_, t, hrun, hsize⟩ := wp_total hlock
  rw [lockedSize, exec, hrun]
  exact hsize

/-- **A read stays within its count unless it is given a negative one that reaches into the file**, and a write to a
file stays within its count. -/
theorem read_within_iff (s : Machine) (p : Fin NPROC) (a : Args) :
    (∀ r bytes t, (sysRead p a).run s = .ok ((r, bytes), t) →
      (Within (argint a.a2) r bytes ↔ ¬ Overreads s p a)) ∧
    (Sound s.files → ∀ f ip, (s.files.ftable f).ip = some ip →
      lockedSize s.files.fs ip = (fileDinode s.files ip).size) ∧
    (¬ ToConsole s p a → WriteWithin s p a) := by
  refine ⟨fun r bytes t hrun => ?_, fun hs f ip hip => lockedSize_eq hs hip, writeWithin⟩
  rcases wp_ok (wp_sysRead_count s p a) hrun with ⟨hfail, hno⟩ | ⟨fd, f, ip, hfd, hr, hip, hres, hlen⟩
  · obtain ⟨rfl, rfl⟩ := Prod.mk.inj hfail
    exact ⟨fun _ => hno, fun _ => ⟨.inl rfl, Nat.zero_le _⟩⟩
  · dsimp only at hres hlen
    have hcount : Within (argint a.a2) r bytes ↔ bytes.length ≤ asked (argint a.a2) :=
      ⟨fun h => h.stored, fun h => ⟨.inr (by omega), h⟩⟩
    have hover : Overreads s p a ↔ (argint a.a2).toInt32.toInt < 0 ∧
        (s.files.ftable f).off < lockedSize s.files.fs ip ∧
        ((s.files.ftable f).off.toNat : Int) < -(argint a.a2).toInt32.toInt := by
      constructor
      · rintro ⟨hneg, fd', f', ip', hfd', -, hip', hoff, hlt⟩
        obtain ⟨-, rfl⟩ := Prod.mk.inj (Option.some.inj (hfd.symm.trans hfd'))
        obtain rfl : ip = ip' := Option.some.inj (hip.symm.trans hip')
        exact ⟨hneg, hoff, hlt⟩
      · rintro ⟨hneg, hoff, hlt⟩
        exact ⟨hneg, fd, f, ip, hfd, hr, hip, hoff, hlt⟩
    rw [hcount, hover, hlen]
    exact readCount_le_asked

/-- The arguments of `read(0, addr, n)`. -/
def readZero (n : UInt32) : Args := { a0 := 0, a1 := 0, a2 := n.toUInt64, mem := fun _ => 0 }

/-- Init reads 20 bytes of the root directory. -/
theorem read_within_opened : ∃ bytes t, (sysRead init (readZero 20)).run initOpened = .ok ((20, bytes), t) ∧
    Within 20 20 bytes := by
  obtain ⟨⟨r, bytes⟩, hrun⟩ := run_exec (p := sysRead init (readZero 20)) (s := initOpened) (by decide +kernel)
  have hr : ((sysRead init (readZero 20)).run initOpened).toOption.map (·.1.1) = some 20 := by decide +kernel
  obtain rfl : r = 20 := by simpa [hrun, Except.toOption] using hr
  exact ⟨bytes, _, hrun, ((read_within_iff _ _ _).1 _ _ _ hrun).2 fun h => absurd h.1 (by decide)⟩

/-- Init reads -1 bytes of the root directory, and gets 32. -/
theorem read_within_fails : ∃ s bytes t, Reach Booted (Step fun _ _ => True) s ∧ (s.proc init).status = .running ∧
    (sysRead init (readZero 0xffffffff)).run s = .ok ((32, bytes), t) ∧ (0xffffffff : UInt32).toInt32.toInt = -1 ∧
    ¬ Within 0xffffffff 32 bytes := by
  obtain ⟨⟨r, bytes⟩, hrun⟩ := run_exec (p := sysRead init (readZero 0xffffffff)) (s := initOpened) (by decide +kernel)
  have hr : ((sysRead init (readZero 0xffffffff)).run initOpened).toOption.map (·.1.1) = some 32 := by decide +kernel
  obtain rfl : r = 32 := by simpa [hrun, Except.toOption] using hr
  refine ⟨initOpened, bytes, _, reach_initOpened _, by decide +kernel, hrun, by decide, fun h => ?_⟩
  exact absurd h.result (by decide)

end RiscvOsLab.Kernel
