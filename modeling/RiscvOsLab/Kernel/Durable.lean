import RiscvOsLab.Kernel.Sound

/-!
# What is on the disk between calls

* `structural_reach` : after any calls on files the structure of the file system is sound, reading does not change the
  disk, and `bmap` never runs out of range;
* `durable_reach` : the caches say what the disk says, so that a kernel that is started again over the disk finds the
  same files.
-/

namespace RiscvOsLab.Kernel

open Prog Function Bytes
open RiscvOsLab.Fs

/-- No call changes the superblock in memory. -/
theorem CallEffect.sb {s t : Machine} {p : Fin NPROC} {a : Args} {c : FileCall} {r : Int × List UInt8}
    (h : CallEffect s p a c r t) : t.files.fs.sb = s.files.fs.sb := by
  have hmoved (u : Files) (f : Fin NFILE) (k : Int) : (moved u f k).fs = u.fs := by
    unfold moved
    split <;> rfl
  cases h with
  | openFailed hsame => exact hsame.sb
  | opened hsame => exact hsame.sb
  | unopened => rfl
  | console => rfl
  | readDenied => rfl
  | read hfd hr hip hst =>
      show (moved _ _ _).fs.sb = _
      rw [hmoved]
      exact hst.sb
  | writeDenied => rfl
  | writeRefused hfd hw hip hst => exact hst.sb
  | written hfd hw hip hslots =>
      show (moved _ _ _).fs.sb = _
      rw [hmoved]
      exact hslots.sb
  | closed hfd hv hst => exact hst.sb

section Reached
variable {total : Nat} {img : Mkfs.State} {s : Machine}

theorem sb_reach (hm : Mkfs.Makes total img) (h : Reach (FileStart img.blocks) FileStep s) :
    s.files.fs.sb = Mkfs.superblock total := by
  refine h.invariant_of_reach (fun s => s.files.fs.sb = Mkfs.superblock total)
    (fun s hs => (sound_start hm hs).2.1) fun s t hr hs hst => ?_
  obtain ⟨p, a, c, r, hrun⟩ := hst
  exact (effect_of_run (soundFiles_reach hm hr) hrun).sb.trans hs

/-- A read leaves the disk as it is. -/
theorem disk_of_read {t : Machine} {p : Fin NPROC} {a : Args} {r : Int × List UInt8}
    (h : CallEffect s p a .read r t) : t.files.fs.dev.disk = s.files.fs.dev.disk := by
  cases h with
  | unopened => rfl
  | readDenied => rfl
  | read hfd hr hip hst =>
      unfold moved
      split
      · exact hst.disk
      · exact hst.disk

/-- Between calls the blocks of the files are marked data blocks, all different, and as many as the sizes say; a read
allocates nothing, and no call finds a block out of range. -/
theorem structural_reach (hm : Mkfs.Makes total img) (hbytes : 8 ∣ total)
    (h : Reach (FileStart img.blocks) FileStep s) :
    let sb := Mkfs.superblock total
    let D := s.files.fs.dev.disk
    let T := dinodeOf sb D
    s.files.fs.sb = sb ∧
    (∀ i j, Used sb T i → j < SLOTS → slotVal D (T i) j ≠ 0 →
      nmeta sb ≤ slotVal D (T i) j ∧ slotVal D (T i) j < total ∧ marked sb D (slotVal D (T i) j) = true) ∧
    (∀ i j i' j', Used sb T i → j < SLOTS → Used sb T i' → j' < SLOTS → slotVal D (T i) j ≠ 0 →
      slotVal D (T i) j = slotVal D (T i') j' → i = i' ∧ j = j') ∧
    (∀ i, Used sb T i → (T i).size.toNat ≤ 268 * 1024) ∧
    (∀ i bn, Used sb T i → bn < NDIRECT + NINDIRECT →
      (slotVal D (T i) (slotOf bn) ≠ 0 ↔ bn < nblk (T i).size.toNat)) ∧
    (∀ i, Used sb T i → (slotVal D (T i) NDIRECT ≠ 0 ↔ 12 < nblk (T i).size.toNat)) ∧
    (∀ p a r t, (fileCall p a .read).run s = .ok (r, t) → t.files.fs.dev.disk = D) ∧
    ∀ p a c, (fileCall p a c).run s ≠ .error (.panic "bmap: out of range") := by
  intro sb D T
  have hsound := soundFiles_reach hm h
  have hsb : s.files.fs.sb = sb := sb_reach hm h
  have hstruct : Structural sb D T := by
    have hdisk := hsound.fs.disk.structural
    rw [hsb] at hdisk
    exact hdisk
  have hsize : mapSize sb.size = total := mapSize_of_dvd hbytes
  refine ⟨hsb, fun i j hi hj h0 => ?_, hstruct.once, hstruct.sizes, hstruct.mapped, hstruct.indirect,
    fun p a r t hrun => disk_of_read (effect_of_run hsound hrun), fun p a c hrun => ?_⟩
  · rw [← hsize]
    exact hstruct.inArea i j hi hj h0
  · have hcall := sound_fileCall (E := fun h => h ≠ .panic "bmap: out of range") hsound a c (p := p) fun msg hmsg hp =>
      hmsg (Halt.panic.inj hp)
    exact ((wp_iff _).1 hcall).2 _ hrun rfl

/-- The default image: before the first call. -/
theorem structural_default : ∃ img s, Mkfs.Makes 1000 img ∧ Reach (FileStart img.blocks) FileStep s ∧
    s.files.fs.sb = Mkfs.superblock 1000 := by
  obtain ⟨img, hm, -⟩ := Mkfs.makes 1000 (by unfold Mkfs.NoImage Mkfs.nmeta; decide)
  obtain ⟨s, hs⟩ := fileStart hm
  exact ⟨img, s, hm, .start hs, (structural_reach hm (by decide) (.start hs)).1⟩

/-! ## Started again -/

/-- What `namei` and `readi` find: the type and the size of the inode, and the bytes read. -/
def look (path : List UInt8) (off n : UInt32) : Prog State (Option (UInt16 × UInt32 × Int × List UInt8)) := do
  match ← namei path with
  | none => return none
  | some ip =>
      ilock ip
      let din ← gets fun s => (s.icache ip).din
      let (r, bytes) ← readi ip off n
      return some (din.type, din.size, r, bytes)

/-- `look` as a function of the disk. -/
def lookAt (sb : Superblock) (D : Nat → Block) (path : List UInt8) (off n : UInt32) :
    Option (UInt16 × UInt32 × Int × List UInt8) :=
  (Fs.walk sb D false path fun _ => 0).1.map fun inum =>
    ((dinodeOf sb D inum).type, (dinodeOf sb D inum).size, (readAt D (dinodeOf sb D inum) off n).1,
      (readAt D (dinodeOf sb D inum) off n).2)

theorem wp_look {s : State} {refs : Fin NINODE → Nat} {E : Halt → Prop} (h : FsInv s refs) (path : List UInt8)
    (off n : UInt32) (hE : E (.panic "iget: no inodes") ∨ ∃ a b, a ≠ b ∧ refs a = 0 ∧ refs b = 0) :
    (look path off n).wp (fun v _ => v = lookAt s.sb s.dev.disk path off n) E s := by
  unfold look namei
  simp only [wp_bind]
  refine h.wp_namex false path _ hE (fun name hw t _ _ => ?_) fun inum name hw ip t ht hst hi => ?_
  · show none = lookAt _ _ _ _ _
    unfold lookAt
    rw [hw]
    rfl
  · simp only [wp_pure, wp_bind, wp_gets]
    refine ht.wp_ilock (hold_pos refs ip) fun u hu hst' hv => ?_
    have hinum : (u.icache ip).inum = inum := (hst'.inum ip (hold_pos refs ip)).trans hi
    have hdin : (u.icache ip).din = dinodeOf s.sb s.dev.disk inum := by
      rw [hu.clean ip hv, hst'.sb, hst'.disk, hst.sb, hst.disk, hinum]
    refine hu.wp_readi hv fun v _ _ _ => ?_
    rw [hdin, hst'.sb, hst'.disk, hst.sb, hst.disk, hinum]
    unfold lookAt
    rw [hw]
    rfl

/-- A kernel over a sound disk, right after `fsinit`. -/
theorem fsInv_of_fileStart {D : Nat → Block} {sb : Superblock} (hok : DiskOk sb D) (h : FileStart D s) :
    FsInv s.files.fs (fun _ => 0) ∧ s.files.fs.sb = sb ∧ s.files.fs.dev.disk = D := by
  obtain ⟨m, hm₀, hdev⟩ : ∃ m : Machine, m = Machine.image D 0 ∧ m.files.fs.dev = Dev.boot D := ⟨_, rfl, rfl⟩
  have hrun := h.fs
  rw [← hm₀] at hrun
  have hsuper := hok.structural.super
  have hmagic : (sbAt (D 1)).magic = FSMAGIC := by
    rw [hsuper]
    exact hok.structural.geo.magic
  have hmount := wp_mount hdev hmagic
  obtain ⟨hidle, hdisk, hsb, hrefs⟩ := wp_ok hmount hrun
  exact ⟨fsInv_of_mount hidle hdisk hsb hrefs (hsuper.symm ▸ hok), hsb.trans hsuper, hdisk⟩

/-- Between calls every valid buffer is its block and every valid inode is its dinode; and a kernel started again over
the disk finds for every path what this one finds, which may only fail for want of a free slot of `icache`. -/
theorem durable_reach (hm : Mkfs.Makes total img) (h : Reach (FileStart img.blocks) FileStep s) :
    (∀ b, (s.files.fs.dev.buf b).valid = true →
      (s.files.fs.dev.buf b).data = s.files.fs.dev.disk (s.files.fs.dev.buf b).blockno) ∧
    (∀ ip, (s.files.fs.icache ip).valid = true →
      (s.files.fs.icache ip).din = dinodeOf s.files.fs.sb s.files.fs.dev.disk (s.files.fs.icache ip).inum) ∧
    ∀ s', FileStart s.files.fs.dev.disk s' → ∀ path off n, ∃ v,
      (∃ t, (look path off n).run s'.files.fs = .ok (v, t)) ∧
      ((∃ t, (look path off n).run s.files.fs = .ok (v, t)) ∨
        (look path off n).run s.files.fs = .error (.panic "iget: no inodes")) := by
  have hsound := soundFiles_reach hm h
  refine ⟨fun b hb => hsound.fs.idle.data hb, fun ip hv => hsound.fs.clean ip hv, fun s' hs' path off n => ?_⟩
  obtain ⟨hinv, hsb, hdisk⟩ := fsInv_of_fileStart hsound.fs.disk hs'
  -- the kernel that was started again has all its slots
  have hagain := wp_look (E := fun _ => False) hinv path off n (.inr ⟨⟨0, by decide⟩, ⟨1, by decide⟩, by decide, rfl, rfl⟩)
  obtain ⟨v, t, hrun, hv⟩ := wp_total hagain
  have hhere := wp_look (E := fun h => h = .panic "iget: no inodes") hsound.fs path off n (.inl rfl)
  rw [hsb, hdisk] at hv
  refine ⟨v, ⟨t, hrun⟩, ?_⟩
  cases hrun' : (look path off n).run s.files.fs with
  | ok r =>
      have heq : r.1 = lookAt s.files.fs.sb s.files.fs.dev.disk path off n := wp_ok hhere hrun'
      refine .inl ⟨r.2, ?_⟩
      rw [hv, ← heq]
  | error e =>
      have heq := ((wp_iff _).1 hhere).2 e hrun'
      exact .inr (by rw [heq])

theorem durable_default : ∃ img s s', Mkfs.Makes 1000 img ∧ Reach (FileStart img.blocks) FileStep s ∧
    FileStart s.files.fs.dev.disk s' ∧ ∃ v t, (look [slash] 0 32).run s'.files.fs = .ok (v, t) := by
  obtain ⟨img, hm, -⟩ := Mkfs.makes 1000 (by unfold Mkfs.NoImage Mkfs.nmeta; decide)
  obtain ⟨s, hs⟩ := fileStart hm
  obtain ⟨-, -, hdisk⟩ := sound_start hm hs
  have hagain : FileStart s.files.fs.dev.disk s := by
    rw [hdisk]
    exact hs
  obtain ⟨-, -, hlook⟩ := durable_reach hm (.start hs)
  obtain ⟨v, ⟨t, hrun⟩, -⟩ := hlook s hagain [slash] 0 32
  exact ⟨img, s, s, hm, .start hs, hagain, v, t, hrun⟩

end Reached

end RiscvOsLab.Kernel
