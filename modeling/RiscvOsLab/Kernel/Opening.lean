import RiscvOsLab.Fs.Create
import RiscvOsLab.Kernel.Sysfile

/-!
# What `sys_open` finds

`openResult` is the search of `sys_open` as a function of the disk: nothing, an inode, or the directory and the name of
a file to be made. `wp_openInode` says that the part of `sys_open` before the tables follows it and keeps the invariant
of the file system.
-/

namespace RiscvOsLab.Kernel

open Prog Function Bytes
open RiscvOsLab.Fs

inductive OpenResult where
  | missing
  | found (inum : Nat)
  | create (dir : Nat) (name : Bytes)

/-- Where a path leads for this `omode`. -/
def openResult (sb : Superblock) (D : Nat → Block) (path : List UInt8) (omode : UInt32) : OpenResult :=
  if omode &&& O_CREAT ≠ 0 then
    match walk sb D true path fun _ => 0 with
    | (none, _) => .missing
    | (some dir, name) =>
        match lookup D (dinodeOf sb D dir) name with
        | some inum =>
            if (dinodeOf sb D inum).type = T_DIR ∨ (dinodeOf sb D inum).type = T_DEVICE then .missing
            else .found inum
        | none => .create dir name
  else
    match walk sb D false path fun _ => 0 with
    | (none, _) => .missing
    | (some inum, _) => if (dinodeOf sb D inum).type = T_DIR ∧ omode ≠ 0 then .missing else .found inum

theorem used_of_found {sb : Superblock} {D : Nat → Block} (h : DiskOk sb D) {path : List UInt8} {omode : UInt32}
    {inum : Nat} (hr : openResult sb D path omode = .found inum) : Used sb (dinodeOf sb D) inum := by
  unfold openResult at hr
  split at hr
  · split at hr
    · exact absurd hr (by simp)
    · rename_i dir name hw
      split at hr
      · rename_i i hl
        split at hr
        · exact absurd hr (by simp)
        · rw [← OpenResult.found.inj hr]
          exact h.used_of_lookup (h.used_of_walkFrom h.root hw) (type_of_walkFrom hw) hl
      · exact absurd hr (by simp)
  · split at hr
    · exact absurd hr (by simp)
    · rename_i i name hw
      split at hr
      · exact absurd hr (by simp)
      · rw [← OpenResult.found.inj hr]
        exact h.used_of_walkFrom h.root hw

/-- A file is made: a free dinode is taken, and its entry written into the directory. -/
structure Created (sb : Superblock) (D D' : Nat → Block) (dir : Nat) (name : Bytes) (inum : Nat) : Prop where
  made : ∃ D₁ off, Allotted sb D D₁ inum T_FILE ∧ Vacant D₁ (dinodeOf sb D₁ dir) off ∧
    Spliced sb D₁ D' dir (mkDirent (UInt16.ofNat inum) name) off DIRENT
  parent : Used sb (dinodeOf sb D) dir ∧ (dinodeOf sb D dir).type = T_DIR
  fresh : lookup D (dinodeOf sb D dir) name = none

/-! ## Room for a new file -/

/-- The slots of `icache` without references. -/
def spare (refs : Fin NINODE → Nat) : Nat := (Finset.univ.filter fun jp => refs jp = 0).card

theorem spare_le_hold (refs : Fin NINODE → Nat) (ip : Fin NINODE) : spare refs ≤ spare (hold refs ip) + 1 := by
  unfold spare
  refine le_trans (Finset.card_le_card fun jp hjp => ?_) (Finset.card_insert_le ip _)
  rw [Finset.mem_insert, Finset.mem_filter]
  by_cases hne : jp = ip
  · exact .inl hne
  · refine .inr ⟨Finset.mem_univ _, ?_⟩
    unfold hold
    rw [update_of_ne hne]
    exact (Finset.mem_filter.1 hjp).2

theorem exists_spare {refs : Fin NINODE → Nat} (h : 0 < spare refs) : ∃ jp, refs jp = 0 := by
  obtain ⟨jp, hjp⟩ := Finset.card_pos.1 h
  exact ⟨jp, (Finset.mem_filter.1 hjp).2⟩

theorem exists_two_spare {refs : Fin NINODE → Nat} (h : 1 < spare refs) : ∃ a b, a ≠ b ∧ refs a = 0 ∧ refs b = 0 := by
  obtain ⟨a, ha, b, hb, hne⟩ := Finset.one_lt_card.1 h
  exact ⟨a, b, hne, (Finset.mem_filter.1 ha).2, (Finset.mem_filter.1 hb).2⟩

/-- What it takes to make a file: slots, a dinode, blocks, and directories that can grow. -/
structure Room (s : State) (refs : Fin NINODE → Nat) : Prop where
  slots : 2 < spare refs
  inode : ∃ i, 1 ≤ i ∧ i < s.sb.ninodes ∧ (dinodeOf s.sb s.dev.disk i).type = 0
  blocks : 2 ≤ freeBlocks s
  dirs : ∀ k, Used s.sb (dinodeOf s.sb s.dev.disk) k → (dinodeOf s.sb s.dev.disk k).type = T_DIR →
    (dinodeOf s.sb s.dev.disk k).size.toNat + DIRENT ≤ MAXBYTES

section Open
variable {s : State} {refs : Fin NINODE → Nat} {E : Halt → Prop}

/-- A directory does not change when an inode is taken. -/
theorem lookup_allotted {sb : Superblock} {D D' : Nat → Block} {i dir : Nat} {type : UInt16} (hd : DirOk sb D dir)
    (hu : Used sb (dinodeOf sb D) dir) (ha : Allotted sb D D' i type) (name : Bytes) (off : Nat) (hoff : DIRENT ∣ off) :
    lookupFrom D' (dinodeOf sb D' dir) name off = lookupFrom D (dinodeOf sb D dir) name off := by
  have hdin := ha.inode_old hu
  induction hk : (dinodeOf sb D dir).size.toNat - off using Nat.strong_induction_on generalizing off with
  | _ k ih =>
    unfold lookupFrom
    rw [hdin]
    by_cases hlt : off < (dinodeOf sb D dir).size.toNat
    · have hentry := ha.direntAt_old hu (dirent_end hd.size hoff hlt)
      have hnext := ih _ (by unfold DIRENT at *; omega) (off + DIRENT) (Nat.dvd_add hoff (Nat.dvd_refl _)) rfl
      rw [hdin] at hentry hnext
      rw [if_pos hlt, if_pos hlt, hentry, hnext]
    · rw [if_neg hlt, if_neg hlt]

theorem wp_openInode (h : FsInv s refs) (path : List UInt8) (omode : UInt32)
    (hE : (∀ msg, msg ≠ "bmap: out of range" → E (.panic msg)) ∨ Room s refs) {Q : Option (Fin NINODE) → State → Prop}
    (hmissing : openResult s.sb s.dev.disk path omode = .missing → ∀ t, FsInv t refs → Still refs s t → Q none t)
    (hfound : ∀ inum, openResult s.sb s.dev.disk path omode = .found inum → ∀ ip t, FsInv t (hold refs ip) →
      Still refs s t → (t.icache ip).inum = inum → (t.icache ip).valid = true → Q (some ip) t)
    (hcreate : ∀ dir name, openResult s.sb s.dev.disk path omode = .create dir name → ∀ inum ip t,
      Created s.sb s.dev.disk t.dev.disk dir name inum → FsInv t (hold refs ip) → Slots refs s t →
      (t.icache ip).inum = inum → (t.icache ip).valid = true → Q (some ip) t) :
    (openInode path omode).wp Q E s := by
  unfold openInode
  unfold openResult at hmissing hfound hcreate
  have htwo : E (.panic "iget: no inodes") ∨ ∃ a b, a ≠ b ∧ refs a = 0 ∧ refs b = 0 :=
    hE.imp (fun hE => hE _ (by decide)) fun hroom => exists_two_spare (by have := hroom.slots; omega)
  by_cases hcreat : omode &&& O_CREAT ≠ 0
  · rw [if_pos hcreat] at hmissing hfound hcreate ⊢
    rw [wp_bind]
    refine h.wp_namex true path _ htwo (fun name hw t ht hst => ?_) fun dir name hw ip t ht hst hdir => ?_
    · rw [hw] at hmissing
      exact hmissing rfl t ht hst
    · rw [hw] at hmissing hfound hcreate
      have hdirtype : (dinodeOf s.sb s.dev.disk dir).type = T_DIR := type_of_walkFrom hw
      have hip := hold_pos refs ip
      simp only at hmissing hfound hcreate
      simp only [wp_bind]
      refine ht.wp_ilock hip fun u hu hst' hv => ?_
      have hall := hst.trans hst'.of_hold
      have hinum : (u.icache ip).inum = dir := (hst'.inum ip hip).trans hdir
      have hdin : (u.icache ip).din = dinodeOf s.sb s.dev.disk dir := by
        rw [hu.clean ip hv, hall.sb, hall.disk, hinum]
      have hused : Used s.sb (dinodeOf s.sb s.dev.disk) dir := by
        have hlive := (hu.live ip hip).2
        rwa [hall.sb, hall.disk, hinum] at hlive
      have hone : E (.panic "iget: no inodes") ∨ ∃ jp, hold refs ip jp = 0 :=
        hE.imp (fun hE => hE _ (by decide)) fun hroom => exists_spare (by
          have := hroom.slots
          have := spare_le_hold refs ip
          omega)
      refine hu.wp_dirlookup name hv (by rw [hdin, hdirtype]) hone (fun hl v hv' hst'' => ?_)
        fun inum hl next v hv' hst'' hi => ?_ <;> rw [hall.sb, hall.disk, hinum] at hl <;>
        rw [hl] at hmissing hfound hcreate
      · -- a new file
        have hstill := hall.trans hst''.of_hold
        have hdev := (hv'.live ip hip).1
        have hvalid := hst''.valid ip hip hv
        have hinum' : (v.icache ip).inum = dir := (hst''.inum ip hip).trans hinum
        simp only [wp_bind, wp_gets]
        rw [hdev]
        refine hv'.wp_ialloc (by decide) (hE.imp (fun hE => hE _ (by decide)) fun hroom => ?_) hone
          fun next w j hw' hslots hj ha => ?_
        · rw [hstill.sb, hstill.disk]
          exact hroom.inode
        have hip' := hip.trans_le (le_hold (hold refs ip) next ip)
        have hinum'' : (w.icache ip).inum = dir := (hslots.inum ip hip).trans hinum'
        have hvalid' := hslots.valid ip hip hvalid
        have hsb : w.sb = s.sb := hslots.sb.trans hstill.sb
        rw [hstill.sb, hstill.disk] at ha
        have hne : dir ≠ j := fun he => ha.free (he ▸ hused)
        have hdir' : dinodeOf w.sb w.dev.disk dir = dinodeOf s.sb s.dev.disk dir := by
          rw [hsb, ha.others dir hne]
        have hnone : lookup w.dev.disk (dinodeOf w.sb w.dev.disk (w.icache ip).inum) name = none := by
          rw [hinum'', hsb, ← hl]
          exact lookup_allotted (h.disk.dirs dir hused hdirtype) hused ha name 0 (Nat.dvd_zero _)
        have htype : (w.icache ip).din.type = T_DIR := by
          rw [hw'.clean ip hvalid', hinum'', hdir', hdirtype]
        have hnew : Used w.sb (dinodeOf w.sb w.dev.disk) j := by
          rw [hsb]
          exact (ha.used (by decide) j).2 (.inr rfl)
        rw [hj]
        refine hw'.wp_dirlink hvalid' htype name hnew (hE.imp (fun hE => hE _ (by decide)) fun hroom => ?_)
          (hE.imp (fun hE => hE _ (by decide)) fun hroom => ?_) (hE.imp (fun hE => hE _ (by decide)) fun hroom => ?_)
          (fun k hk => ?_) fun _ x off hvac hx hslots' hsplice => ?_
        · refine exists_spare ?_
          have hlt := hroom.slots
          have hfirst := spare_le_hold refs ip
          have hsecond := spare_le_hold (hold refs ip) next
          omega
        · have hsame : freeBlocks w = freeBlocks s := by
            unfold freeBlocks
            rw [hsb]
            exact unmarked_congr ha.map
          rw [hsame]
          exact hroom.blocks
        · rw [hinum'', hdir']
          exact hroom.dirs dir hused hdirtype
        · rw [hnone] at hk
          exact absurd hk (by simp)
        · rw [if_neg (by decide)]
          simp only [wp_bind, wp_pure]
          refine hx.wp_iunlock hip' ?_
          rw [hold_comm] at hx
          refine hx.wp_iput fun y hy hst₃ => ?_
          refine hy.wp_ilock (hold_pos refs next) fun z hz hst₄ hvz => ?_
          rw [hinum'', hsb] at hvac hsplice
          have hdisk : z.dev.disk = x.dev.disk := hst₄.disk.trans hst₃.disk
          refine hcreate dir name rfl j next z ⟨⟨w.dev.disk, off, ha, hvac, ?_⟩, ⟨hused, hdirtype⟩, hl⟩ hz ?_ ?_ hvz
          · rw [hdisk]
            exact hsplice
          · have hone := (hstill.slots.trans hslots.of_hold).trans hslots'.of_hold.of_hold
            exact (hone.trans hst₃.of_hold.slots).trans hst₄.of_hold.slots
          · have hn := hold_pos refs next
            rw [hst₄.inum next hn, hst₃.inum next hn, hslots'.inum next (hold_pos _ next), hj]
      · -- the file is there
        have hstill := hall.trans hst''.of_hold
        simp only [wp_bind]
        refine hv'.wp_iunlock (hip.trans_le (le_hold _ _ _)) ?_
        rw [hold_comm] at hv'
        refine hv'.wp_iput fun w hw' hst₃ => ?_
        refine hw'.wp_ilock (hold_pos refs next) fun x hx hst₄ hvx => ?_
        have hn := hold_pos refs next
        have hinum' : (x.icache next).inum = inum := by
          rw [hst₄.inum next hn, hst₃.inum next hn, hi]
        have hlast : Still refs s x := (hstill.trans hst₃.of_hold).trans hst₄.of_hold
        have hdin' : (x.icache next).din = dinodeOf s.sb s.dev.disk inum := by
          rw [hx.clean next hvx, hinum', hlast.sb, hlast.disk]
        simp only [wp_gets, hdin']
        simp only at hmissing hfound
        by_cases hbad : (dinodeOf s.sb s.dev.disk inum).type = T_DIR ∨ (dinodeOf s.sb s.dev.disk inum).type = T_DEVICE
        · rw [if_pos hbad] at hmissing ⊢
          simp only [wp_bind, wp_pure]
          refine hx.wp_iunlock hn (hx.wp_iput fun y hy hst₅ => ?_)
          exact hmissing rfl y hy (hlast.trans hst₅)
        · rw [if_neg hbad] at hfound ⊢
          exact hfound inum rfl next x hx hlast hinum' hvx
  · rw [if_neg hcreat] at hmissing hfound hcreate ⊢
    unfold namei
    simp only [wp_bind]
    refine h.wp_namex false path _ htwo (fun name hw t ht hst => ?_) fun inum name hw ip t ht hst hi => ?_
    · rw [hw] at hmissing
      exact hmissing rfl t ht hst
    · rw [hw] at hmissing hfound
      simp only [wp_pure, wp_bind, wp_gets]
      refine ht.wp_ilock (hold_pos refs ip) fun u hu hst' hv => ?_
      have hinum := hst'.inum ip (hold_pos refs ip)
      have hdin : (u.icache ip).din = dinodeOf s.sb s.dev.disk inum := by
        rw [hu.clean ip hv, hst'.sb, hst'.disk, hst.sb, hst.disk, hinum, hi]
      rw [hdin]
      simp only at hmissing hfound
      by_cases hbad : (dinodeOf s.sb s.dev.disk inum).type = T_DIR ∧ omode ≠ 0
      · rw [if_pos hbad] at hmissing ⊢
        simp only [wp_bind]
        refine hu.wp_iunlock (hold_pos refs ip) (hu.wp_iput fun v hv' hst'' => ?_)
        exact hmissing rfl v hv' ((hst.trans hst'.of_hold).trans hst'')
      · rw [if_neg hbad] at hfound ⊢
        exact hfound inum rfl ip u hu (hst.trans hst'.of_hold) (hinum.trans hi) hv

end Open

end RiscvOsLab.Kernel
