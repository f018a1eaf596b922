import RiscvOsLab.Lib.Trans
import RiscvOsLab.Mkfs.Image

/-!
# Allocation from an image

`balloc` looks at whole bytes of the map, and `mkfs` marks neither the bits past the last block nor rounds the block
count. On a kernel that has only called `balloc` since `fsinit`:

* `Within` : the block returned is a free one of the device, and `balloc` gives up on a full device only;
* `TailSound` : there is a free block, or the bits past the last block are used up;
* `within_iff` : the first holds exactly when the second does.
-/

namespace RiscvOsLab.Mkfs

open Prog Function Bytes
open RiscvOsLab.Fs

/-! ## Runs of `balloc` -/

def AllocStep (s t : Fs.State) : Prop := ∃ b, (balloc ROOTDEV).run s = .ok (b, t)

/-- Block `b` has been taken: it is in the data area and was free, its bit is set and it is zeroed. -/
structure Took (s : Fs.State) (b : Nat) (t : Fs.State) : Prop where
  lo : Fs.nmeta s.sb ≤ b
  hi : b < s.sb.size
  clear : marked s.sb s.dev.disk b = false
  bit : t.dev.disk (mapBlock s.sb b) = setBit (s.dev.disk (mapBlock s.sb b)) (b % BPB)
  zero : ∀ o < BSIZE, t.dev.disk b o = 0
  others : ∀ x, x ≠ b → x ≠ mapBlock s.sb b → t.dev.disk x = s.dev.disk x

/-- The next `balloc` takes a free block of the device, or there is none. -/
def Within (s : Fs.State) : Prop :=
  (balloc ROOTDEV).wp (Took s)
    (fun h => h = .panic "balloc: out of blocks" ∧ ∀ b < s.sb.size, marked s.sb s.dev.disk b = true) s

/-- A block is free, or the last byte of the map with a bit of the device is full. -/
def TailSound (s : Fs.State) : Prop :=
  (∃ b < s.sb.size, marked s.sb s.dev.disk b = false) ∨
    ∀ b, s.sb.size ≤ b → b < mapSize s.sb.size → marked s.sb s.dev.disk b = true

/-- The bits below `k` are set, and no others. -/
structure Prefix (total k : Nat) (s : Fs.State) : Prop where
  idle : Idle s.dev []
  sb : s.sb = superblock total
  lo : nmeta total < k
  bits : ∀ b, b < mapSize total → marked (superblock total) s.dev.disk b = decide (b < k)

section Prefix
variable {total k : Nat} {s : Fs.State}

theorem Image.prefixed {D : Nat → Block} (h : Image total D) (hidle : Idle s.dev []) (hdisk : s.dev.disk = D)
    (hsb : s.sb = superblock total) : Prefix total (nmeta total + 1) s where
  idle := hidle
  sb := hsb
  lo := Nat.lt_succ_self _
  bits b hb := by
    rw [hdisk]
    exact h.bits b (div_lt_of_mapSize hb)

/-- The next block is the one after the last. -/
theorem Prefix.wp_balloc (h : Prefix total k s) {Q : Nat → Fs.State → Prop} {E : Halt → Prop}
    (hQ : ∀ t, k < mapSize total → Idle t [] → t.disk = allocated (superblock total) s.dev.disk k →
      Q k { s with dev := t })
    (hE : mapSize total ≤ k → E (.panic "balloc: out of blocks")) : (balloc ROOTDEV).wp Q E s := by
  have hsize : s.sb.size = total := by
    rw [h.sb]
    exact Eq.refl _
  refine wp_balloc_first h.idle (by decide) (fun b t hb hclear hbefore ht hdisk => ?_) fun hfull => hE ?_
  · rw [hsize] at hb
    rw [h.sb] at hclear hbefore hdisk
    rw [h.bits b hb, decide_eq_false_iff_not] at hclear
    have hbk : b = k := by
      by_contra hne
      have hset := hbefore k (by omega)
      rw [h.bits k (by omega), decide_eq_true_eq] at hset
      exact Nat.lt_irrefl k hset
    subst hbk
    exact hQ t hb ht hdisk
  · rw [hsize, h.sb] at hfull
    by_contra hlt
    have hset := hfull k (by omega)
    rw [h.bits k (by omega), decide_eq_true_eq] at hset
    exact Nat.lt_irrefl k hset

theorem Prefix.next (h : Prefix total k s) {t : Dev} (ht : Idle t [])
    (hdisk : t.disk = allocated (superblock total) s.dev.disk k) : Prefix total (k + 1) { s with dev := t } where
  idle := ht
  sb := h.sb
  lo := Nat.lt_succ_of_lt h.lo
  bits b hb := by
    have hmap := mapBlock_lt_nmeta (div_lt_of_mapSize hb)
    have hlo := h.lo
    simp only [hdisk]
    rw [marked_allocated_of_ne (by omega), h.bits b hb, ← Bool.decide_or, decide_eq_decide]
    omega

/-- What `balloc` may do is settled by the number of blocks taken. -/
theorem Prefix.within_iff (h : Prefix total k s) : Within s ↔ k < total ∨ mapSize total ≤ k := by
  have hsize : s.sb.size = total := by
    rw [h.sb]
    exact Eq.refl _
  have hle := le_mapSize total
  have hlo := h.lo
  constructor
  · intro hw
    by_contra hout
    have hrun : (balloc ROOTDEV).wp (fun b _ => b = k) (fun _ => False) s :=
      h.wp_balloc (fun _ _ _ _ => rfl) fun hge => by omega
    obtain ⟨b, t, hok, rfl⟩ := wp_total hrun
    have hhi := (wp_ok hw hok).hi
    omega
  · intro hk
    refine h.wp_balloc (fun t hlt ht hdisk => ?_) fun hge => ⟨rfl, fun b hb => ?_⟩
    · have hin : k < total := by omega
      have hmap := mapBlock_lt_nmeta (div_lt_of_mapSize hlt)
      refine ⟨?_, ?_, ?_, ?_, fun o ho => ?_, fun x hx hxm => ?_⟩
      · rw [h.sb, nmeta_eq]
        exact Nat.le_of_lt hlo
      · rw [hsize]
        exact hin
      · rw [h.sb, h.bits k hlt]
        exact decide_eq_false (Nat.lt_irrefl k)
      · simp only [hdisk, h.sb]
        unfold allocated
        rw [update_of_ne (by omega), update_self]
      · simp only [hdisk]
        exact allocated_self ho
      · rw [h.sb] at hxm
        simp only [hdisk]
        exact allocated_of_ne hx hxm
    · rw [hsize] at hb
      rw [h.sb, h.bits b (by omega)]
      exact decide_eq_true (by omega)

theorem Prefix.tailSound_iff (h : Prefix total k s) : TailSound s ↔ k < total ∨ mapSize total ≤ k := by
  have hsize : s.sb.size = total := by
    rw [h.sb]
    exact Eq.refl _
  have hle := le_mapSize total
  unfold TailSound
  rw [hsize, h.sb]
  constructor
  · rintro (⟨b, hb, hclear⟩ | hfull)
    · rw [h.bits b (by omega), decide_eq_false_iff_not] at hclear
      omega
    · by_contra hout
      have hset := hfull k (by omega) (by omega)
      rw [h.bits k (by omega), decide_eq_true_eq] at hset
      exact Nat.lt_irrefl k hset
  · rintro (hlt | hge)
    · refine .inl ⟨k, hlt, ?_⟩
      rw [h.bits k (by omega)]
      exact decide_eq_false (Nat.lt_irrefl k)
    · refine .inr fun b _ hb => ?_
      rw [h.bits b hb]
      exact decide_eq_true (by omega)

end Prefix

section Runs
variable {total : Nat} {img : State} {s : Fs.State}

theorem prefix_start (hm : Makes total img) (h : MountStart img s) : Prefix total (nmeta total + 1) s := by
  obtain ⟨hidle, hdisk, hsb, -⟩ := hm.mounted h
  exact hm.image.1.prefixed hidle hdisk hsb

theorem prefix_reach (hm : Makes total img) (h : Reach (MountStart img) AllocStep s) : ∃ k, Prefix total k s := by
  refine h.invariant (fun s => ∃ k, Prefix total k s) (fun s hs => ⟨_, prefix_start hm hs⟩) fun s t hs hst => ?_
  obtain ⟨k, hk⟩ := hs
  obtain ⟨b, hrun⟩ := hst
  have hnext : (balloc ROOTDEV).wp (fun _ t => Prefix total (k + 1) t) (fun _ => True) s :=
    hk.wp_balloc (fun t _ ht hdisk => hk.next ht hdisk) fun _ => True.intro
  exact ⟨k + 1, wp_ok hnext hrun⟩

/-- In every state that calls of `balloc` lead to, the next one stays inside the device exactly when a block is free or
the bits past the last block are used up. -/
theorem within_iff_tailSound (hm : Makes total img) (h : Reach (MountStart img) AllocStep s) :
    Within s ↔ TailSound s := by
  obtain ⟨k, hk⟩ := prefix_reach hm h
  rw [hk.within_iff, hk.tailSound_iff]

/-- The default image, mounted. -/
theorem within_iff_tailSound_default :
    ∃ img s, Makes 1000 img ∧ Reach (MountStart img) AllocStep s ∧ (Within s ↔ TailSound s) := by
  obtain ⟨img, hm, -⟩ := makes 1000 (by unfold NoImage nmeta; decide)
  obtain ⟨s, hs⟩ := hm.mountStart
  exact ⟨img, s, hm, .start hs, within_iff_tailSound hm (.start hs)⟩

/-- An image of 17 blocks is full when it is made, and `balloc` finds a block 17. -/
theorem not_within :
    ¬ ∀ total img s, Makes total img → Reach (MountStart img) AllocStep s → Within s := by
  intro hall
  obtain ⟨img, hm, -⟩ := makes 17 (by unfold NoImage nmeta; decide)
  obtain ⟨s, hs⟩ := hm.mountStart
  have hk := prefix_start hm hs
  have hin := hk.within_iff.1 (hall 17 img s hm (.start hs))
  revert hin
  decide

end Runs

end RiscvOsLab.Mkfs
