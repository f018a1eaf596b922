import RiscvOsLab.Fs.BioInv

/-!
# Blocks through the cache

`Idle s held`: the cache is coherent and no holder has changed its buffer since the last `bwrite`, so that the
disk says what every buffer holds. Under it the operations of `bio.c` are rules about the disk:

* `wp_bread`, `wp_load` : a bread of block `k` gives the data of block `k`;
* `wp_storeWrite` : `store` and `bwrite` replace the block;
* `wp_brelse` : the release.
-/

namespace RiscvOsLab.Fs

open Prog Function

/-- Nobody's change is pending; a few buffers may be held. -/
structure Idle (s : Dev) (held : List Hold) : Prop where
  inv : ∃ order, CacheInv s order held
  clean : ∀ h ∈ held, h.touched = false

namespace Idle

variable {s : Dev} {held : List Hold} {b : Fin NBUF} {k : Nat} {E : Halt → Prop}

/-- A valid buffer equals its block. -/
theorem data (h : Idle s held) (hb : (s.buf b).valid = true) : (s.buf b).data = s.disk (s.buf b).blockno := by
  obtain ⟨order, hinv⟩ := h.inv
  refine hinv.clean b ?_ fun x hx _ => h.clean x hx
  by_contra hdev
  exact absurd hb (by simp [hinv.free b hdev])

theorem data_held (h : Idle s (⟨b, k, false⟩ :: held)) : (s.buf b).data = s.disk k := by
  obtain ⟨order, hinv⟩ := h.inv
  obtain ⟨hdev, hblk⟩ := hinv.keys _ List.mem_cons_self
  have hdata := hinv.clean b hdev fun x hx _ => h.clean x hx
  simpa [hblk] using hdata

theorem card_heldBufs_le (held : List Hold) : (heldBufs held).card ≤ held.length := by
  have hcard := List.toFinset_card_le (held.map Hold.buf)
  simpa [heldBufs] using hcard

theorem wp_bread (h : Idle s held) (hroom : held.length < NBUF) {Q : Fin NBUF → Dev → Prop}
    (hQ : ∀ b t, Idle t (⟨b, k, false⟩ :: held) → t.disk = s.disk → Q b t) : (bread ROOTDEV k).wp Q E s := by
  obtain ⟨order, hinv⟩ := h.inv
  have hfew : held.length + 1 < 2 ^ 32 := lt_of_le_of_lt (Nat.succ_le_of_lt hroom) (by decide)
  have hspare : (heldBufs held).card < NBUF := lt_of_le_of_lt (card_heldBufs_le held) hroom
  obtain ⟨b, t, hrun, hinv', hkept⟩ := hinv.bread_run hfew hspare k
  rw [wp_of_run hrun]
  refine hQ b t ⟨⟨order, hinv'⟩, fun x hx => ?_⟩ hkept.disk
  rcases List.mem_cons.1 hx with rfl | hx
  · rfl
  · exact h.clean x hx

theorem wp_load (h : Idle s (⟨b, k, false⟩ :: held)) {Q : Block → Dev → Prop} (hQ : Q (s.disk k) s) :
    (load b).wp Q E s := by
  show Q (s.buf b).data s
  rwa [h.data_held]

/-- The holder changes the data and writes it through. -/
theorem wp_storeWrite (h : Idle s (⟨b, k, false⟩ :: held)) {f : Block → Block} {Q : Unit → Dev → Prop}
    (hQ : ∀ t, Idle t (⟨b, k, false⟩ :: held) → t.disk = update s.disk k (f (s.disk k)) → Q () t) :
    (store b f).wp (fun _ t => (bwrite b).wp Q E t) E s := by
  have hdata := h.data_held
  obtain ⟨order, hinv⟩ := h.inv
  have hstore := hinv.store_inv List.mem_cons_self (f (s.buf b).data)
  rw [List.erase_cons_head] at hstore
  obtain ⟨hrun, hwritten⟩ := hstore.bwrite_run List.mem_cons_self
  rw [List.erase_cons_head] at hwritten
  show (bwrite b).wp Q E (s.setBuf b { s.buf b with data := f (s.buf b).data })
  rw [wp_of_run hrun]
  refine hQ _ ⟨⟨order, hwritten⟩, fun x hx => ?_⟩ (by simp [hdata])
  rcases List.mem_cons.1 hx with rfl | hx
  · rfl
  · exact h.clean x (List.mem_cons_of_mem _ hx)

theorem wp_brelse (h : Idle s (⟨b, k, false⟩ :: held)) {Q : Unit → Dev → Prop}
    (hQ : ∀ t, Idle t held → t.disk = s.disk → Q () t) : (brelse b).wp Q E s := by
  obtain ⟨order, hinv⟩ := h.inv
  obtain ⟨t, hrun, hsame, hinv'⟩ := hinv.brelse_run List.mem_cons_self rfl
  rw [List.erase_cons_head] at hinv'
  rw [wp_of_run hrun]
  exact hQ t ⟨⟨_, hinv'⟩, fun x hx => h.clean x (List.mem_cons_of_mem _ hx)⟩ hsame.disk

end Idle

/-- After `binit`, over a disk with any contents. -/
theorem idle_binit (disk : Nat → Block) : ∃ s, binit.run (Dev.boot disk) = .ok ((), s) ∧ s.disk = disk ∧ Idle s [] := by
  obtain ⟨s, hrun, hdisk, hinv⟩ := binit_inv disk
  exact ⟨s, hrun, hdisk, ⟨_, hinv⟩, by simp⟩

end RiscvOsLab.Fs
