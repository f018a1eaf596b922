import RiscvOsLab.Fs.BioInv
import RiscvOsLab.Lib.Trans

/-!
# Coherence of the buffer cache over whole runs

`Client.Step ok` are the calls of clients that keep the cache's rules: they touch the data of a buffer only
while they hold it, call `bwrite` before the `brelse` that ends a modification, release once per bread, and
issue a bread with at most 29 buffers held; `ok` is a further demand at a bread. The ghost `flat` is the
flat disk the clients believe in: the data last passed to `bwrite` for each block.

Two things the rules above do not exclude, and the code's answer to them:

* a bread of a block somebody else is changing returns the half-made change (`bread_sees_unwritten`), by
  design, as the cache keeps one copy of a block;
* `refcnt` is a 32-bit counter, and the `2^32`th bread of one block brings it back to 0
  (`refcnt_wraps`).

With fewer than `2^32` breads outstanding, `cache_coherent` is the rest.
-/

namespace RiscvOsLab.Fs

open Prog Function

namespace Client

structure State where
  dev : Dev
  held : List Hold
  flat : Nat → Block

inductive Step (ok : List Hold → Prop) : State → State → Prop
  | bread {σ : State} {k : Nat} {b : Fin NBUF} {dev : Dev} (hspare : (heldBufs σ.held).card ≤ 29)
      (hok : ok σ.held) (hrun : (bread ROOTDEV k).run σ.dev = .ok (b, dev)) :
      Step ok σ ⟨dev, ⟨b, k, false⟩ :: σ.held, σ.flat⟩
  | store {σ : State} {h : Hold} {f : Block → Block} {dev : Dev} (hh : h ∈ σ.held)
      (hrun : (store h.buf f).run σ.dev = .ok ((), dev)) :
      Step ok σ ⟨dev, ⟨h.buf, h.blk, true⟩ :: σ.held.erase h, σ.flat⟩
  | bwrite {σ : State} {h : Hold} {dev : Dev} (hh : h ∈ σ.held)
      (hrun : (bwrite h.buf).run σ.dev = .ok ((), dev)) :
      Step ok σ ⟨dev, ⟨h.buf, h.blk, false⟩ :: σ.held.erase h,
        update σ.flat h.blk (σ.dev.buf h.buf).data⟩
  | brelse {σ : State} {h : Hold} {dev : Dev} (hh : h ∈ σ.held) (hclean : h.touched = false)
      (hrun : (brelse h.buf).run σ.dev = .ok ((), dev)) :
      Step ok σ ⟨dev, σ.held.erase h, σ.flat⟩

/-- After `binit`, over a disk with any contents. -/
def Init (disk : Nat → Block) (σ : State) : Prop :=
  binit.run (Dev.boot disk) = .ok ((), σ.dev) ∧ σ.held = [] ∧ σ.flat = disk

/-- Fewer than `2^32` breads are outstanding once this one is issued. -/
def Few (held : List Hold) : Prop := held.length + 1 < 2 ^ 32

/-- The cache and the flat disk tell the same story. -/
structure Agrees (σ : State) : Prop where
  inv : ∃ order, CacheInv σ.dev order σ.held
  flat : σ.flat = σ.dev.disk

theorem agrees_init {disk : Nat → Block} {σ : State} (h : Init disk σ) : Agrees σ := by
  obtain ⟨s, hrun, hdisk, hinv⟩ := binit_inv disk
  obtain ⟨dev, held, flat⟩ := σ
  obtain ⟨hr, rfl, rfl⟩ := h
  obtain rfl : s = dev := by simpa [hrun] using hr
  exact ⟨⟨_, hinv⟩, hdisk.symm⟩

theorem agrees_step {σ τ : State} (h : Agrees σ) (hs : Step Few σ τ) : Agrees τ := by
  obtain ⟨⟨order, hI⟩, hflat⟩ := h
  cases hs with
  | @bread k b dev hspare hok hrun =>
      obtain ⟨b', s', hrun', hinv, hkept⟩ := hI.bread_run hok (Nat.lt_of_le_of_lt hspare (by decide)) k
      obtain ⟨rfl, rfl⟩ : b' = b ∧ s' = dev := by simpa [hrun'] using hrun
      exact ⟨⟨order, hinv⟩, hflat.trans hkept.disk.symm⟩
  | @store h f dev hh hrun =>
      obtain rfl : σ.dev.setBuf h.buf { σ.dev.buf h.buf with data := f (σ.dev.buf h.buf).data } = dev := by
        simpa [Fs.store, Prog.modify, Prog.run] using hrun
      exact ⟨⟨order, hI.store_inv hh _⟩, hflat⟩
  | @bwrite h dev hh hrun =>
      obtain ⟨hrun', hinv⟩ := hI.bwrite_run hh
      obtain rfl : { σ.dev with disk := update σ.dev.disk h.blk (σ.dev.buf h.buf).data } = dev := by
        simpa [hrun'] using hrun
      exact ⟨⟨order, hinv⟩, by simp [hflat]⟩
  | @brelse h dev hh hclean hrun =>
      obtain ⟨s', hrun', hsame, hinv⟩ := hI.brelse_run hh hclean
      obtain rfl : s' = dev := by simpa [hrun'] using hrun
      exact ⟨⟨_, hinv⟩, hflat.trans hsame.disk.symm⟩

theorem agrees_reach {disk : Nat → Block} {σ : State} (h : Reach (Init disk) (Step Few) σ) : Agrees σ :=
  h.invariant Agrees (fun _ => agrees_init) fun _ _ => agrees_step

/-- A buffer with a positive count keeps its block over a step. -/
theorem step_keeps_block {σ τ : State} (h : Agrees σ) (hs : Step Few σ τ) {b : Fin NBUF}
    (hb : (σ.dev.buf b).refcnt ≠ 0) :
    (τ.dev.buf b).dev = (σ.dev.buf b).dev ∧ (τ.dev.buf b).blockno = (σ.dev.buf b).blockno := by
  obtain ⟨⟨order, hI⟩, -⟩ := h
  cases hs with
  | @bread k c dev hspare hok hrun =>
      obtain ⟨b', s', hrun', -, hkept⟩ := hI.bread_run hok (Nat.lt_of_le_of_lt hspare (by decide)) k
      obtain ⟨rfl, rfl⟩ : b' = c ∧ s' = dev := by simpa [hrun'] using hrun
      exact ⟨(hkept.buf b hb).1, (hkept.buf b hb).2.1⟩
  | @store h f dev hh hrun =>
      obtain rfl : σ.dev.setBuf h.buf { σ.dev.buf h.buf with data := f (σ.dev.buf h.buf).data } = dev := by
        simpa [Fs.store, Prog.modify, Prog.run] using hrun
      rcases eq_or_ne b h.buf with rfl | hne
      · simp
      · simp [Dev.setBuf_buf_of_ne hne]
  | @bwrite h dev hh hrun =>
      obtain ⟨hrun', -⟩ := hI.bwrite_run hh
      obtain rfl : { σ.dev with disk := update σ.dev.disk h.blk (σ.dev.buf h.buf).data } = dev := by
        simpa [hrun'] using hrun
      exact ⟨rfl, rfl⟩
  | @brelse h dev hh hclean hrun =>
      obtain ⟨s', hrun', hsame, -⟩ := hI.brelse_run hh hclean
      obtain rfl : s' = dev := by simpa [hrun'] using hrun
      obtain ⟨r, hr⟩ := hsame.buf b
      rw [hr]
      exact ⟨rfl, rfl⟩

/-- What the cache promises in a state of a run. -/
structure Coherent (σ : State) : Prop where
  /-- The list is one circle through `head` with every buffer once. -/
  circle : ∃ order : List (Fin NBUF), Ring σ.dev.links .head (order.map .buf) ∧ order.Nodup ∧
    order.length = NBUF
  /-- A block has at most one buffer in use. -/
  unique : ∀ b c, ((σ.dev.buf b).valid = true ∨ (σ.dev.buf b).refcnt ≠ 0) →
    ((σ.dev.buf c).valid = true ∨ (σ.dev.buf c).refcnt ≠ 0) →
    (σ.dev.buf b).dev = (σ.dev.buf c).dev → (σ.dev.buf b).blockno = (σ.dev.buf c).blockno → b = c
  /-- Reference counts count the outstanding breads. -/
  counts : ∀ b, (σ.dev.buf b).refcnt.toNat = holds σ.held b
  /-- A held buffer is never given to another block. -/
  kept : ∀ τ, Step Few σ τ → ∀ b, (σ.dev.buf b).refcnt ≠ 0 →
    (τ.dev.buf b).dev = (σ.dev.buf b).dev ∧ (τ.dev.buf b).blockno = (σ.dev.buf b).blockno
  /-- A bread returns the data last written to the block, or what its holders have made of it. -/
  reads : ∀ k, (heldBufs σ.held).card ≤ 29 → Few σ.held → ∃ b dev,
    (bread ROOTDEV k).run σ.dev = .ok (b, dev) ∧
    ((∀ h ∈ σ.held, h.blk = k → h.touched = false) → (dev.buf b).data = σ.flat k) ∧
    ∀ h ∈ σ.held, h.blk = k → b = h.buf ∧ (dev.buf b).data = (σ.dev.buf h.buf).data

theorem Agrees.coherent {σ : State} (h : Agrees σ) : Coherent σ := by
  have hkeeps := @step_keeps_block σ
  obtain ⟨⟨order, hI⟩, hflat⟩ := h
  have hdev : ∀ b, ((σ.dev.buf b).valid = true ∨ (σ.dev.buf b).refcnt ≠ 0) →
      (σ.dev.buf b).dev = ROOTDEV := by
    rintro b (hv | hr)
    · by_contra hne
      simp [hI.free b hne] at hv
    · exact hI.dev_of_ref hr
  refine ⟨⟨order, hI.ring, hI.nodup, ?_⟩, fun b c hb hc _ hk => hI.key b c (hdev b hb) (hdev c hc) hk,
    fun b => ?_, fun τ hτ b hb => hkeeps ⟨⟨order, hI⟩, hflat⟩ hτ hb, fun k hspare hfew => ?_⟩
  · have hperm : order.Perm (List.finRange NBUF) :=
      (List.perm_ext_iff_of_nodup hI.nodup (List.nodup_finRange _)).2 fun b => by simp [hI.full b]
    simpa using hperm.length_eq
  · rw [hI.refs b, UInt32.toNat_ofNat', Nat.mod_eq_of_lt (lt_of_le_of_lt (holds_le _ _) hI.few)]
  · obtain ⟨b, s', hrun, hinv, hkept⟩ := hI.bread_run hfew (Nat.lt_of_le_of_lt hspare (by decide)) k
    obtain ⟨hd, hk⟩ := hinv.keys ⟨b, k, false⟩ List.mem_cons_self
    refine ⟨b, s', hrun, fun hun => ?_, fun h hh hhk => ?_⟩
    · rw [hinv.clean b hd fun x hx hxb => ?_, hk, hkept.disk, hflat]
      have hxk : x.blk = k := by rw [← (hinv.keys x hx).2, hxb, hk]
      rcases List.mem_cons.1 hx with rfl | hx
      · rfl
      · exact hun x hx hxk
    · have hkey := hinv.keys h (List.mem_cons_of_mem _ hh)
      have hb : b = h.buf := hinv.key b h.buf hd hkey.1 (hk.trans (hhk.symm.trans hkey.2.symm))
      have href : (σ.dev.buf h.buf).refcnt ≠ 0 := fun e => hI.refcnt_eq_zero.1 e h hh rfl
      exact ⟨hb, hb ▸ (hkept.buf h.buf href).2.2⟩

/-- **The cache over any disk is coherent in every run** with fewer than `2^32` breads outstanding. -/
theorem cache_coherent {disk : Nat → Block} {σ : State} (h : Reach (Init disk) (Step Few) σ) : Coherent σ :=
  (agrees_reach h).coherent

/-! ## What the rules of the clients leave open -/

/-- A disk of zeros. -/
def zeroDisk : Nat → Block := fun _ _ => 0

/-- The state `binit` leaves, and the state after a first bread in it. -/
theorem exists_init (disk : Nat → Block) : ∃ σ, Init disk σ ∧ Agrees σ := by
  obtain ⟨s, hrun, hdisk, hinv⟩ := binit_inv disk
  exact ⟨⟨s, [], disk⟩, ⟨hrun, rfl, rfl⟩, ⟨⟨_, hinv⟩, hdisk.symm⟩⟩

theorem card_heldBufs_replicate_le (n : Nat) (h : Hold) : (heldBufs (List.replicate n h)).card ≤ 29 := by
  refine le_trans (Finset.card_le_card (t := {h.buf}) ?_) (by simp)
  intro b
  simp only [heldBufs, List.mem_toFinset, List.mem_map, List.mem_replicate, Finset.mem_singleton]
  rintro ⟨x, ⟨-, rfl⟩, rfl⟩
  rfl

/-- The block can be read again and again by holders that never release it. -/
theorem exists_reach_replicate (disk : Nat → Block) (k : Nat) : ∀ n, n + 1 < 2 ^ 32 → ∃ σ b,
    Reach (Init disk) (Step Few) σ ∧ σ.held = List.replicate (n + 1) ⟨b, k, false⟩ ∧ σ.flat = disk
  | 0, hn => by
      obtain ⟨⟨dev, held, flat⟩, hinit, ⟨⟨order, hI⟩, hflat⟩⟩ := exists_init disk
      obtain ⟨-, rfl, rfl⟩ := id hinit
      obtain ⟨b, s', hrun, -, -⟩ := hI.bread_run hn (show (heldBufs []).card < NBUF by decide) k
      exact ⟨_, b, (Reach.start hinit).next (.bread (by simp [heldBufs]) hn hrun), rfl, rfl⟩
  | n + 1, hn => by
      obtain ⟨σ, b, hreach, hheld, hflat⟩ := exists_reach_replicate disk k n (by omega)
      obtain ⟨order, hI⟩ := (agrees_reach hreach).inv
      have hlen : Few σ.held := by simpa [Few, hheld] using hn
      obtain ⟨hd, hk⟩ := hI.keys ⟨b, k, false⟩ (by simp [hheld])
      have hspare : (heldBufs σ.held).card ≤ 29 := hheld ▸ card_heldBufs_replicate_le _ _
      refine ⟨_, b, hreach.next (.bread hspare hlen (hI.bread_hit_run hd hk)), ?_, hflat⟩
      rw [hheld, ← List.replicate_succ]

/-- A run that meets the bound is a run without it. -/
theorem reach_unbounded {disk : Nat → Block} {σ : State} (h : Reach (Init disk) (Step Few) σ) :
    Reach (Init disk) (Step fun _ => True) σ := by
  refine h.mono fun _ _ hs => ?_
  cases hs with
  | bread hs _ hr => exact .bread hs trivial hr
  | store hh hr => exact .store hh hr
  | bwrite hh hr => exact .bwrite hh hr
  | brelse hh hc hr => exact .brelse hh hc hr

/-- A block being changed is read with the change in it, before any `bwrite`. -/
theorem bread_sees_unwritten (k : Nat) :
    ∃ σ, Reach (Init zeroDisk) (Step fun _ => True) σ ∧ (heldBufs σ.held).card ≤ 29 ∧
      ∃ b dev, (bread ROOTDEV k).run σ.dev = .ok (b, dev) ∧ (dev.buf b).data ≠ σ.flat k := by
  obtain ⟨σ, b, hreach, hheld, hflat⟩ := exists_reach_replicate zeroDisk k 0 (by decide)
  obtain ⟨order, hI⟩ := (agrees_reach hreach).inv
  have hmem : (⟨b, k, false⟩ : Hold) ∈ σ.held := by simp [hheld]
  -- the holder fills the block with ones
  have hstore := hI.store_inv hmem fun _ => 1
  obtain ⟨hd, hk⟩ := hstore.keys ⟨b, k, true⟩ List.mem_cons_self
  refine ⟨_, (reach_unbounded hreach).next (.store (f := fun _ _ => 1) hmem rfl), ?_, b, _,
    hstore.bread_hit_run hd hk, fun e => ?_⟩
  · simp [heldBufs, hheld]
  · have := congrFun e 0
    simp [hflat, zeroDisk] at this

/-- `refcnt` is back at 0 after `2^32` breads of one block. -/
theorem refcnt_wraps (k : Nat) : ∃ σ, Reach (Init zeroDisk) (Step fun _ => True) σ ∧
    ∃ b, holds σ.held b = 2 ^ 32 ∧ (σ.dev.buf b).refcnt = 0 := by
  obtain ⟨n, hn⟩ : ∃ n, n + 2 = 2 ^ 32 := ⟨2 ^ 32 - 2, by norm_num⟩
  obtain ⟨σ, b, hreach, hheld, -⟩ := exists_reach_replicate zeroDisk k n (by omega)
  obtain ⟨order, hI⟩ := (agrees_reach hreach).inv
  obtain ⟨hd, hk⟩ := hI.keys ⟨b, k, false⟩ (by simp [hheld])
  have hcount : holds σ.held b = n + 1 := by simp [holds, hheld, List.countP_replicate]
  refine ⟨_, (reach_unbounded hreach).next
    (.bread (hheld ▸ card_heldBufs_replicate_le _ _) trivial (hI.bread_hit_run hd hk)), b, ?_, ?_⟩
  · rw [holds_cons, hcount, if_pos rfl]
    exact hn
  · rw [Dev.setBuf_buf_self, hI.refs, hcount]
    change UInt32.ofNat (n + 1) + 1 = 0
    rw [← ofNat_add_one, hn]
    rfl

/-- With a holder at work on the block, or without the bound, the promises fail. -/
theorem cache_not_flat :
    (∃ σ, Reach (Init zeroDisk) (Step fun _ => True) σ ∧ (heldBufs σ.held).card ≤ 29 ∧
      ∃ b dev, (bread ROOTDEV 5).run σ.dev = .ok (b, dev) ∧ (dev.buf b).data ≠ σ.flat 5) ∧
    ∃ σ, Reach (Init zeroDisk) (Step fun _ => True) σ ∧
      ∃ b, holds σ.held b = 2 ^ 32 ∧ (σ.dev.buf b).refcnt = 0 :=
  ⟨bread_sees_unwritten 5, refcnt_wraps 5⟩

/-- Three holders of block 7. -/
theorem cache_coherent_three_holders : ∃ σ, Reach (Init zeroDisk) (Step Few) σ ∧ σ.held.length = 3 ∧
    Coherent σ := by
  obtain ⟨σ, b, hreach, hheld, -⟩ := exists_reach_replicate zeroDisk 7 2 (by decide)
  exact ⟨σ, hreach, by simp [hheld], cache_coherent hreach⟩

end Client

end RiscvOsLab.Fs
