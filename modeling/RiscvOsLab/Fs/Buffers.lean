import RiscvOsLab.Fs.BioInv
import RiscvOsLab.Fs.File
import RiscvOsLab.Lib.Borrow
import Mathlib.Algebra.Order.BigOperators.Group.Finset

/-!
# Buffers taken and given back

`Lent bs d` : the buffers `bs` are out. Nothing else is asked of the disk or the cache, so that what follows is true of
any file system. `bread` takes a buffer and `brelse` gives it back; the functions of the file system give back
what they take, and take two at a time at most (`returns_…`).
-/

namespace RiscvOsLab.Fs

open Prog Function

/-! ## The operations of the cache -/

/-- The LRU list holds every buffer, and reference counts count the buffers that are out. -/
structure Lent (bs : List (Fin NBUF)) (d : Dev) : Prop where
  listed : ∃ order, Listed d order
  refs : ∀ b, (d.buf b).refcnt = UInt32.ofNat (bs.count b)

/-- Buffers that may be out at a time. -/
def LOAN : Nat := 2

/-- The cache does not run out, and the walks of its list end. -/
def Supplied (e : Halt) : Prop := e ≠ .panic "bget: no buffers" ∧ e ≠ .spin

namespace Lent

variable {bs : List (Fin NBUF)} {b : Fin NBUF} {d t : Dev}

theorem of_same (h : Lent bs d) (hlinks : t.links = d.links) (hrefs : ∀ c, (t.buf c).refcnt = (d.buf c).refcnt) :
    Lent bs t := by
  obtain ⟨order, hl⟩ := h.listed
  refine ⟨⟨order, ?_, hl.full⟩, fun c => (hrefs c).trans (h.refs c)⟩
  rw [hlinks]
  exact hl.ring

theorem setBuf (h : Lent bs d) {v : Buf} (hv : v.refcnt = (d.buf b).refcnt) : Lent bs (d.setBuf b v) := by
  apply h.of_same (Dev.setBuf_links d b v)
  intro c
  by_cases hc : c = b
  · rw [hc, Dev.setBuf_buf_self, hv]
  · rw [Dev.setBuf_buf_of_ne hc]

/-- One reference more. -/
theorem cons (h : Lent bs d) {v : Buf} (hv : v.refcnt = (d.buf b).refcnt + 1) : Lent (b :: bs) (d.setBuf b v) := by
  obtain ⟨order, hl⟩ := h.listed
  refine ⟨⟨order, hl.ring, hl.full⟩, fun c => ?_⟩
  by_cases hc : c = b
  · rw [hc, Dev.setBuf_buf_self, hv, h.refs b, List.count_cons_self, ofNat_add_one]
  · rw [Dev.setBuf_buf_of_ne hc, h.refs c, List.count_cons_of_ne (Ne.symm hc)]

/-- One reference less. -/
theorem of_cons (h : Lent (b :: bs) d) {v : Buf} (hv : v.refcnt = (d.buf b).refcnt - 1) : Lent bs (d.setBuf b v) := by
  obtain ⟨order, hl⟩ := h.listed
  refine ⟨⟨order, hl.ring, hl.full⟩, fun c => ?_⟩
  by_cases hc : c = b
  · rw [hc, Dev.setBuf_buf_self, hv, h.refs b, List.count_cons_self, ofNat_add_one, UInt32.add_sub_cancel]
  · rw [Dev.setBuf_buf_of_ne hc, h.refs c, List.count_cons_of_ne (Ne.symm hc)]

/-- With few buffers out, one is free. -/
theorem exists_free (h : Lent bs d) (hlen : bs.length < LOAN) : ∃ c, (d.buf c).refcnt = 0 := by
  by_contra hall
  rw [not_exists] at hall
  have hmem (c : Fin NBUF) : c ∈ bs := by
    by_contra hc
    refine hall c ?_
    rw [h.refs c, List.count_eq_zero_of_not_mem hc]
    rfl
  have hcard : (List.finRange NBUF).length ≤ bs.length :=
    (List.nodup_finRange NBUF).length_le_of_subset fun c _ => hmem c
  rw [List.length_finRange] at hcard
  unfold NBUF LOAN at *
  omega

end Lent

theorem takes_bget (dev n : Nat) : Takes Lent LOAN Supplied (bget dev n) := by
  intro d held hlen h
  obtain ⟨order, hl⟩ := h.listed
  have hout {b : Fin NBUF} {t : Dev} (ht : Lent (b :: held) t) : AtMost Lent LOAN t := ⟨b :: held, hlen, ht⟩
  unfold bget
  rw [during_bind]
  refine during_get ⟨held, hlen.le, h⟩ ?_
  rw [hl.scan_next]
  cases order.find? fun b => (d.buf b).dev == dev && (d.buf b).blockno == n with
  | some b =>
      have hb : Lent (b :: held) (d.setBuf b { d.buf b with refcnt := (d.buf b).refcnt + 1 }) := h.cons rfl
      exact ⟨hout hb, hb⟩
  | none =>
      simp only
      rw [hl.scan_prev]
      cases hfind : order.reverse.find? fun b => (d.buf b).refcnt == 0 with
      | some b =>
          have hzero : (d.buf b).refcnt = 0 := by simpa using List.find?_some hfind
          have hb : Lent (b :: held) (d.setBuf b { d.buf b with dev, blockno := n, valid := false, refcnt := 1 }) := by
            refine h.cons ?_
            rw [hzero]
            rfl
          exact ⟨hout hb, hb⟩
      | none =>
          obtain ⟨c, hc⟩ := h.exists_free hlen
          have hno := List.find?_eq_none.1 hfind c (List.mem_reverse.2 (hl.full c))
          exact absurd (by simpa using hc) hno

theorem takes_bread (dev n : Nat) : Takes Lent LOAN Supplied (bread dev n) := by
  intro d held hlen h
  unfold bread
  rw [during_bind]
  refine during_mono (takes_bget dev n d held hlen h) (fun b t ht => ?_) fun _ he => he
  have hout {t : Dev} (ht : Lent (b :: held) t) : AtMost Lent LOAN t := ⟨b :: held, hlen, ht⟩
  rw [during_bind]
  refine during_gets (hout ht) ?_
  split
  · exact ht
  · -- the transfer, and the flag
    have hdata : Lent (b :: held) (t.setBuf b { t.buf b with data := t.disk (t.buf b).blockno }) := ht.setBuf rfl
    have hvalid := hdata.setBuf (b := b)
      (v := { (t.setBuf b { t.buf b with data := t.disk (t.buf b).blockno }).buf b with valid := true }) rfl
    exact ⟨hout hdata, hout hvalid, hvalid⟩

theorem gives_brelse (b : Fin NBUF) : Gives Lent LOAN Supplied b (brelse b) := by
  intro d held hlen h
  have hout {t : Dev} (ht : Lent held t) : AtMost Lent LOAN t := ⟨held, hlen.le, ht⟩
  have hless : Lent held (d.setBuf b { d.buf b with refcnt := (d.buf b).refcnt - 1 }) := h.of_cons rfl
  unfold brelse
  rw [during_bind]
  refine during_modify (hout hless) ?_
  rw [during_bind]
  refine during_gets (hout hless) ?_
  split
  · obtain ⟨order, hl⟩ := hless.listed
    have hfront : Lent held { d.setBuf b { d.buf b with refcnt := (d.buf b).refcnt - 1 } with
        links := (d.links.unlink (.buf b)).insertHead .head (.buf b) } := ⟨⟨_, hl.toFront b rfl⟩, hless.refs⟩
    exact during_modify (hout hfront) hfront
  · exact hless

theorem lent_load (k : Nat) (b : Fin NBUF) : Borrows Lent LOAN Supplied k [] (load b) := borrows_gets _

theorem lent_store (k : Nat) (b : Fin NBUF) (f : Block → Block) : Borrows Lent LOAN Supplied k [] (store b f) :=
  borrows_modify fun _ _ h => h.setBuf rfl

theorem lent_bwrite (k : Nat) (b : Fin NBUF) : Borrows Lent LOAN Supplied k [] (bwrite b) := by
  intro d held hlen h
  have hdisk : Lent held { d with disk := update d.disk (d.buf b).blockno (d.buf b).data } := h.of_same rfl fun _ => rfl
  exact ⟨⟨held, by omega, hdisk⟩, hdisk⟩

/-! ## The file system -/

/-- The buffers that are out, in a state of the file system. -/
def OnLoan (bs : List (Fin NBUF)) (s : State) : Prop := Lent bs s.dev

/-- The code gives back `bs` and what it takes, `k` buffers at a time at most. -/
abbrev Returns {α : Type} (k : Nat) (bs : List (Fin NBUF)) (p : Prog State α) : Prop :=
  Borrows OnLoan LOAN Supplied k bs p

section Returns
variable {α : Type} {k : Nat} {bs : List (Fin NBUF)}

theorem takes_lift {p : Prog Dev (Fin NBUF)} (hp : Takes Lent LOAN Supplied p) : Takes OnLoan LOAN Supplied (lift p) :=
  takes_zoom State.dev (fun d s => { s with dev := d }) (fun _ _ => rfl) (fun _ _ _ => rfl) (fun _ => rfl) hp

theorem gives_lift {b : Fin NBUF} {p : Prog Dev α} (hp : Gives Lent LOAN Supplied b p) :
    Gives OnLoan LOAN Supplied b (lift p) :=
  gives_zoom State.dev (fun d s => { s with dev := d }) (fun _ _ => rfl) (fun _ _ _ => rfl) (fun _ => rfl) hp

theorem returns_lift {p : Prog Dev α} (hp : Borrows Lent LOAN Supplied k bs p) : Returns k bs (lift p) :=
  borrows_zoom State.dev (fun d s => { s with dev := d }) (fun _ _ => rfl) (fun _ _ _ => rfl) (fun _ => rfl) hp

theorem returns_panic {msg : String} (h : msg ≠ "bget: no buffers") : Returns k bs (Prog.panic msg : Prog State α) :=
  borrows_panic ⟨fun he => h (Halt.panic.inj he), by simp⟩

theorem returns_bread {dev n : Nat} {f : Fin NBUF → Prog State α} (hf : ∀ b, Returns k (b :: bs) (f b)) :
    Returns (k + 1) bs (lift (bread dev n) >>= f) := borrows_take (takes_lift (takes_bread dev n)) hf

theorem returns_brelse {b : Fin NBUF} {f : Unit → Prog State α} (hf : ∀ a, Returns (k + 1) bs (f a)) :
    Returns k (b :: bs) (lift (brelse b) >>= f) := borrows_give (gives_lift (gives_brelse b)) hf

theorem returns_brelse_last (b : Fin NBUF) : Returns k [b] (lift (brelse b)) := (gives_lift (gives_brelse b)).borrows

theorem returns_load {b : Fin NBUF} {f : Block → Prog State α} (hf : ∀ d, Returns k bs (f d)) :
    Returns k bs (lift (load b) >>= f) := borrows_bind (returns_lift (lent_load k b)) hf

theorem returns_write {b : Fin NBUF} {g : Block → Block} {f : Unit → Prog State α} (hf : ∀ a, Returns k bs (f a)) :
    Returns k bs (lift (store b g) >>= fun _ => lift (bwrite b) >>= f) :=
  borrows_bind (returns_lift (lent_store k b g)) fun _ => borrows_bind (returns_lift (lent_bwrite k b)) hf

/-- A change to the inode cache. -/
theorem returns_modify {g : State → State} (hg : ∀ s, (g s).dev = s.dev) : Returns k [] (modify g) := by
  apply borrows_modify
  intro s l h
  unfold OnLoan
  rwa [hg]

theorem returns_bzero (dev bno : Nat) : Returns 1 [] (bzero dev bno) :=
  returns_bread fun _ => returns_write fun _ => returns_brelse_last _

theorem returns_ballocFrom (dev : Nat) (sb : Superblock) (b : Nat) : Returns 1 [] (ballocFrom dev sb b) := by
  induction hk : sb.size - b using Nat.strong_induction_on generalizing b with
  | _ k ih =>
    unfold ballocFrom
    split
    · rename_i hlt
      refine returns_bread fun _ => returns_load fun _ => ?_
      split
      · refine returns_write fun _ => returns_brelse fun _ => ?_
        exact borrows_bind (returns_bzero _ _) fun _ => borrows_pure _
      · refine returns_brelse fun _ => ih _ ?_ _ rfl
        unfold BPB BSIZE
        omega
    · exact returns_panic (by decide)

theorem returns_balloc (dev : Nat) : Returns 1 [] (balloc dev) :=
  borrows_bind (borrows_gets _) fun _ => returns_ballocFrom _ _ _

theorem returns_addrOf (ip : Fin NINODE) (j : Nat) : Returns 1 [] (addrOf ip j) := by
  refine borrows_bind (borrows_gets _) fun inode => borrows_ite ?_ (borrows_pure _)
  refine borrows_bind (returns_balloc _) fun _ => borrows_bind (returns_modify fun _ => ?_) fun _ => borrows_pure _
  rfl

/-- The indirect block is held while another is allocated. -/
theorem returns_bmap (ip : Fin NINODE) (bn : Nat) : Returns 2 [] (bmap ip bn) := by
  have haddr (j : Nat) : Returns 2 [] (addrOf ip j) := (returns_addrOf ip j).mono (by decide)
  refine borrows_ite (haddr _) (borrows_ite ?_ (returns_panic (by decide)))
  refine borrows_bind (borrows_gets _) fun _ => borrows_bind (haddr _) fun _ => ?_
  refine returns_bread fun _ => returns_load fun _ => borrows_ite ?_ ?_
  · refine borrows_bind (returns_balloc _) fun _ => returns_write fun _ => ?_
    exact returns_brelse fun _ => borrows_pure _
  · exact returns_brelse fun _ => borrows_pure _

theorem returns_iget (dev inum : Nat) : Returns k [] (iget dev inum) := by
  refine borrows_bind borrows_get fun s => ?_
  split
  · refine borrows_bind (returns_modify fun _ => ?_) fun _ => borrows_pure _
    rfl
  · split
    · exact returns_panic (by decide)
    · refine borrows_bind (returns_modify fun _ => ?_) fun _ => borrows_pure _
      rfl

theorem returns_ilock (ip : Fin NINODE) : Returns 1 [] (ilock ip) := by
  refine borrows_bind borrows_get fun s => borrows_ite (returns_panic (by decide)) (borrows_ite (borrows_pure _) ?_)
  refine returns_bread fun _ => returns_load fun _ => borrows_bind (returns_modify fun _ => ?_) fun _ => ?_
  · rfl
  · refine returns_brelse fun _ => borrows_bind (returns_modify fun _ => ?_) fun _ => ?_
    · rfl
    · exact borrows_bind (borrows_gets _) fun _ => borrows_ite (returns_panic (by decide)) (borrows_pure _)

theorem returns_iunlock (ip : Fin NINODE) : Returns k [] (iunlock ip) :=
  borrows_bind (borrows_gets _) fun _ => borrows_ite (returns_panic (by decide)) (borrows_pure _)

theorem returns_iput (ip : Fin NINODE) : Returns k [] (iput ip) := returns_modify fun _ => rfl

theorem returns_iupdate (ip : Fin NINODE) : Returns 1 [] (iupdate ip) :=
  borrows_bind borrows_get fun _ => returns_bread fun _ => returns_write fun _ => returns_brelse_last _

theorem returns_iallocFrom (dev : Nat) (type : UInt16) (sb : Superblock) (inum : Nat) :
    Returns 1 [] (iallocFrom dev type sb inum) := by
  induction hk : sb.ninodes - inum using Nat.strong_induction_on generalizing inum with
  | _ k ih =>
    unfold iallocFrom
    split
    · rename_i hlt
      refine returns_bread fun _ => returns_load fun _ => borrows_ite ?_ ?_
      · exact returns_write fun _ => returns_brelse fun _ => returns_iget _ _
      · exact returns_brelse fun _ => ih _ (by omega) _ rfl
    · exact returns_panic (by decide)

theorem returns_ialloc (dev : Nat) (type : UInt16) : Returns 1 [] (ialloc dev type) :=
  borrows_bind (borrows_gets _) fun _ => returns_iallocFrom _ _ _ _

theorem returns_readiLoop (ip : Fin NINODE) (off left : Nat) : Returns 2 [] (readiLoop ip off left) := by
  induction hk : left using Nat.strong_induction_on generalizing off left with
  | _ k ih =>
    subst hk
    have hmod : off % BSIZE < BSIZE := Nat.mod_lt _ (by decide)
    unfold readiLoop
    split
    · refine borrows_bind (returns_bmap _ _) fun _ => borrows_bind (borrows_gets _) fun _ => ?_
      refine returns_bread fun _ => returns_load fun _ => returns_brelse fun _ => ?_
      exact borrows_bind (ih _ (by omega) _ _ rfl) fun _ => borrows_pure _
    · exact borrows_pure _

theorem returns_readi (ip : Fin NINODE) (off n : UInt32) : Returns 2 [] (readi ip off n) := by
  refine borrows_bind (borrows_gets _) fun _ => borrows_ite (borrows_pure _) ?_
  exact borrows_bind (returns_readiLoop _ _ _) fun _ => borrows_pure _

theorem returns_writeiLoop (ip : Fin NINODE) (src : Bytes) (pos off left : Nat) :
    Returns 2 [] (writeiLoop ip src pos off left) := by
  induction hk : left using Nat.strong_induction_on generalizing pos off left with
  | _ k ih =>
    subst hk
    have hmod : off % BSIZE < BSIZE := Nat.mod_lt _ (by decide)
    unfold writeiLoop
    split
    · refine borrows_bind (returns_bmap _ _) fun _ => borrows_bind (borrows_gets _) fun _ => ?_
      refine returns_bread fun _ => returns_write fun _ => returns_brelse fun _ => ih _ (by omega) _ _ _ rfl
    · exact borrows_pure _

theorem returns_writei (ip : Fin NINODE) (src : Bytes) (off n : UInt32) : Returns 2 [] (writei ip src off n) := by
  refine borrows_bind (borrows_gets _) fun _ => borrows_ite (borrows_pure _) (borrows_ite (borrows_pure _) ?_)
  refine borrows_bind (returns_writeiLoop _ _ _ _ _) fun _ => borrows_bind (borrows_gets _) fun _ => ?_
  refine borrows_ite (borrows_bind (returns_modify fun _ => ?_) fun _ => ?_) (borrows_pure _)
  · rfl
  · exact borrows_bind ((returns_iupdate ip).mono (by decide)) fun _ => borrows_pure _

theorem returns_dirlookupFrom (dp : Fin NINODE) (name : Bytes) (size off : Nat) :
    Returns 2 [] (dirlookupFrom dp name size off) := by
  induction hk : size - off using Nat.strong_induction_on generalizing off with
  | _ k ih =>
    unfold dirlookupFrom
    split
    · rename_i hlt
      have hnext : Returns 2 [] (dirlookupFrom dp name size (off + DIRENT)) := by
        refine ih _ ?_ _ rfl
        unfold DIRENT
        omega
      refine borrows_bind (returns_readi _ _ _) fun r => borrows_ite (returns_panic (by decide)) ?_
      refine borrows_ite hnext (borrows_ite ?_ hnext)
      exact borrows_bind (borrows_gets _) fun _ => borrows_bind (returns_iget _ _) fun _ => borrows_pure _
    · exact borrows_pure _

theorem returns_dirlookup (dp : Fin NINODE) (name : Bytes) : Returns 2 [] (dirlookup dp name) :=
  borrows_bind (borrows_gets _) fun _ => returns_dirlookupFrom _ _ _ _

theorem returns_freeEntryFrom (dp : Fin NINODE) (size off : Nat) : Returns 2 [] (freeEntryFrom dp size off) := by
  induction hk : size - off using Nat.strong_induction_on generalizing off with
  | _ k ih =>
    unfold freeEntryFrom
    split
    · rename_i hlt
      refine borrows_bind (returns_readi _ _ _) fun r => borrows_ite (returns_panic (by decide)) ?_
      refine borrows_ite (borrows_pure _) (ih _ ?_ _ rfl)
      unfold DIRENT
      omega
    · exact borrows_pure _

theorem returns_dirlink (dp : Fin NINODE) (name : Bytes) (inum : Nat) : Returns 2 [] (dirlink dp name inum) := by
  refine borrows_bind (returns_dirlookup _ _) fun r => ?_
  split
  · exact borrows_bind (returns_iput _) fun _ => borrows_pure _
  · refine borrows_bind (borrows_gets _) fun _ => borrows_bind (returns_freeEntryFrom _ _ _) fun _ => ?_
    exact borrows_bind (returns_writei _ _ _ _) fun _ => borrows_ite (returns_panic (by decide)) (borrows_pure _)

theorem returns_namexFrom (parent : Bool) (ip : Fin NINODE) (path : List UInt8) (name : Bytes) :
    Returns 2 [] (namexFrom parent ip path name) := by
  induction hk : path.length using Nat.strong_induction_on generalizing path ip name with
  | _ k ih =>
    have hput {r : Option (Fin NINODE) × Bytes} (ip : Fin NINODE) :
        Returns 2 [] (do iunlock ip; iput ip; return r : Prog State _) :=
      borrows_bind (returns_iunlock _) fun _ => borrows_bind (returns_iput _) fun _ => borrows_pure _
    unfold namexFrom
    split
    · rename_i path' name' hskip
      refine borrows_bind ((returns_ilock ip).mono (by decide)) fun _ => borrows_bind (borrows_gets _) fun _ => ?_
      refine borrows_ite (hput ip) (borrows_ite ?_ ?_)
      · exact borrows_bind (returns_iunlock _) fun _ => borrows_pure _
      · refine borrows_bind (returns_dirlookup _ _) fun r => ?_
        split
        · exact hput ip
        · refine borrows_bind (returns_iunlock _) fun _ => borrows_bind (returns_iput _) fun _ => ?_
          exact ih _ (hk ▸ skipelem_length hskip) _ _ _ rfl
    · exact borrows_ite (borrows_bind (returns_iput _) fun _ => borrows_pure _) (borrows_pure _)

theorem returns_namex (path : List UInt8) (parent : Bool) (name : Bytes) : Returns 2 [] (namex path parent name) :=
  borrows_bind (returns_iget _ _) fun _ => returns_namexFrom _ _ _ _

theorem returns_namei (path : List UInt8) : Returns 2 [] (namei path) :=
  borrows_bind (returns_namex _ _ _) fun _ => borrows_pure _

end Returns

end RiscvOsLab.Fs
