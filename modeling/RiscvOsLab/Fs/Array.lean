import RiscvOsLab.Fs.Create
import RiscvOsLab.Mkfs.Image

/-!
# An inode as an array of bytes

`writei_readi_array` : what a write stores is what later reads deliver, and nothing else changes.
-/

namespace RiscvOsLab.Fs

open Prog Bytes Function

section Write
variable {s : State} {ip : Fin NINODE} {src : Bytes} {off n : UInt32} {E : Halt → Prop}

/-- `writei` and `readi` implement an array of bytes for each inode. -/
theorem writei_readi_array (s : State) (ip : Fin NINODE) (src : Bytes) (off n : UInt32) (hidle : Idle s.dev [])
    (hl : Locked s ip) (h : Structural s.sb s.dev.disk (tableOf s ip))
    (hfree : ¬ Refused (s.icache ip).din off n → blocksFor (nblk (s.icache ip).din.size.toNat)
      (max (nblk (s.icache ip).din.size.toNat) (nblk (off.toNat + n.toNat))) ≤ freeBlocks s) :
    ∃ r t, (writei ip src off n).run s = .ok (r, t) ∧
      (r = -1 ↔ Refused (s.icache ip).din off n) ∧
      (Refused (s.icache ip).din off n → t = s) ∧
      (¬ Refused (s.icache ip).din off n → r = n.toNat ∧ Written s ip src off.toNat n.toNat t ∧
        (t.icache ip).din.size.toNat =
          if 0 < n.toNat then max (s.icache ip).din.size.toNat (off.toNat + n.toNat)
          else (s.icache ip).din.size.toNat) ∧
      ∀ off' n' : UInt32, off'.toNat ≤ (t.icache ip).din.size.toNat → off'.toNat + n'.toNat < 2 ^ 32 →
        ∃ u, (readi ip off' n').run t = .ok (((min n'.toNat ((t.icache ip).din.size.toNat - off'.toNat) : Nat),
          bytesFrom t.dev.disk (t.icache ip).din off'.toNat
            (min n'.toNat ((t.icache ip).din.size.toNat - off'.toNat))), u) := by
  have hread (t : State) (ht : Idle t.dev []) (htl : Locked t ip) (hts : Structural t.sb t.dev.disk (tableOf t ip))
      (off' n' : UInt32) (hoff : off'.toNat ≤ (t.icache ip).din.size.toNat) (hwrap : off'.toNat + n'.toNat < 2 ^ 32) :
      ∃ u, (readi ip off' n').run t = .ok (((min n'.toNat ((t.icache ip).din.size.toNat - off'.toNat) : Nat),
        bytesFrom t.dev.disk (t.icache ip).din off'.toNat
          (min n'.toNat ((t.icache ip).din.size.toNat - off'.toNat))), u) := by
    have hmap := hts.mappedTo (i := (t.icache ip).inum) ⟨htl.inum, by rw [tableOf_self]; exact htl.type⟩
    rw [tableOf_self] at hmap
    have hwp : (readi ip off' n').wp (fun r _ => r = readAt t.dev.disk (t.icache ip).din off' n') (fun _ => False) t :=
      wp_readi ht htl.dev hmap fun _ _ _ => rfl
    obtain ⟨r, u, hrun, rfl⟩ := wp_total hwp
    refine ⟨u, hrun.trans ?_⟩
    have hin : ¬ (off' > (t.icache ip).din.size ∨ off' + n' < off') := by
      rw [u32_add_lt_iff, gt_iff_lt, UInt32.lt_iff_toNat_lt]
      omega
    unfold readAt readLen
    rw [if_neg hin]
  have hwp : (writei ip src off n).wp (fun r t => (Refused (s.icache ip).din off n ∧ r = -1 ∧ t = s) ∨
      (¬ Refused (s.icache ip).din off n ∧ r = n.toNat ∧ Written s ip src off.toNat n.toNat t)) (fun _ => False) s :=
    wp_writei hidle hl h (fun hr => .inr (hfree hr)) (fun hr => .inl ⟨hr, rfl, rfl⟩) fun hr t ht => .inr ⟨hr, rfl, ht⟩
  obtain ⟨r, t, hrun, ⟨hr, rfl, rfl⟩ | ⟨hr, rfl, ht⟩⟩ := wp_total hwp
  · exact ⟨-1, t, hrun, by simp [hr], fun _ => rfl, fun hn => absurd hr hn, hread t hidle hl h⟩
  · obtain ⟨addrs, hinode⟩ := ht.inode
    have htl : Locked t ip := by
      refine ⟨?_, ?_, ?_⟩ <;> rw [hinode]
      · exact hl.dev
      · rw [ht.sb]
        exact hl.inum
      · exact hl.type
    refine ⟨_, t, hrun, ?_, fun hn => absurd hn hr, fun _ => ⟨rfl, ht, ?_⟩, hread t ht.idle htl ht.structural⟩
    · simp only [hr, iff_false]
      omega
    · rw [ht.size]
      unfold Refused at hr
      split <;> omega

/-- A locked root directory in the default image, and an entry of zeros written behind the others. -/
theorem writei_readi_array_root : ∃ s ip, Locked s ip ∧ ∃ r t, (writei ip (fun _ => 0) 32 16).run s = .ok (r, t) := by
  obtain ⟨img, hm, -⟩ := Mkfs.makes 1000 (by unfold Mkfs.NoImage Mkfs.nmeta; decide)
  obtain ⟨s, hs⟩ := hm.mountStart
  obtain ⟨ip, t, -, ht, hv, hdin, -⟩ := wp_total (hm.wp_root hs)
  have hfree : blocksFor (nblk (t.icache ip).din.size.toNat)
      (max (nblk (t.icache ip).din.size.toNat) (nblk ((32 : UInt32).toNat + (16 : UInt32).toNat))) ≤ freeBlocks t := by
    rw [hdin]
    exact Nat.zero_le _
  obtain ⟨r, u, hrun, -⟩ := writei_readi_array t ip (fun _ => 0) 32 16 ht.idle (ht.locked hv)
    (ht.tableOf_eq hv ▸ ht.disk.structural) fun _ => hfree
  exact ⟨t, ip, ht.locked hv, r, u, hrun⟩

end Write

end RiscvOsLab.Fs
