import Xv6.Fs.Contents
import Xv6.Fs.Tight

/-!
# Fs — Frame

An operation on one file leaves the others as they are.

* `SameFile`: a file has the same blocks, size and bytes.
* `fsStep_frame`: one operation that is not about the file.
* `files_isolated`: runs of them.
-/

namespace Xv6.Fs
open Xv6.Lib

variable {sb : Super} {disk disk' : Disk} {D D' : Nat → Dinode} {d d' : Dinode} {i j n : Nat} {s s' : State}

/-- File `j` has not changed, but for its link count. -/
structure SameFile (sb : Super) (disk disk' : Disk) (j : Nat) : Prop where
  inode : dinodes sb disk' j = { dinodes sb disk j with nlink := (dinodes sb disk' j).nlink }
  places : ∀ slot, entry (dinodes sb disk') disk' (j, slot) = entry (dinodes sb disk) disk (j, slot)
  bytes : ∀ x, HasBlock (dinodes sb disk) disk j (x / BSIZE) →
    fileByte (dinodes sb disk') disk' j x = fileByte (dinodes sb disk) disk j x

theorem SameFile.refl (sb : Super) (disk : Disk) (j : Nat) : SameFile sb disk disk j :=
  ⟨rfl, fun _ => rfl, fun _ _ => rfl⟩

theorem SameFile.trans {disk₁ : Disk} (h : SameFile sb disk disk₁ j) (h' : SameFile sb disk₁ disk' j) :
    SameFile sb disk disk' j := by
  refine ⟨?_, fun slot => (h'.places slot).trans (h.places slot), fun x hx => ?_⟩
  · rw [h'.inode, h.inode]
  · rw [h'.bytes x (by rwa [HasBlock, h.places]), h.bytes x hx]

theorem SameFile.type_eq (h : SameFile sb disk disk' j) : (dinodes sb disk' j).type = (dinodes sb disk j).type := by
  rw [h.inode]

/-- A file whose places and blocks stay is the same. -/
theorem sameFile_of (hD : dinodes sb disk' j = { dinodes sb disk j with nlink := (dinodes sb disk' j).nlink })
    (hE : ∀ slot, entry (dinodes sb disk') disk' (j, slot) = entry (dinodes sb disk) disk (j, slot))
    (hblocks : ∀ slot, entry (dinodes sb disk) disk (j, slot) ≠ 0 → slot ≠ .addr indirectSlot →
      disk' (entry (dinodes sb disk) disk (j, slot)).toNat = disk (entry (dinodes sb disk) disk (j, slot)).toNat) :
    SameFile sb disk disk' j := by
  refine ⟨hD, hE, fun x hx => ?_⟩
  rw [fileByte, fileByte, hE, hblocks _ hx (slotOf_ne _)]

theorem Local.sameFile (h : Local sb (dinodes sb disk) disk (dinodes sb disk') disk' i) (hj : j ≠ i)
    (hD : dinodes sb disk' j = dinodes sb disk j) : SameFile sb disk disk' j :=
  sameFile_of (by rw [hD]) (fun _ => h.other hj) fun _ hne hslot => h.blocks _ hj hne hslot

/-- Another inode goes to the disk, and no data changes. -/
theorem sameFile_iupdate (h : Owned sb (dinodes sb disk) disk) (hsb : sb.Ok) (hi : i < sb.ninodes)
    (hj : j ≠ i) (d : Dinode) (hD : dinodes sb disk' = dinodes sb disk)
    (hsame : ∀ k, sb.datastart ≤ k → disk' k = disk k) : SameFile sb disk (iupdate sb disk' i d) j := by
  have hdata : ∀ k, sb.datastart ≤ k → iupdate sb disk' i d k = disk k := fun k hk =>
    (iupdate_data hsb hi d hk).trans (hsame k hk)
  have hinodes : dinodes sb (iupdate sb disk' i d) = Function.update (dinodes sb disk) i d := by
    rw [dinodes_iupdate hi, hD]
  refine sameFile_of ?_ (fun slot => ?_) fun slot hne _ => hdata _ (h.data _ hne).1
  · rw [hinodes, Function.update_of_ne hj]
  · rw [hinodes, entry_update_ne d (show ((j, slot) : Place).1 ≠ i from hj)]
    exact congrFun (h.entry_meta hdata) _

/-- The last reference to a file that has no name. -/
def Dead (s : State) (i : Fin NINODE) : Prop :=
  (s.itable i).ref = 1 ∧ (s.itable i).valid = true ∧ (s.itable i).d.nlink = 0

/-- The operation does not write to file `j`, truncate it or remove it. -/
def FsOp.Spares (j : Nat) : FsOp → State → Prop
  | .write i _ _ _, s => (s.itable i).inum ≠ j
  | .trunc i, s => (s.itable i).inum ≠ j
  | .put i, s => (s.itable i).inum ≠ j ∨ ¬ Dead s i
  | _, _ => True

instance (s : State) (i : Fin NINODE) : Decidable (Dead s i) := inferInstanceAs (Decidable (_ ∧ _ ∧ _))

instance (j : Nat) (o : FsOp) (s : State) : Decidable (o.Spares j s) :=
  match o with
  | .write _ _ _ _ => inferInstanceAs (Decidable (_ ≠ _))
  | .trunc _ => inferInstanceAs (Decidable (_ ≠ _))
  | .put _ => inferInstanceAs (Decidable (_ ∨ _))
  | .get _ => isTrue trivial
  | .lock _ => isTrue trivial
  | .alloc _ => isTrue trivial
  | .link _ _ => isTrue trivial

/-- A new inode is not one in use. -/
theorem ialloc_frame {type : BitVec 16} {x : Option (Fin NINODE)} (h : Consistent sb s)
    (hj : (dinodes sb s.disk j).type ≠ 0) (hrun : ialloc sb s type = .ok (x, s')) :
    SameFile sb s.disk s'.disk j := by
  rw [ialloc] at hrun
  cases hfind : ((List.range sb.ninodes).drop 1).find? fun inum =>
      decide ((dinodeAt sb s.disk inum).type = 0) with
  | none =>
      simp only [hfind] at hrun
      cases hrun
      exact .refl ..
  | some n =>
      simp only [hfind] at hrun
      obtain ⟨⟨k, s₁⟩, hget, hrun⟩ := bind_eq_ok.mp hrun
      cases hrun
      have hn : n < sb.ninodes :=
        List.mem_range.mp (List.mem_of_mem_drop (List.mem_of_find?_eq_some hfind))
      have hfree : (dinodes sb s.disk n).type = 0 := by
        rw [dinodes, if_pos hn]
        simpa using List.find?_some hfind
      rw [iget_disk hget]
      exact sameFile_iupdate h.owned h.layout hn (fun heq => hj (by rw [heq, hfree])) _ rfl fun _ _ => rfl

/-- **`itrunc`** of another file. -/
theorem itrunc_frame (h : Owned sb (dinodes sb disk) disk) (hsb : sb.Ok) (hi : i < sb.ninodes)
    (hd : dinodes sb disk i = d) (ht : d.type ≠ 0) (hj : j ≠ i)
    (hrun : itrunc sb disk i d = .ok (disk', d')) : SameFile sb disk disk' j := by
  obtain ⟨disk₁, hf, hrun'⟩ := itrunc_frees h hd ht i
  rw [hrun'] at hrun
  cases hrun
  exact sameFile_iupdate h hsb hi hj _ (dinodes_congr hsb fun k hk => hf.blocks k (Or.inl hk)) fun k hk =>
    hf.blocks k (Or.inr hk)

theorem iput_frame {k : Fin NINODE} (h : Consistent sb s) (hr : 0 < (s.itable k).ref)
    (hspare : (s.itable k).inum ≠ j ∨ ¬ Dead s k) (hrun : iput sb s k = .ok s') :
    SameFile sb s.disk s'.disk j := by
  rw [iput] at hrun
  by_cases hdead : (s.itable k).ref = 1 ∧ (s.itable k).valid = true ∧ (s.itable k).d.nlink = 0
  · have hj : j ≠ (s.itable k).inum := (hspare.resolve_right fun hn => hn hdead).symm
    obtain ⟨disk₁, htrunc, hup, -⟩ := itrunc_held h ⟨hr, hdead.2.1⟩
    have hinum := h.table.inums k hr
    obtain ⟨hd, ht⟩ := dinode_of_held h ⟨hr, hdead.2.1⟩
    have hframe := itrunc_frame h.owned h.layout hinum hd ht hj htrunc
    simp only [if_pos hdead, htrunc, ok_bind, pure_eq_ok] at hrun
    cases hrun
    exact hframe.trans (sameFile_iupdate hup.owned h.layout hinum hj _ rfl fun _ _ => rfl)
  · rw [if_neg hdead] at hrun
    cases hrun
    exact .refl ..

/-- **One operation** that is not about file `j`. -/
theorem fsStep_frame {o : FsOp} {r : FsResult} (hcall : o.Callable sb s) (hspare : o.Spares j s)
    (h : Consistent sb s) (hj : (dinodes sb s.disk j).type ≠ 0) (hstep : fsStep sb o s = .ok (r, s')) :
    SameFile sb s.disk s'.disk j := by
  cases o with
  | get inum =>
      obtain ⟨⟨i, s₁⟩, hrun, hret⟩ := bind_eq_ok.mp hstep
      cases hret
      rw [iget_disk hrun]
      exact .refl ..
  | lock i =>
      obtain ⟨s₁, hrun, hret⟩ := bind_eq_ok.mp hstep
      cases hret
      rw [ilock_disk hrun]
      exact .refl ..
  | write i src off n =>
      obtain ⟨⟨res, disk₁, d₁⟩, hrun, hret⟩ := bind_eq_ok.mp hstep
      cases hret
      obtain ⟨hd, ht⟩ := dinode_of_held h hcall
      have hi := h.table.inums i hcall.1
      obtain ⟨res', disk₂, d₂, hrun', hup, -⟩ := writei_spec h.owned h.layout hi hd ht src off n
      cases hrun.symm.trans hrun'
      refine (writei_local h.owned h.layout hi hd ht hrun).sameFile (Ne.symm hspare) ?_
      rw [hup.inodes, Function.update_of_ne (Ne.symm hspare)]
  | trunc i =>
      obtain ⟨⟨disk₁, d₁⟩, hrun, hret⟩ := bind_eq_ok.mp hstep
      cases hret
      obtain ⟨hd, ht⟩ := dinode_of_held h hcall
      exact itrunc_frame h.owned h.layout (h.table.inums i hcall.1) hd ht (Ne.symm hspare) hrun
  | alloc type =>
      obtain ⟨⟨i, s₁⟩, hrun, hret⟩ := bind_eq_ok.mp hstep
      cases hret
      exact ialloc_frame h hj hrun
  | put i =>
      obtain ⟨s₁, hrun, hret⟩ := bind_eq_ok.mp hstep
      cases hret
      exact iput_frame h hcall hspare hrun
  | link i nlink =>
      cases hstep
      obtain ⟨hd, ht⟩ := dinode_of_held h hcall
      have hi := h.table.inums i hcall.1
      have hE : entry (Function.update (dinodes sb s.disk) _ _) s.disk = entry (dinodes sb s.disk) s.disk :=
        entry_nlink (hd.symm ▸ ht) nlink
      rw [hd] at hE
      let d : Dinode := { (s.itable i).d with nlink := nlink }
      have hown : Owned sb (Function.update (dinodes sb s.disk) (s.itable i).inum d) s.disk :=
        h.owned.same h.layout hE fun _ _ hu => hu
      have hinodes := dinodes_iupdate hi s.disk d
      have hdata : ∀ k, sb.datastart ≤ k → iupdate sb s.disk (s.itable i).inum d k = s.disk k := fun k hk =>
        iupdate_data h.layout hi d hk
      show SameFile sb s.disk (iupdate sb s.disk (s.itable i).inum d) j
      refine sameFile_of ?_ (fun slot => ?_) fun slot hne _ => hdata _ (h.owned.data _ hne).1
      · rw [hinodes]
        by_cases hij : j = (s.itable i).inum
        · rw [hij, Function.update_self, hd]
        · rw [Function.update_of_ne hij]
      · rw [hinodes, hown.entry_meta hdata]
        exact congrFun hE _

/-- **Files are isolated**: in every run, also when the blocks run out, a file keeps its inode but for the
link count, its blocks and its bytes, as long as no operation writes to it, truncates it or removes it. -/
theorem files_isolated (sb : Super) (j : Nat) (os : List FsOp) (s s' : State) (rs : List FsResult)
    (hcalls : Meets (fsStep sb) (fun o s => o.Callable sb s ∧ o.Spares j s) os s) (h : Consistent sb s)
    (hj : (dinodes sb s.disk j).type ≠ 0) (hrun : run (fsStep sb) os s = .ok (rs, s')) :
    SameFile sb s.disk s'.disk j := by
  obtain ⟨-, -, hsame⟩ : Consistent sb s' ∧ (dinodes sb s'.disk j).type ≠ 0 ∧ SameFile sb s.disk s'.disk j :=
    run_invariant (I := fun t => Consistent sb t ∧ (dinodes sb t.disk j).type ≠ 0 ∧ SameFile sb s.disk t.disk j)
      (fun _ _ _ _ hG hI hstep => by
        have hframe := fsStep_frame hG.1 hG.2 hI.1 hI.2.1 hstep
        exact ⟨fsStep_consistent hG.1 hI.1 hstep, hframe.type_eq.symm ▸ hI.2.1, hI.2.2.trans hframe⟩)
      os s rs s' hcalls ⟨h, hj, .refl ..⟩ hrun
  exact hsame

/-- A second file takes what is left of the disk and is removed. -/
def otherOps : List FsOp :=
  [.alloc 1, .lock ⟨0, zero_lt_ninode⟩,
    .write ⟨0, zero_lt_ninode⟩ (fun _ => (List.replicate BSIZE 7, true)) 0 4000, .put ⟨0, zero_lt_ninode⟩]

theorem files_isolated_small : ∃ s', run (fsStep smallSuper) otherOps smallState =
      .ok ([some 0, none, some 2048, none], s') ∧ SameFile smallSuper smallDisk s'.disk 1 := by
  obtain ⟨s', hrun⟩ : ∃ s', run (fsStep smallSuper) otherOps smallState =
      .ok ([some 0, none, some 2048, none], s') := eq_ok_of_result (by decide +kernel)
  exact ⟨s', hrun, files_isolated smallSuper 1 otherOps smallState s' _ (by decide +kernel)
    smallState_consistent (by decide) hrun⟩

end Xv6.Fs
