import Xv6.Fs.Namei

/-!
# Fs — Reclaim

`ireclaim`, which removes at boot the files that have no name.

A file that is open when its last name goes is freed by the last `iput`.  A crash before that leaves an
inode in use without a link.

* `iput_dead`: the last `iput` of such a file.
* `ireclaimTurn_spec`: one turn of the loop frees the inode, if it is one of these.
* `reclaim_after_crash`: after a run and a crash, the blocks in use are those of the files with a link.
-/

namespace Xv6.Fs
open Xv6.Lib

/-- One inode of `ireclaim`. -/
def ireclaimTurn (sb : Super) (s : State) (inum : Nat) : Except String State :=
  if (dinodeAt sb s.disk inum).type ≠ 0 ∧ (dinodeAt sb s.disk inum).nlink = 0 then do
    let (i, s) ← iget s inum
    let s ← ilock sb s i
    iput sb s i
  else .ok s

def ireclaim (sb : Super) (s : State) : Except String State :=
  (List.range' 1 (sb.ninodes - 1)).foldlM (ireclaimTurn sb) s

variable {sb : Super} {disk : Disk} {s s₀ s' : State} {i : Fin NINODE} {inum : Nat} {l : List Nat}

/-- An inode in use that no directory names. -/
def Orphan (sb : Super) (disk : Disk) (inum : Nat) : Prop :=
  (dinodes sb disk inum).type ≠ 0 ∧ (dinodes sb disk inum).nlink = 0

instance (sb : Super) (disk : Disk) (inum : Nat) : Decidable (Orphan sb disk inum) :=
  inferInstanceAs (Decidable (_ ∧ _))

/-- **The last `iput`** of a file without a link. -/
theorem iput_dead (h : Consistent sb s) (hdead : Dead s i) (hrun : iput sb s i = .ok s') :
    dinodes sb s'.disk = Function.update (dinodes sb s.disk) (s.itable i).inum
      { (s.itable i).d with type := 0, size := 0, addrs := fun _ => 0 } := by
  have hdead' : (s.itable i).ref = 1 ∧ (s.itable i).valid = true ∧ (s.itable i).d.nlink = 0 := hdead
  have hpos : 0 < (s.itable i).ref := hdead.1 ▸ Nat.one_pos
  obtain ⟨disk₁, htrunc, hup, -⟩ := itrunc_held h ⟨hpos, hdead.2.1⟩
  rw [iput] at hrun
  simp only [if_pos hdead', htrunc, ok_bind, pure_eq_ok] at hrun
  cases hrun
  refine (dinodes_iupdate (h.table.inums i hpos) disk₁ _).trans ?_
  rw [hup.inodes, Function.update_idem]

/-! ### One turn -/

/-- What a turn does to an orphan. -/
structure Freed (sb : Super) (s s' : State) (inum : Nat) : Prop where
  consistent : Consistent sb s'
  table : TableWith s s' []
  tight : Tight sb (dinodes sb s'.disk) s'.disk
  type : (dinodes sb s'.disk inum).type = 0
  other : ∀ j, j ≠ inum → dinodes sb s'.disk j = dinodes sb s.disk j ∧ SameFile sb s.disk s'.disk j

theorem ireclaimTurn_orphan (h : Consistent sb s) (htight : Tight sb (dinodes sb s.disk) s.disk)
    (hroom : ∃ k, (s.itable k).ref = 0) (ho : Orphan sb s.disk inum)
    (hheld : ∀ j, 0 < (s.itable j).ref → (s.itable j).inum ≠ inum) :
    ∃ s', ireclaimTurn sb s inum = .ok s' ∧ Freed sb s s' inum := by
  have hlt := lt_ninodes ho.1
  have hat : dinodes sb s.disk inum = dinodeAt sb s.disk inum := if_pos hlt
  have ho' : (dinodeAt sb s.disk inum).type ≠ 0 ∧ (dinodeAt sb s.disk inum).nlink = 0 := hat ▸ ho
  rcases iget_cases s inum with ⟨i, s₁, hget, hgot⟩ | hget
  swap
  · obtain ⟨k, hk⟩ := hroom
    exact absurd hk (iget_full hget k).ne'
  -- the entry is a new one, so that this reference is the last
  have href : (s.itable i).ref = 0 := by
    cases hgot with
    | shared href hinum => exact absurd hinum (hheld i href)
    | recycled href => exact href
  have ht₁ := (TableWith.refl s).got hgot
  have hinum₁ := hgot.inum_eq
  obtain ⟨s₂, hlock, hlocked⟩ := ilock_spec (iget_consistent h hlt hget)
    (ht₁.pos (List.mem_singleton_self i)) (by rw [iget_disk hget, hinum₁]; exact ho.1)
  have ht₂ := ht₁.ilock hlock
  have hdisk : s₂.disk = s.disk := hlocked.disk.trans (iget_disk hget)
  have hinum : (s₂.itable i).inum = inum := (hlocked.inum i).trans hinum₁
  have hdead : Dead s₂ i := by
    refine ⟨?_, hlocked.held.2, ?_⟩
    · rw [ht₂.ref, href, List.count_singleton_self]
    · rw [hlocked.d, iget_disk hget, hinum₁]
      exact ho.2
  obtain ⟨s', hput, hcons⟩ := iput_consistent hlocked.consistent hlocked.held.1
  have hinodes := iput_dead hlocked.consistent hdead hput
  rw [hinum, hdisk] at hinodes
  refine ⟨s', ?_, hcons, ht₂.iput hput, ?_, ?_, fun j hj => ⟨?_, ?_⟩⟩
  · rw [ireclaimTurn, if_pos ho', hget, ok_bind]
    simp only [hlock, ok_bind, hput]
  · exact iput_tight hlocked.consistent (hdisk.symm ▸ htight) hlocked.held.1 hput
  · rw [hinodes, Function.update_self]
  · rw [hinodes, Function.update_of_ne hj]
  · rw [← hdisk]
    exact iput_frame hlocked.consistent hlocked.held.1 (Or.inl (hinum.symm ▸ hj.symm)) hput

/-! ### The loop -/

/-- The inodes of `l` have been looked at. -/
structure Reclaiming (sb : Super) (s₀ : State) (l : List Nat) (s : State) : Prop where
  consistent : Consistent sb s
  table : TableWith s₀ s []
  tight : Tight sb (dinodes sb s.disk) s.disk
  freed : ∀ j, j ∈ l → Orphan sb s₀.disk j → (dinodes sb s.disk j).type = 0
  kept : ∀ j, ¬ (j ∈ l ∧ Orphan sb s₀.disk j) →
    dinodes sb s.disk j = dinodes sb s₀.disk j ∧ SameFile sb s₀.disk s.disk j

section Loop

variable (hroom : ∃ k, (s₀.itable k).ref = 0)
  (hheld : ∀ i, 0 < (s₀.itable i).ref → ¬ Orphan sb s₀.disk (s₀.itable i).inum)

include hroom hheld

/-- **One turn**. -/
theorem ireclaimTurn_spec (h : Reclaiming sb s₀ l s) (hlt : inum < sb.ninodes) :
    ∃ s', ireclaimTurn sb s inum = .ok s' ∧ Reclaiming sb s₀ (l ++ [inum]) s' := by
  have hat : dinodes sb s.disk inum = dinodeAt sb s.disk inum := if_pos hlt
  have href : ∀ j, (s.itable j).ref = (s₀.itable j).ref := fun j => h.table.ref j
  by_cases ho : Orphan sb s.disk inum
  · have hsame := (h.kept inum fun hb => ho.1 (h.freed inum hb.1 hb.2)).1
    have ho₀ : Orphan sb s₀.disk inum := by
      rw [Orphan, ← hsame]
      exact ho
    obtain ⟨s', hrun, hfreed⟩ := ireclaimTurn_orphan h.consistent h.tight
      (hroom.imp fun k hk => (href k).trans hk) ho fun j hj heq => by
        rw [href] at hj
        rw [h.table.inum j hj] at heq
        exact hheld j hj (heq ▸ ho₀)
    refine ⟨s', hrun, hfreed.consistent, h.table.trans hfreed.table, hfreed.tight, fun j hj hoj => ?_,
      fun j hj => ?_⟩
    · by_cases hjn : j = inum
      · rw [hjn]
        exact hfreed.type
      · rw [(hfreed.other j hjn).1]
        exact h.freed j ((List.mem_append.mp hj).resolve_right fun hm => hjn (List.mem_singleton.mp hm)) hoj
    · have hjn : j ≠ inum := by
        rintro rfl
        exact hj ⟨List.mem_append_right _ (List.mem_singleton_self j), ho₀⟩
      obtain ⟨hD, hfile⟩ := h.kept j fun hb => hj ⟨List.mem_append_left _ hb.1, hb.2⟩
      obtain ⟨hD', hfile'⟩ := hfreed.other j hjn
      exact ⟨hD'.trans hD, hfile.trans hfile'⟩
  · -- nothing to do, also when the inode was freed before
    refine ⟨s, ?_, h.consistent, h.table, h.tight, fun j hj hoj => ?_, fun j hj =>
      h.kept j fun hb => hj ⟨List.mem_append_left _ hb.1, hb.2⟩⟩
    · rw [Orphan, hat] at ho
      exact if_neg ho
    · by_cases hl : j ∈ l
      · exact h.freed j hl hoj
      · obtain rfl := List.mem_singleton.mp ((List.mem_append.mp hj).resolve_left hl)
        have hsame := (h.kept j fun hb => hl hb.1).1
        rw [Orphan, hsame] at ho
        exact absurd hoj ho

theorem ireclaimLoop_spec : ∀ (l' l : List Nat) (s : State), Reclaiming sb s₀ l s →
    (∀ n ∈ l', n < sb.ninodes) →
    ∃ s', l'.foldlM (ireclaimTurn sb) s = .ok s' ∧ Reclaiming sb s₀ (l ++ l') s' := by
  intro l'
  induction l' with
  | nil => exact fun l s h _ => ⟨s, rfl, by rwa [List.append_nil]⟩
  | cons n l' ih =>
      intro l s h hlt
      obtain ⟨s₁, hrun, h₁⟩ := ireclaimTurn_spec hroom hheld h (hlt n List.mem_cons_self)
      obtain ⟨s', hrun', h'⟩ := ih _ s₁ h₁ fun m hm => hlt m (List.mem_cons_of_mem n hm)
      refine ⟨s', ?_, by rwa [List.append_assoc, List.singleton_append] at h'⟩
      rw [List.foldlM_cons, hrun, ok_bind, hrun']

end Loop

/-! ### After a crash -/

/-- What is left: no inode in use is without a link, and the others have not changed. -/
structure Reclaimed (sb : Super) (disk disk' : Disk) : Prop where
  orphans : ∀ j, 0 < j → ¬ Orphan sb disk' j
  kept : ∀ j, j = 0 ∨ ¬ Orphan sb disk j →
    dinodes sb disk' j = dinodes sb disk j ∧ SameFile sb disk disk' j
  blocks : ∀ n, sb.datastart ≤ n → n < sb.size → (inUse sb disk' n = true ↔
    ∃ j, (j = 0 ∨ ¬ Orphan sb disk j) ∧ FileBlock (dinodes sb disk) disk j n)

/-- **`ireclaim`**. -/
theorem ireclaim_spec (h : Consistent sb s) (htight : Tight sb (dinodes sb s.disk) s.disk)
    (hroom : ∃ k, (s.itable k).ref = 0)
    (hheld : ∀ i, 0 < (s.itable i).ref → ¬ Orphan sb s.disk (s.itable i).inum) :
    ∃ s', ireclaim sb s = .ok s' ∧ Consistent sb s' ∧ TableWith s s' [] ∧ Reclaimed sb s.disk s'.disk := by
  have hmem : ∀ n, n ∈ List.range' 1 (sb.ninodes - 1) ↔ 1 ≤ n ∧ n < sb.ninodes := fun n => by
    rw [List.mem_range'_1]
    omega
  obtain ⟨s', hrun, hloop⟩ := ireclaimLoop_spec hroom hheld (List.range' 1 (sb.ninodes - 1)) [] s
    ⟨h, .refl s, htight, fun j hj => (nomatch hj), fun j _ => ⟨rfl, .refl ..⟩⟩ fun n hn => ((hmem n).mp hn).2
  rw [List.nil_append] at hloop
  have hfreed : ∀ j, 0 < j → Orphan sb s.disk j → (dinodes sb s'.disk j).type = 0 := fun j hj ho =>
    hloop.freed j ((hmem j).mpr ⟨hj, lt_ninodes ho.1⟩) ho
  have hkept : ∀ j, j = 0 ∨ ¬ Orphan sb s.disk j →
      dinodes sb s'.disk j = dinodes sb s.disk j ∧ SameFile sb s.disk s'.disk j := by
    refine fun j hj => hloop.kept j fun hb => ?_
    rcases hj with rfl | hj
    · exact absurd ((hmem 0).mp hb.1).1 (by decide)
    · exact hj hb.2
  refine ⟨s', hrun, hloop.consistent, hloop.table, fun j hj ho => ?_, hkept, fun n hge hlt => ⟨fun hu => ?_, ?_⟩⟩
  · by_cases ho₀ : Orphan sb s.disk j
    · exact ho.1 (hfreed j hj ho₀)
    · rw [Orphan, (hkept j (Or.inr ho₀)).1] at ho
      exact ho₀ ho
  · obtain ⟨⟨j, slot⟩, hne, hn⟩ := hloop.tight n hge hlt hu
    have hj : j = 0 ∨ ¬ Orphan sb s.disk j := by
      by_contra hb
      obtain ⟨hj, ho⟩ := not_or.mp hb
      exact not_fileBlock_free (hfreed j (Nat.pos_of_ne_zero hj) (not_not.mp ho)) ⟨slot, hne, hn⟩
    rw [(hkept j hj).2.places] at hne hn
    exact ⟨j, hj, slot, hne, hn⟩
  · rintro ⟨j, hj, slot, hne, rfl⟩
    rw [← (hkept j hj).2.places] at hne ⊢
    exact hloop.consistent.owned.marked _ hne

/-- The inode table when `fsinit` runs: `userinit` has looked up the root. -/
def bootTable : Fin NINODE → Inode := fun i =>
  if i.val = 0 then ⟨ROOTINO, 1, false, newDinode 0⟩ else ⟨0, 0, false, newDinode 0⟩

/-- A crash leaves the disk, as the log has it after the last operation, and the machine boots. -/
inductive CrashOp where
  | op (o : FsOp)
  | crash

def crashStep (sb : Super) : CrashOp → State → Except String (FsResult × State)
  | .op o, s => fsStep sb o s
  | .crash, s => do
    let s ← ireclaim sb ⟨s.disk, bootTable⟩
    return (none, s)

/-- The root is not removed. -/
def CrashOp.Callable (sb : Super) : CrashOp → State → Prop
  | .op o, s => o.Callable sb s
  | .crash, s => (dinodes sb s.disk ROOTINO).type ≠ 0 ∧ (dinodes sb s.disk ROOTINO).nlink ≠ 0

instance (sb : Super) (o : CrashOp) (s : State) : Decidable (o.Callable sb s) :=
  match o with
  | .op _ => inferInstanceAs (Decidable (FsOp.Callable _ _ _))
  | .crash => inferInstanceAs (Decidable (_ ∧ _))

/-- The references at boot. -/
theorem bootTable_ref (h : 0 < (bootTable i).ref) : i.val = 0 ∧ bootTable i = ⟨ROOTINO, 1, false, newDinode 0⟩ := by
  by_cases hi : i.val = 0
  · exact ⟨hi, if_pos hi⟩
  · rw [bootTable, if_neg hi] at h
    exact absurd h (lt_irrefl 0)

/-- **A crash** does not stop the machine. -/
theorem crash_spec (h : Consistent sb s) (htight : Tight sb (dinodes sb s.disk) s.disk)
    (hroot : Linked sb s.disk ROOTINO) : ∃ s', crashStep sb .crash s = .ok (none, s') ∧ Consistent sb s' ∧
      TableWith ⟨s.disk, bootTable⟩ s' [] ∧ Reclaimed sb s.disk s'.disk := by
  have hboot : Consistent sb ⟨s.disk, bootTable⟩ := by
    refine ⟨h.layout, h.owned, fun i hi => ?_, fun i j hi hj _ => ?_, fun i hi hv => ?_⟩
    · show (bootTable i).inum < sb.ninodes
      rw [(bootTable_ref hi).2]
      exact lt_ninodes hroot.type
    · exact Fin.ext ((bootTable_ref hi).1.trans (bootTable_ref hj).1.symm)
    · have hinvalid : (bootTable i).valid = false := by rw [(bootTable_ref hi).2]
      exact absurd (hinvalid.symm.trans hv) Bool.false_ne_true
  obtain ⟨s', hrun, hcons, htable, hrec⟩ := ireclaim_spec hboot htight ⟨⟨1, one_lt_ninode⟩, rfl⟩ fun i hi ho => by
    have hinum : (bootTable i).inum = ROOTINO := by rw [(bootTable_ref hi).2]
    exact hroot.nlink (hinum ▸ ho.2)
  exact ⟨s', by rw [crashStep, hrun, ok_bind, pure_eq_ok], hcons, htable, hrec⟩

/-- What is left has no block that is lost. -/
theorem Reclaimed.tight (h : Reclaimed sb disk s'.disk) : Tight sb (dinodes sb s'.disk) s'.disk := by
  intro n hge hlt hu
  obtain ⟨j, hj, slot, hne, hn⟩ := (h.blocks n hge hlt).mp hu
  rw [← (h.kept j hj).2.places] at hne hn
  exact ⟨(j, slot), hne, hn⟩

/-- **A crash costs nothing but what had no name**: after any run with any crashes a data block is in use
exactly if it is a block of a file, and the next crash frees the files without a link, with their blocks,
and leaves every other file as it is. -/
theorem crash_frees_orphans (sb : Super) (os : List CrashOp) (s s' : State) (rs : List FsResult)
    (hcalls : Meets (crashStep sb) (CrashOp.Callable sb) os s) (h : Consistent sb s)
    (htight : Tight sb (dinodes sb s.disk) s.disk) (hrun : run (crashStep sb) os s = .ok (rs, s'))
    (hroot : CrashOp.Callable sb .crash s') :
    (∀ n, sb.datastart ≤ n → n < sb.size →
      (inUse sb s'.disk n = true ↔ ∃ i, FileBlock (dinodes sb s'.disk) s'.disk i n)) ∧
    ∃ s₂, crashStep sb .crash s' = .ok (none, s₂) ∧ TableWith ⟨s'.disk, bootTable⟩ s₂ [] ∧
      Reclaimed sb s'.disk s₂.disk := by
  obtain ⟨hcons, htight'⟩ : Consistent sb s' ∧ Tight sb (dinodes sb s'.disk) s'.disk :=
    run_invariant (I := fun s => Consistent sb s ∧ Tight sb (dinodes sb s.disk) s.disk)
      (fun o t r t' hG hI hstep => by
        cases o with
        | op o => exact ⟨fsStep_consistent hG hI.1 hstep, fsStep_tight hG hI.1 hI.2 hstep⟩
        | crash =>
            obtain ⟨t₂, hcrash, hcons₂, -, hrec⟩ := crash_spec hI.1 hI.2 ⟨hG.1, hG.2⟩
            cases hcrash.symm.trans hstep
            exact ⟨hcons₂, hrec.tight⟩)
      os s rs s' hcalls ⟨h, htight⟩ hrun
  obtain ⟨s₂, hcrash, -, htable, hrec⟩ := crash_spec hcons htight' ⟨hroot.1, hroot.2⟩
  exact ⟨marked_iff hcons htight', s₂, hcrash, htable, hrec⟩

/-- "a" is opened, written and removed while it is open; then the machine crashes. -/
def crashOps : List CrashOp :=
  [.op (.get 2), .op (.lock ⟨1, one_lt_ninode⟩),
    .op (.write ⟨1, one_lt_ninode⟩ (fun _ => (List.replicate BSIZE 7, true)) 0 5),
    .op (.link ⟨1, one_lt_ninode⟩ 0)]

theorem treeDisk_tight : Tight smallSuper (dinodes smallSuper treeDisk) treeDisk := by
  intro n hge hlt hu
  have hall : ∀ n, n < smallSuper.size → smallSuper.datastart ≤ n → inUse smallSuper treeDisk n = true →
      n = 4 := by decide
  rw [hall n hlt hge hu]
  exact ⟨(1, .addr 0), by decide, by decide⟩

theorem crash_frees_orphans_small : ∃ s', run (crashStep smallSuper) crashOps treeSystem.inodes =
      .ok ([some 1, none, some 5, none], s') ∧ inUse smallSuper s'.disk 5 = true ∧
    ∃ s₂, crashStep smallSuper .crash s' = .ok (none, s₂) ∧ Reclaimed smallSuper s'.disk s₂.disk := by
  obtain ⟨s', hrun, hroot, hused⟩ : ∃ s', run (crashStep smallSuper) crashOps treeSystem.inodes =
      .ok ([some 1, none, some 5, none], s') ∧ CrashOp.Callable smallSuper .crash s' ∧
      inUse smallSuper s'.disk 5 = true := by
    refine ⟨_, rfl, ?_, ?_⟩
    · decide +kernel
    · decide +kernel
  obtain ⟨-, s₂, hcrash, -, hrec⟩ := crash_frees_orphans smallSuper crashOps treeSystem.inodes s' _
    (by decide +kernel) treeSystem_ok.walkable.tidy.consistent treeDisk_tight hrun hroot
  exact ⟨s', hrun, hused, s₂, hcrash, hrec⟩

end Xv6.Fs
