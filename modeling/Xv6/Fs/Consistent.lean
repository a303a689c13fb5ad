import Xv6.Fs.Trunc

/-!
# Fs — Consistent

Runs of the inode layer keep the disk consistent.

The table agrees with the disk: an inode has one entry, and a valid entry holds what the disk has, so
that `itrunc` and `writei` start from the block numbers that are on disk.

* `TableOk.set`: what a change of one entry has to see to.
* `fsStep_consistent`, `fsStep_error`: one operation keeps `Consistent`, and does not free a free block.
* `blocks_owned`: the same over runs.
-/

namespace Xv6.Fs
open Xv6.Lib

variable {sb : Super} {disk disk' : Disk} {D D' : Nat → Dinode} {d d' : Dinode} {n inum : Nat} {a : Word}
  {s s' : State} {i : Fin NINODE} {t : Fin NINODE → Inode}

/-! ### The inode table -/

structure TableOk (sb : Super) (D : Nat → Dinode) (t : Fin NINODE → Inode) : Prop where
  inums : ∀ i, 0 < (t i).ref → (t i).inum < sb.ninodes
  once : ∀ i j, 0 < (t i).ref → 0 < (t j).ref → (t i).inum = (t j).inum → i = j
  valid : ∀ i, 0 < (t i).ref → (t i).valid = true → (t i).d = D (t i).inum ∧ (t i).d.type ≠ 0

/-- A change of inodes that no valid entry holds. -/
theorem TableOk.elsewhere (h : TableOk sb D t)
    (hD : ∀ j, 0 < (t j).ref → (t j).valid = true → D' (t j).inum = D (t j).inum) :
    TableOk sb D' t :=
  ⟨h.inums, h.once, fun j hr hv => ⟨(h.valid j hr hv).1.trans (hD j hr hv).symm, (h.valid j hr hv).2⟩⟩

/-- What a new entry has to see to. -/
structure EntryOk (sb : Super) (D : Nat → Dinode) (t : Fin NINODE → Inode) (i : Fin NINODE)
    (ip : Inode) : Prop where
  inum : ip.inum < sb.ninodes
  once : ∀ j, j ≠ i → 0 < (t j).ref → (t j).inum ≠ ip.inum
  valid : ip.valid = true → ip.d = D ip.inum ∧ ip.d.type ≠ 0

theorem TableOk.entryOk (h : TableOk sb D t) (hr : 0 < (t i).ref) : EntryOk sb D t i (t i) :=
  ⟨h.inums i hr, fun j hj hrj heq => hj (h.once j i hrj hr heq), h.valid i hr⟩

theorem TableOk.set (h : TableOk sb D t) {ip : Inode}
    (hD : ∀ j, j ≠ i → 0 < (t j).ref → D' (t j).inum = D (t j).inum)
    (hip : 0 < ip.ref → EntryOk sb D' t i ip) : TableOk sb D' (Function.update t i ip) := by
  have hself : Function.update t i ip i = ip := Function.update_self ..
  have hother : ∀ j, j ≠ i → Function.update t i ip j = t j := fun j hj => Function.update_of_ne hj ..
  refine ⟨fun j hr => ?_, fun j k hrj hrk heq => ?_, fun j hr hv => ?_⟩
  · by_cases hj : j = i
    · rw [hj, hself] at hr ⊢
      exact (hip hr).inum
    · rw [hother j hj] at hr ⊢
      exact h.inums j hr
  · by_cases hj : j = i
    · by_cases hk : k = i
      · rw [hj, hk]
      · rw [hj, hself] at hrj heq
        rw [hother k hk] at hrk heq
        exact absurd heq.symm ((hip hrj).once k hk hrk)
    · rw [hother j hj] at hrj heq
      by_cases hk : k = i
      · rw [hk, hself] at hrk heq
        exact absurd heq ((hip hrk).once j hj hrj)
      · rw [hother k hk] at hrk heq
        exact h.once j k hrj hrk heq
  · by_cases hj : j = i
    · rw [hj, hself] at hr hv ⊢
      exact (hip hr).valid hv
    · rw [hother j hj] at hr hv ⊢
      rw [hD j hj hr]
      exact h.valid j hr hv

/-- **A consistent state** of the disk and the inode table. -/
structure Consistent (sb : Super) (s : State) : Prop where
  layout : sb.Ok
  owned : Owned sb (dinodes sb s.disk) s.disk
  table : TableOk sb (dinodes sb s.disk) s.itable

/-- A consistent image, before there are any inodes in memory. -/
theorem consistent_image (hsb : sb.Ok) (h : Owned sb (dinodes sb disk) disk)
    (hempty : ∀ i, (t i).ref = 0) : Consistent sb ⟨disk, t⟩ := by
  have hnone : ∀ i, ¬ 0 < (t i).ref := fun i => by
    rw [hempty i]
    exact Nat.lt_irrefl 0
  exact ⟨hsb, h, fun i hr => absurd hr (hnone i), fun i _ hr => absurd hr (hnone i),
    fun i hr => absurd hr (hnone i)⟩

/-! ### Steps -/

/-- The inode of a table entry changes, in memory and on disk. -/
theorem Consistent.update (h : Consistent sb s) (hi : Held s i)
    (hup : Updated sb s.disk disk' (s.itable i).inum d') (ht : d'.type ≠ 0) :
    Consistent sb (setInode { s with disk := disk' } i { s.itable i with d := d' }) := by
  have hentry := h.table.entryOk hi.1
  refine ⟨h.layout, hup.owned, h.table.set (fun j hj hr => ?_) fun _ =>
    ⟨hentry.inum, hentry.once, fun _ => ⟨?_, ht⟩⟩⟩
  · exact (congrFun hup.inodes _).trans (Function.update_of_ne (hentry.once j hj hr) ..)
  · exact ((congrFun hup.inodes _).trans (Function.update_self ..)).symm

theorem iget_consistent (h : Consistent sb s) (hn : inum < sb.ninodes)
    (hrun : iget s inum = .ok (i, s')) : Consistent sb s' := by
  rw [iget] at hrun
  cases hfind : (List.finRange NINODE).find? fun i =>
      decide (0 < (s.itable i).ref) && decide ((s.itable i).inum = inum) with
  | some j =>
      simp only [hfind] at hrun
      cases hrun
      obtain ⟨hr, -⟩ : 0 < (s.itable i).ref ∧ (s.itable i).inum = inum := by
        simpa using List.find?_some hfind
      have hentry := h.table.entryOk hr
      exact ⟨h.layout, h.owned, h.table.set (fun _ _ _ => rfl) fun _ =>
        ⟨hentry.inum, hentry.once, hentry.valid⟩⟩
  | none =>
      simp only [hfind] at hrun
      have hnone : ∀ j, 0 < (s.itable j).ref → (s.itable j).inum ≠ inum := by
        intro j hr heq
        have := List.find?_eq_none.mp hfind j (List.mem_finRange j)
        simp [hr, heq] at this
      cases hfree : (List.finRange NINODE).find? fun i => decide ((s.itable i).ref = 0) with
      | none =>
          simp only [hfree] at hrun
          cases hrun
      | some j =>
          simp only [hfree] at hrun
          cases hrun
          exact ⟨h.layout, h.owned, h.table.set (fun _ _ _ => rfl) fun _ =>
            ⟨hn, fun j _ => hnone j, fun hv => absurd hv Bool.false_ne_true⟩⟩

theorem ilock_consistent (h : Consistent sb s) (hrun : ilock sb s i = .ok s') : Consistent sb s' := by
  rw [ilock] at hrun
  by_cases hr : (s.itable i).ref < 1
  · rw [if_pos hr] at hrun
    cases hrun
  · by_cases hv : (s.itable i).valid = true
    · rw [if_neg hr, if_pos hv] at hrun
      cases hrun
      exact h
    · by_cases ht : (dinodeAt sb s.disk (s.itable i).inum).type = 0
      · rw [if_neg hr, if_neg hv, if_pos ht] at hrun
        cases hrun
      · rw [if_neg hr, if_neg hv, if_neg ht] at hrun
        cases hrun
        have hentry := h.table.entryOk (Nat.pos_of_ne_zero fun h0 => hr (h0 ▸ Nat.zero_lt_one))
        refine ⟨h.layout, h.owned, h.table.set (fun _ _ _ => rfl) fun _ =>
          ⟨hentry.inum, hentry.once, fun _ => ⟨?_, ht⟩⟩⟩
        exact (if_pos hentry.inum).symm

/-- An inode on disk that holds no blocks is overwritten by one that holds none. -/
theorem Owned.emptied (h : Owned sb D disk) (hd : ∀ j, d.addrs j = 0) :
    Owned sb (Function.update D n d) disk := by
  have hle : ∀ P, entry (Function.update D n d) disk P = 0 ∨
      entry (Function.update D n d) disk P = entry D disk P := fun P =>
    (entry_cleared hd P).imp_right And.right
  refine h.shrink hle (fun P hP => ?_) h.reserved
  have hsame := (hle P).resolve_left hP
  rw [hsame] at hP ⊢
  exact h.marked P hP

theorem ialloc_consistent {type : BitVec 16} {x : Option (Fin NINODE)} (h : Consistent sb s)
    (hrun : ialloc sb s type = .ok (x, s')) : Consistent sb s' := by
  rw [ialloc] at hrun
  cases hfind : ((List.range sb.ninodes).drop 1).find? fun inum =>
      decide ((dinodeAt sb s.disk inum).type = 0) with
  | none =>
      simp only [hfind] at hrun
      cases hrun
      exact h
  | some n =>
      simp only [hfind] at hrun
      obtain ⟨⟨j, s₁⟩, hget, hrun⟩ := bind_eq_ok.mp hrun
      cases hrun
      have hn : n < sb.ninodes :=
        List.mem_range.mp (List.mem_of_mem_drop (List.mem_of_find?_eq_some hfind))
      have hfree : (dinodes sb s.disk n).type = 0 := by
        rw [dinodes, if_pos hn]
        simpa using List.find?_some hfind
      have hup := (h.owned.emptied fun _ => rfl).updated (d := newDinode type) h.layout hn
      refine iget_consistent ⟨h.layout, hup.owned, ?_⟩ hn hget
      -- a valid entry has a type, so it holds another inode
      refine h.table.elsewhere fun k hr hv => ?_
      obtain ⟨hd, ht⟩ := h.table.valid k hr hv
      have hne : (s.itable k).inum ≠ n := fun heq => by
        rw [hd, heq] at ht
        exact ht hfree
      rw [hup.inodes, Function.update_of_ne hne]

theorem dinode_of_held (h : Consistent sb s) (hi : Held s i) :
    dinodes sb s.disk (s.itable i).inum = (s.itable i).d ∧ (s.itable i).d.type ≠ 0 :=
  ⟨(h.table.valid i hi.1 hi.2).1.symm, (h.table.valid i hi.1 hi.2).2⟩

/-- `itrunc` of a locked inode. -/
theorem itrunc_held (h : Consistent sb s) (hi : Held s i) : ∃ disk',
    itrunc sb s.disk (s.itable i).inum (s.itable i).d =
      .ok (disk', { (s.itable i).d with size := 0, addrs := fun _ => 0 }) ∧
    Updated sb s.disk disk' (s.itable i).inum { (s.itable i).d with size := 0, addrs := fun _ => 0 } ∧
    ∀ n, inUse sb disk' n = true ↔ inUse sb s.disk n = true ∧
      ¬ FileBlock (dinodes sb s.disk) s.disk (s.itable i).inum n :=
  itrunc_spec h.owned h.layout (h.table.inums i hi.1) (dinode_of_held h hi).1 (dinode_of_held h hi).2

theorem iput_consistent (h : Consistent sb s) (hr : 0 < (s.itable i).ref) :
    ∃ s', iput sb s i = .ok s' ∧ Consistent sb s' := by
  have hentry := h.table.entryOk hr
  by_cases hdead : (s.itable i).ref = 1 ∧ (s.itable i).valid = true ∧ (s.itable i).d.nlink = 0
  · obtain ⟨disk₁, hrun, hup, -⟩ := itrunc_held h ⟨hr, hdead.2.1⟩
    let d₀ : Dinode := { (s.itable i).d with type := 0, size := 0, addrs := fun _ => 0 }
    let ip : Inode := { s.itable i with ref := (s.itable i).ref - 1, valid := false, d := d₀ }
    have hfree : Owned sb (Function.update (dinodes sb disk₁) (s.itable i).inum d₀) disk₁ :=
      hup.owned.emptied fun _ => rfl
    have hup₂ := hfree.updated h.layout hentry.inum
    have hput : iput sb s i =
        .ok (setInode { s with disk := iupdate sb disk₁ (s.itable i).inum d₀ } i ip) := by
      simp only [iput, if_pos hdead, hrun, ok_bind, pure_eq_ok]
      rfl
    refine ⟨_, hput, h.layout, hup₂.owned, h.table.set (fun j hj hrj => ?_) fun hpos => ?_⟩
    · refine (congrFun hup₂.inodes _).trans ((Function.update_of_ne (hentry.once j hj hrj) ..).trans ?_)
      exact (congrFun hup.inodes _).trans (Function.update_of_ne (hentry.once j hj hrj) ..)
    · have hzero : ip.ref = 0 := by
        simp only [ip, hdead.1]
      exact absurd hpos (hzero ▸ Nat.lt_irrefl 0)
  · exact ⟨_, if_neg hdead, h.layout, h.owned, h.table.set (fun _ _ _ => rfl) fun _ =>
      ⟨hentry.inum, hentry.once, hentry.valid⟩⟩

/-- A change of the link count changes no block. -/
theorem entry_nlink (h : (D n).type ≠ 0) (w : BitVec 16) :
    entry (Function.update D n { D n with nlink := w }) disk = entry D disk := by
  funext P
  obtain ⟨k, slot⟩ := P
  by_cases hk : k = n
  · subst hk
    cases slot with
    | addr j => rw [entry, entry, Function.update_self]
    | ind j => rw [entry, entry, Function.update_self]
  · cases slot with
    | addr j => rw [entry, entry, Function.update_of_ne hk]
    | ind j => rw [entry, entry, Function.update_of_ne hk]

/-- **One operation** keeps the state consistent. -/
theorem fsStep_consistent {o : FsOp} {r : FsResult} (hcall : o.Callable sb s) (h : Consistent sb s)
    (hstep : fsStep sb o s = .ok (r, s')) : Consistent sb s' := by
  cases o with
  | get inum =>
      obtain ⟨⟨i, s₁⟩, hrun, hret⟩ := bind_eq_ok.mp hstep
      cases hret
      exact iget_consistent h hcall hrun
  | lock i =>
      obtain ⟨s₁, hrun, hret⟩ := bind_eq_ok.mp hstep
      cases hret
      exact ilock_consistent h hrun
  | write i src off n =>
      obtain ⟨hd, ht⟩ := dinode_of_held h hcall
      obtain ⟨res, disk₁, d₁, hrun, hup, ht₁⟩ :=
        writei_spec h.owned h.layout (h.table.inums i hcall.1) hd ht src off n
      obtain ⟨x, hx, hret⟩ := bind_eq_ok.mp hstep
      cases hrun.symm.trans hx
      cases hret
      exact h.update hcall hup ht₁
  | trunc i =>
      obtain ⟨disk₁, hrun, hup, -⟩ := itrunc_held h hcall
      obtain ⟨x, hx, hret⟩ := bind_eq_ok.mp hstep
      cases hrun.symm.trans hx
      cases hret
      exact h.update hcall hup (dinode_of_held h hcall).2
  | alloc type =>
      obtain ⟨⟨i, s₁⟩, hrun, hret⟩ := bind_eq_ok.mp hstep
      cases hret
      exact ialloc_consistent h hrun
  | put i =>
      obtain ⟨s₁, hrun, hcons⟩ := iput_consistent h hcall
      obtain ⟨s₂, hx, hret⟩ := bind_eq_ok.mp hstep
      cases hrun.symm.trans hx
      cases hret
      exact hcons
  | link i nlink =>
      cases hstep
      obtain ⟨hd, ht⟩ := dinode_of_held h hcall
      have hE : entry (Function.update (dinodes sb s.disk) _ _) s.disk = entry (dinodes sb s.disk) s.disk :=
        entry_nlink (hd.symm ▸ ht) nlink
      rw [hd] at hE
      exact h.update hcall ((h.owned.same h.layout hE fun _ _ hu => hu).updated h.layout
        (h.table.inums i hcall.1)) ht

/-- The panics that are left: a full inode table, and an inode that its directory should not name. -/
theorem fsStep_error {o : FsOp} {e : String} (hcall : o.Callable sb s) (h : Consistent sb s)
    (hstep : fsStep sb o s = .error e) : e = "iget: no inodes" ∨ e = "ilock: no type" := by
  have hget : ∀ (s : State) (inum : Nat), iget s inum = .error e → e = "iget: no inodes" := by
    intro s inum hrun
    rw [iget] at hrun
    split at hrun
    · cases hrun
    · split at hrun
      · cases hrun
        rfl
      · cases hrun
  cases o with
  | get inum =>
      cases hrun : iget s inum with
      | ok x => simp only [fsStep, hrun, ok_bind] at hstep; cases hstep
      | error e' =>
          simp only [fsStep, hrun, error_bind] at hstep
          cases hstep
          exact Or.inl (hget s inum hrun)
  | lock i =>
      have hr : ¬ (s.itable i).ref < 1 := Nat.not_lt.mpr hcall
      by_cases hv : (s.itable i).valid = true
      · simp only [fsStep, ilock, if_neg hr, if_pos hv, ok_bind] at hstep
        cases hstep
      · by_cases ht : (dinodeAt sb s.disk (s.itable i).inum).type = 0
        · simp only [fsStep, ilock, if_neg hr, if_neg hv, if_pos ht, error_bind] at hstep
          cases hstep
          exact Or.inr rfl
        · simp only [fsStep, ilock, if_neg hr, if_neg hv, if_neg ht, ok_bind] at hstep
          cases hstep
  | write i src off n =>
      obtain ⟨hd, ht⟩ := dinode_of_held h hcall
      obtain ⟨res, disk₁, d₁, hrun, -⟩ :=
        writei_spec h.owned h.layout (h.table.inums i hcall.1) hd ht src off n
      simp only [fsStep, hrun, ok_bind] at hstep
      cases hstep
  | trunc i =>
      obtain ⟨disk₁, hrun, -⟩ := itrunc_held h hcall
      simp only [fsStep, hrun, ok_bind] at hstep
      cases hstep
  | alloc type =>
      cases hfind : ((List.range sb.ninodes).drop 1).find? fun inum =>
          decide ((dinodeAt sb s.disk inum).type = 0) with
      | none =>
          simp only [fsStep, ialloc, hfind, ok_bind] at hstep
          cases hstep
      | some n =>
          cases hrun : iget { s with disk := iupdate sb s.disk n (newDinode type) } n with
          | ok x =>
              simp only [fsStep, ialloc, hfind, hrun, ok_bind] at hstep
              cases hstep
          | error e' =>
              simp only [fsStep, ialloc, hfind, hrun, error_bind] at hstep
              cases hstep
              exact Or.inl (hget _ n hrun)
  | put i =>
      obtain ⟨s₁, hrun, -⟩ := iput_consistent h hcall
      simp only [fsStep, hrun, ok_bind] at hstep
      cases hstep
  | link i nlink => cases hstep

/-- `balloc` gives a block that is marked free and that no inode names. -/
theorem balloc_free (h : Owned sb D disk) (hsb : sb.Ok) (hrun : balloc sb disk = (a, disk'))
    (hne : a ≠ 0) : inUse sb disk a.toNat = false ∧ ∀ P, entry D disk P ≠ a := by
  have hfree : inUse sb disk a.toNat = false := by
    rw [balloc] at hrun
    cases hfind : (List.range sb.size).find? fun b => !inUse sb disk b with
    | none =>
        simp only [hfind] at hrun
        cases hrun
        exact absurd rfl hne
    | some b =>
        simp only [hfind] at hrun
        cases hrun
        have hb : b < sb.size := List.mem_range.mp (List.mem_of_find?_eq_some hfind)
        have hnat : (BitVec.ofNat 32 b).toNat = b := by
          have := hsb.small
          rw [BitVec.toNat_ofNat]
          exact Nat.mod_eq_of_lt (by omega)
        rw [hnat]
        simpa using List.find?_some hfind
  refine ⟨hfree, fun P hP => ?_⟩
  have hmark := h.marked P (hP ▸ hne)
  rw [hP, hfree] at hmark
  cases hmark

/-! ### Runs -/

/-- **Disk blocks are owned by one file**, in every state that the operations lead to from a
consistent one.  There `itrunc` gives back exactly the blocks of its file and leaves no block number,
`balloc` finds a block that is in no file, and no operation frees a free block. -/
theorem blocks_owned (sb : Super) (os : List FsOp) (s s' : State) (rs : List FsResult)
    (hcalls : Meets (fsStep sb) (FsOp.Callable sb) os s) (h : Consistent sb s)
    (hrun : run (fsStep sb) os s = .ok (rs, s')) :
    Owned sb (dinodes sb s'.disk) s'.disk ∧
    (∀ i, Held s' i → ∃ disk d, itrunc sb s'.disk (s'.itable i).inum (s'.itable i).d = .ok (disk, d) ∧
      (∀ n, inUse sb disk n = true ↔ inUse sb s'.disk n = true ∧
        ¬ FileBlock (dinodes sb s'.disk) s'.disk (s'.itable i).inum n) ∧
      dinodes sb disk (s'.itable i).inum = d ∧ d.size = 0 ∧ ∀ j, d.addrs j = 0) ∧
    (∀ a disk, balloc sb s'.disk = (a, disk) → a ≠ 0 →
      inUse sb s'.disk a.toNat = false ∧ ∀ P, entry (dinodes sb s'.disk) s'.disk P ≠ a) ∧
    (∀ o, o.Callable sb s' → fsStep sb o s' ≠ .error "freeing free block") := by
  have hcons : Consistent sb s' :=
    run_invariant (fun _ _ _ _ hG hI hstep => fsStep_consistent hG hI hstep) os s rs s' hcalls h hrun
  refine ⟨hcons.owned, fun i hi => ?_, fun a disk hrun hne => ?_, fun o hcall hstep => ?_⟩
  · obtain ⟨disk, hrun, hup, hbits⟩ := itrunc_held hcons hi
    refine ⟨disk, _, hrun, hbits, ?_, rfl, fun _ => rfl⟩
    rw [hup.inodes, Function.update_self]
  · exact balloc_free hcons.owned hcons.layout hrun hne
  · rcases fsStep_error hcall hcons hstep with he | he
    · exact absurd he (by decide)
    · exact absurd he (by decide)

/-! A disk with two data blocks and one file. -/

def smallSuper : Super := ⟨6, 5, 2, 3⟩

/-- The inode block has a type for inode 1, and the free map marks the blocks before the data. -/
def smallDisk : Disk := fun b w =>
  if b = 2 ∧ w = 16 then 1 else if b = 3 ∧ w = 0 then 0xF else 0

def smallState : State := ⟨smallDisk, fun _ => ⟨0, 0, false, newDinode 0⟩⟩

theorem zero_lt_ninode : 0 < NINODE := by decide

theorem one_lt_ninode : 1 < NINODE := by decide

/-- File 1 takes both data blocks, a new file gets none and is removed, and file 1 is truncated. -/
def smallOps : List FsOp :=
  [.get 1, .lock ⟨0, zero_lt_ninode⟩,
    .write ⟨0, zero_lt_ninode⟩ (fun _ => (List.replicate BSIZE 7, true)) 0 1025,
    .alloc 1, .lock ⟨1, one_lt_ninode⟩,
    .write ⟨1, one_lt_ninode⟩ (fun _ => (List.replicate BSIZE 8, true)) 0 5,
    .put ⟨1, one_lt_ninode⟩, .trunc ⟨0, zero_lt_ninode⟩]

theorem smallDisk_dinode (k : Nat) (j : Fin (NDIRECT + 1)) :
    (dinodes smallSuper smallDisk k).addrs j = 0 := by
  rw [dinodes]
  by_cases hk : k < smallSuper.ninodes
  · rw [if_pos hk, dinodeAt, Block.dinode]
    have hw : ¬ 16 * (k % IPB) + 3 + j.val = 16 := by
      have := j.isLt
      simp only [smallSuper, IPB, NDIRECT] at *
      omega
    have hb : ¬ iblock smallSuper k = 3 := by
      simp only [iblock, smallSuper, IPB] at *
      omega
    simp only [smallDisk, hw, hb, and_false, false_and, if_false]
  · rw [if_neg hk]
    rfl

theorem smallState_consistent : Consistent smallSuper smallState := by
  have hzero : ∀ P, entry (dinodes smallSuper smallDisk) smallDisk P = 0 := by
    rintro ⟨k, j | j⟩
    · rw [entry, smallDisk_dinode]
      exact ite_self 0
    · rw [entry, if_pos (Or.inr (smallDisk_dinode k _))]
  refine consistent_image ⟨by decide, by decide, by decide⟩ ⟨fun P _ hP => absurd (hzero P) hP,
    fun P hP => absurd (hzero P) hP, fun P hP => absurd (hzero P) hP, ?_⟩ fun _ => rfl
  decide

theorem blocks_owned_small : ∃ s', run (fsStep smallSuper) smallOps smallState =
      .ok ([some 0, none, some 1025, some 1, none, some 0, none, none], s') ∧
    Owned smallSuper (dinodes smallSuper s'.disk) s'.disk := by
  obtain ⟨s', hrun⟩ : ∃ s', run (fsStep smallSuper) smallOps smallState =
      .ok ([some 0, none, some 1025, some 1, none, some 0, none, none], s') :=
    eq_ok_of_result (by decide +kernel)
  exact ⟨s', hrun, (blocks_owned smallSuper smallOps smallState s' _ (by decide +kernel)
    smallState_consistent hrun).1⟩

end Xv6.Fs
