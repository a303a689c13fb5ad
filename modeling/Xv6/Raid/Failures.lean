import Xv6.Raid.Parity

/-!
# Raid — Failures

Writes while a disk is marked failed, and disks that are restored.

`phys_write_block` drops a write to a failed disk, and `raid5_write` computes the parity from the
blocks it can read.  So a RAID-5 write with a failed disk `d` makes the block of its stripe on
`d` read as zeros: the data that should be there is neither on `d` nor in the parity.  Nothing
rebuilds a disk on `raid_restore_disk`, so a restored disk serves what it held when it failed.

* `IoSafe`, `FlagSafe`: the exact conditions under which a call, and a change of a failure flag,
  keep every slot reading as the flat store's.
* `raidStep_exact`: one step agrees with the flat store exactly when its condition holds.
* `raid5_degraded_run_iff`, `raid_restore_run_iff`: the same for whole runs, by `run_exact`.
-/

namespace Xv6.Raid
open Xv6.Lib

/-! ### The flat store, block by block -/

/-- Logical block `x` of the flat store. -/
def flatBlock (m : Slot → Page) (x : Nat) : Block :=
  if h : x / BLOCKS_PER_PAGE < MAX_SWAP then (m ⟨x / BLOCKS_PER_PAGE, h⟩).blockAt x else zeroBlock

theorem flatBlock_eq (m : Slot → Page) (slot : Slot) {i : Nat} (hi : i < BLOCKS_PER_PAGE) :
    flatBlock m (BLOCKS_PER_PAGE * slot.val + i) = (m slot).blockAt i := by
  have hs := slot.isLt
  have hi' : i < 4 := hi
  have hdiv : (BLOCKS_PER_PAGE * slot.val + i) / BLOCKS_PER_PAGE = slot.val := by
    simp only [BLOCKS_PER_PAGE]; omega
  have hmod : (BLOCKS_PER_PAGE * slot.val + i) % BLOCKS_PER_PAGE = i % BLOCKS_PER_PAGE := by
    simp only [BLOCKS_PER_PAGE]; omega
  simp only [flatBlock, hdiv, hs, dif_pos, Page.blockAt, hmod, Fin.eta]

theorem flatBlock_pageView (s : State) {x : Nat} (hx : x < 512) :
    flatBlock (pageView s) x = blockView s x := by
  have hslot : x / BLOCKS_PER_PAGE < MAX_SWAP := by simp only [BLOCKS_PER_PAGE, MAX_SWAP]; omega
  simp only [flatBlock, hslot, dif_pos, Page.blockAt, pageView_block]
  congr 1
  simp only [BLOCKS_PER_PAGE]
  omega

/-- The view is the flat store's contents when every logical block is. -/
theorem pageView_eq_iff {s : State} {m : Slot → Page} :
    pageView s = m ↔ ∀ x, x < 512 → blockView s x = flatBlock m x := by
  refine ⟨fun h x hx => by rw [← h, flatBlock_pageView s hx], fun h => funext fun slot => ?_⟩
  rw [← Page.ofBlocks_blockAt (m slot)]
  refine Page.ofBlocks_congr fun i hi => ?_
  rw [h _ (slot_block_lt slot ⟨i, hi⟩), flatBlock_eq m slot hi]

theorem flatBlock_update (m : Slot → Page) (slot : Slot) (page : Page) {x : Nat} (hx : x < 512) :
    flatBlock (Function.update m slot page) x =
      if x / BLOCKS_PER_PAGE = slot.val then page.blockAt x else flatBlock m x := by
  have hslot : x / BLOCKS_PER_PAGE < MAX_SWAP := by simp only [BLOCKS_PER_PAGE, MAX_SWAP]; omega
  simp only [flatBlock, hslot, dif_pos, Function.update_apply, Fin.ext_iff]
  split <;> rfl

/-! ### When a step keeps the contents -/

/-- The condition on a call: after it, every block on a failed disk in a stripe the call writes
to (RAID-5) should hold zeros. -/
def IoSafe (s : State) (o : IoOp) : Prop :=
  ∀ slot, o.target = some slot → ∀ x, x < 512 → LostPage s slot x →
    flatBlock (flatStep o (pageView s)).2 x = zeroBlock

/-- The condition on changing the failure flag of disk `d`: in RAID-1, for the disk that reads
prefer, both mirrors hold the same blocks; in RAID-5 every row in which `d` holds the data of a
slot XORs to zero. -/
def FlagSafe (s : State) (d : Nat) : Prop :=
  match s.raidMode with
  | .mode0 => True
  | .mode1 => d = 0 → ∀ row, row < 512 → s.simDisk 0 row = s.simDisk 1 row
  | .mode5 => ∀ x, x < 512 → disk5 x = d → rowXor s (x / DATA_DISKS) = zeroBlock

/-- A write of one slot agrees with the flat store exactly when the blocks it loses should be
zero. -/
theorem pageView_write_iff {s s' : State} {slot : Slot} {page : Page}
    (hv : ∀ x, blockView s' x = if LostPage s slot x then zeroBlock
      else if x / BLOCKS_PER_PAGE = slot.val then page.blockAt x else blockView s x) :
    pageView s' = Function.update (pageView s) slot page ↔
      ∀ x, x < 512 → LostPage s slot x →
        flatBlock (Function.update (pageView s) slot page) x = zeroBlock := by
  have hv' : ∀ x, x < 512 → blockView s' x = if LostPage s slot x then zeroBlock
      else flatBlock (Function.update (pageView s) slot page) x := by
    intro x hx
    rw [hv x, flatBlock_update _ _ _ hx, flatBlock_pageView s hx]
  rw [pageView_eq_iff]
  refine ⟨fun h x hx hl => ?_, fun h x hx => ?_⟩
  · rw [← h x hx, hv' x hx, if_pos hl]
  · rw [hv' x hx]
    split
    · next hl => exact (h x hx hl).symm
    · rfl

theorem ioSafe_write {s : State} {slot : Slot} {page : Page} :
    IoSafe s (.write slot page) ↔ ∀ x, x < 512 → LostPage s slot x →
      flatBlock (Function.update (pageView s) slot page) x = zeroBlock := by
  simp [IoSafe, StoreOp.target, flatStep]

theorem ioSafe_copy {s : State} {src dst : Slot} :
    IoSafe s (.copy src dst) ↔ ∀ x, x < 512 → LostPage s dst x →
      flatBlock (Function.update (pageView s) dst (pageView s src)) x = zeroBlock := by
  simp [IoSafe, StoreOp.target, flatStep]

/-- **One call, exactly.**  It does not panic, returns what the flat store returns, keeps mode
and flags, and leaves the flat store's contents exactly when it is safe. -/
theorem ioStep_exact {s : State} (hs : Readable s) (o : IoOp) :
    ∃ s', ioStep o s = .ok ((flatStep o (pageView s)).1, s') ∧ SameFlags s s' ∧
      (pageView s' = (flatStep o (pageView s)).2 ↔ IoSafe s o) := by
  cases o with
  | write slot page =>
      obtain ⟨s', h, f, v⟩ := raidWrite_spec hs slot page
      exact ⟨s', by simp [ioStep, h, flatStep], f, (pageView_write_iff v).trans ioSafe_write.symm⟩
  | read slot =>
      refine ⟨s, by simp [ioStep, raidRead_eq hs slot, flatStep], ⟨rfl, rfl⟩, ?_⟩
      simp [flatStep, IoSafe, StoreOp.target]
  | copy src dst =>
      obtain ⟨s', h, f, v⟩ := raidCopy_spec hs src dst
      exact ⟨s', by simp [ioStep, h, flatStep], f, (pageView_write_iff v).trans ioSafe_copy.symm⟩

/-- **Changing one failure flag, exactly.**  It keeps what the reads return exactly when
`FlagSafe` holds. -/
theorem pageView_setFailed_iff {s : State} (hm : s.raidMode ≠ .mode0) {d : Nat} {b : Bool}
    (hb : s.diskFailed d = !b) : pageView (setFailed s d b) = pageView s ↔ FlagSafe s d := by
  have hflag : ∀ e, (setFailed s d b).diskFailed e = if e = d then b else s.diskFailed e :=
    fun e => by simp [setFailed, Function.update_apply]
  rw [pageView_eq_iff]
  unfold FlagSafe
  cases hmode : s.raidMode with
  | mode0 => exact absurd hmode hm
  | mode1 =>
      have hview : ∀ x, blockView (setFailed s d b) x =
          if (if 0 = d then b else s.diskFailed 0) then s.simDisk 1 x else s.simDisk 0 x := by
        intro x
        rw [← hflag]
        unfold blockView
        rw [show (setFailed s d b).raidMode = .mode1 from hmode]
        rfl
      have hview' : ∀ x, blockView s x =
          if s.diskFailed 0 then s.simDisk 1 x else s.simDisk 0 x := by
        intro x; unfold blockView; rw [hmode]
      by_cases hd : 0 = d
      · subst hd
        constructor
        · intro h _ x hx
          have := h x hx
          rw [flatBlock_pageView s hx, hview, hview', hb] at this
          cases b <;> simp at this <;> simp [this]
        · intro h x hx
          rw [flatBlock_pageView s hx, hview, hview', hb, h rfl x hx]
          simp
      · refine ⟨fun _ h => absurd h.symm hd, fun _ x hx => ?_⟩
        rw [flatBlock_pageView s hx, hview, hview', if_neg hd]
  | mode5 =>
      have hmode' : (setFailed s d b).raidMode = .mode5 := hmode
      have hsame : ∀ x, disk5 x ≠ d → blockView (setFailed s d b) x = blockView s x := by
        intro x hx
        rw [blockView_mode5 hmode', blockView_mode5 hmode, hflag, if_neg hx]
        rfl
      -- on disk `d` the flag switches between the stored and the reconstructed block
      have hswitch : ∀ x, disk5 x = d →
          (blockView (setFailed s d b) x = blockView s x ↔
            rowXor s (x / DATA_DISKS) = zeroBlock) := by
        intro x hx
        rw [blockView_mode5 hmode', blockView_mode5 hmode, hflag, if_pos hx, hx, hb]
        set c := s.simDisk d (x / DATA_DISKS)
        have hrow : rowXor (setFailed s d b) (x / DATA_DISKS) = rowXor s (x / DATA_DISKS) := rfl
        have hc : (setFailed s d b).simDisk d (x / DATA_DISKS) = c := rfl
        rw [hrow, hc]
        have hiff : xorBlock (rowXor s (x / DATA_DISKS)) c = c ↔
            rowXor s (x / DATA_DISKS) = zeroBlock := by
          rw [← xorBlock_eq_zero, xorBlock_assoc, xorBlock_self, xorBlock_zero]
        cases b
        · simpa [eq_comm] using hiff
        · simpa using hiff
      constructor
      · intro h x hx hd
        rw [← hswitch x hd, h x hx, flatBlock_pageView s hx]
      · intro h x hx
        rw [flatBlock_pageView s hx]
        by_cases hd : disk5 x = d
        · exact (hswitch x hd).mpr (h x hx hd)
        · exact hsame x hd

/-! ### Runs with failures -/

/-- A call, or a change of a failure flag. -/
inductive RaidOp where
  | io (o : IoOp)
  | fail (d : Fin NUM_DISKS)
  | restore (d : Fin NUM_DISKS)

def raidStep : RaidOp → State → Except String (Option Page × State)
  | .io o, s => ioStep o s
  | .fail d, s => do
      let s ← raidFailDisk s d.val
      return (none, s)
  | .restore d, s => do
      let s ← raidRestoreDisk s d.val
      return (none, s)

/-- The flat store has no disks that fail. -/
def flatRaidStep : RaidOp → (Slot → Page) → Option Page × (Slot → Page)
  | .io o, m => flatStep o m
  | .fail _, m => (none, m)
  | .restore _, m => (none, m)

/-- The step leaves at most one disk marked failed. -/
def OneFailure (o : RaidOp) (s : State) : Prop :=
  match o with
  | .fail d => ∀ e, e < NUM_DISKS → e ≠ d.val → s.diskFailed e = false
  | _ => True

/-- The condition on a step, in the state before it; a flag that keeps its value is no change. -/
def StepSafe (o : RaidOp) (s : State) : Prop :=
  match o with
  | .io o => IoSafe s o
  | .fail d => s.diskFailed d.val = false → FlagSafe s d.val
  | .restore d => s.diskFailed d.val = true → FlagSafe s d.val

/-- Every slot reads as `m` says. -/
def ReadsAs (s : State) (m : Slot → Page) : Prop :=
  ∀ (slot : Slot) (dst : Page), raidRead s (BLOCKS_PER_PAGE * slot.val) dst = .ok (m slot)

/-- RAID-1 or RAID-5 with at most one failed disk. -/
structure Redundant (s : State) : Prop where
  oneFailed : OneFailed s
  mode : s.raidMode ≠ .mode0

theorem Redundant.readable {s : State} (h : Redundant s) : Readable s :=
  ⟨h.oneFailed, fun hm => absurd hm h.mode⟩

theorem SameFlags.redundant {s s' : State} (h : SameFlags s s') (hs : Redundant s) : Redundant s' :=
  ⟨by simpa [OneFailed, h.2] using hs.oneFailed, by rw [h.1]; exact hs.mode⟩

theorem readsAs_iff {s : State} {m : Slot → Page} (hs : Readable s) :
    ReadsAs s m ↔ pageView s = m := by
  refine ⟨fun h => funext fun slot => ?_, fun h slot dst => by rw [raidRead_eq hs, h]⟩
  have := h slot zeroPage
  rw [raidRead_eq hs] at this
  exact Except.ok.inj this

theorem raidFailDisk_eq (s : State) (d : Fin NUM_DISKS) :
    raidFailDisk s d.val = .ok (setFailed s d.val true) := by
  have := d.isLt
  simp only [raidFailDisk, NUM_DISKS] at *
  rw [if_neg (by omega), Int.toNat_natCast]

theorem raidRestoreDisk_eq (s : State) (d : Fin NUM_DISKS) :
    raidRestoreDisk s d.val = .ok (setFailed s d.val false) := by
  have := d.isLt
  simp only [raidRestoreDisk, NUM_DISKS] at *
  rw [if_neg (by omega), Int.toNat_natCast]

theorem setFailed_self {s : State} {d : Nat} {b : Bool} (h : s.diskFailed d = b) :
    setFailed s d b = s := by
  subst h
  simp [setFailed]

theorem redundant_fail {s : State} (hs : Redundant s) {d : Nat}
    (h : ∀ e, e < NUM_DISKS → e ≠ d → s.diskFailed e = false) : Redundant (setFailed s d true) := by
  refine ⟨fun a b ha hb fa fb => ?_, hs.mode⟩
  have only : ∀ e, e < NUM_DISKS → (setFailed s d true).diskFailed e = true → e = d := by
    intro e he hf
    by_contra hne
    simp [setFailed, Function.update_of_ne hne, h e he hne] at hf
  rw [only a ha fa, only b hb fb]

theorem redundant_restore {s : State} (hs : Redundant s) (d : Nat) :
    Redundant (setFailed s d false) := by
  refine ⟨fun a b ha hb fa fb => hs.oneFailed a b ha hb ?_ ?_, hs.mode⟩
  all_goals
    first
    | (by_cases hd : a = d
       · simp [setFailed, hd] at fa
       · simpa [setFailed, Function.update_of_ne hd] using fa)
    | (by_cases hd : b = d
       · simp [setFailed, hd] at fb
       · simpa [setFailed, Function.update_of_ne hd] using fb)

/-- **One step, exactly**: it agrees with the flat store exactly when its condition holds. -/
theorem raidStep_exact (o : RaidOp) (s : State) (ho : OneFailure o s) (hs : Redundant s) :
    ∃ s', raidStep o s = .ok ((flatRaidStep o (pageView s)).1, s') ∧ Redundant s' ∧
      (pageView s' = (flatRaidStep o (pageView s)).2 ↔ StepSafe o s) := by
  cases o with
  | io o =>
      obtain ⟨s', h, f, hiff⟩ := ioStep_exact hs.readable o
      exact ⟨s', h, f.redundant hs, hiff⟩
  | fail d =>
      refine ⟨_, by simp [raidStep, raidFailDisk_eq, flatRaidStep], redundant_fail hs ho, ?_⟩
      by_cases hd : s.diskFailed d.val = true
      · simp [setFailed_self hd, flatRaidStep, StepSafe, hd]
      · have hd' : s.diskFailed d.val = false := by simpa using hd
        exact (pageView_setFailed_iff hs.mode (by simp [hd'])).trans
          ⟨fun h _ => h, fun h => h hd'⟩
  | restore d =>
      refine ⟨_, by simp [raidStep, raidRestoreDisk_eq, flatRaidStep],
        redundant_restore hs d.val, ?_⟩
      by_cases hd : s.diskFailed d.val = true
      · exact (pageView_setFailed_iff hs.mode (by simp [hd])).trans
          ⟨fun h _ => h, fun h => h hd⟩
      · have hd' : s.diskFailed d.val = false := by simpa using hd
        simp [setFailed_self hd', flatRaidStep, StepSafe, hd']

theorem redundant_initMode (s : State) {m : RaidMode} (hm : m ≠ .mode0) :
    Redundant (initMode s m) := ⟨(healthy_initMode s m).oneFailed, hm⟩

/-- No sequence of calls panics in RAID-1 or RAID-5 with at most one failed disk. -/
theorem ioRun_ok (ops : List IoOp) {s : State} (hs : Redundant s) :
    ∃ rs s', run ioStep ops s = .ok (rs, s') := by
  obtain ⟨rs, s', -, h, -, -⟩ :=
    run_simulates (G := fun _ _ => True) (R := fun s (_ : Unit) => Redundant s)
      (A := fun _ _ _ _ => True)
      (fun o s _ _ hs => by
        obtain ⟨s', h, f, -⟩ := ioStep_exact hs.readable o
        exact ⟨_, s', (), h, trivial, f.redundant hs⟩)
      ops s () (meets_of_forall (fun _ _ => trivial) ops s) hs
  exact ⟨rs, s', h⟩

/-- **Writes to a degraded RAID-5.**  After any healthy sequence of calls and the failure of one
disk, no further sequence of calls panics; and after each of its prefixes every slot reads the
page most recently written or copied to it, exactly when each call leaves only zeros in the
blocks of the failed disk that share a stripe with the blocks it writes. -/
theorem raid5_degraded_run_iff (s₀ : State) (ops₀ ops : List IoOp) (d : Fin NUM_DISKS) :
    ∃ s rs s₁ s₂, raidSetmode (raidInit s₀) 5 = .ok s ∧ run ioStep ops₀ s = .ok (rs, s₁) ∧
      raidFailDisk s₁ d.val = .ok s₂ ∧ (∃ rs' s', run ioStep ops s₂ = .ok (rs', s')) ∧
      ((∀ pre, pre <+: ops → ∃ s',
          run ioStep pre s₂ = .ok ((flatRun pre (flatRun ops₀ fun _ => zeroPage).2).1, s') ∧
          ReadsAs s' (flatRun pre (flatRun ops₀ fun _ => zeroPage).2).2) ↔
        Meets ioStep (fun o s => IoSafe s o) ops s₂) := by
  obtain ⟨s₁, hrun, ⟨hI, -⟩, hv⟩ :=
    (raid_refines_flat .mode5).run ops₀ _ ⟨healthy_initMode s₀ .mode5, rfl⟩
  have hpar : ParityOk s₁ :=
    run_invariant (G := fun _ _ => True) (fun o s r s' _ hs h => ioStep_parityOk hs h) ops₀ _ _ s₁
      (meets_of_forall (fun _ _ => trivial) ops₀ _) (parityOk_initMode s₀) hrun
  have hred : Redundant (setFailed s₁ d.val true) :=
    ⟨setFailed_oneFailed hI d.val, fun h => by cases hpar.mode5.symm.trans h⟩
  have hview : pageView (setFailed s₁ d.val true) = (flatRun ops₀ fun _ => zeroPage).2 := by
    rw [← pageView_initMode s₀ .mode5, ← hv]
    exact funext fun slot => pageView_congr fun i _ => blockView_setFailed hpar d.val _
  refine ⟨_, _, s₁, _, initMode_eq s₀ .mode5, hrun, raidFailDisk_eq s₁ d, ioRun_ok ops hred, ?_⟩
  have h := run_exact (v := pageView) (f := flatStep) (H := fun _ _ => True)
    (fun s a (hI : Redundant s) => readsAs_iff (m := a) hI.readable)
    (fun o s _ hs => by
      obtain ⟨s', h, f, hiff⟩ := ioStep_exact hs.readable o
      exact ⟨s', h, f.redundant hs, hiff⟩)
    ops _ (meets_of_forall (fun _ _ => trivial) ops _) hred
  rwa [hview] at h

/-- A write of one page of sevens to slot 0 while disk 1 is failed: its first block reads as
zeros. -/
theorem raid5_degraded_write_lost :
    ¬ ∀ (ops₀ ops : List IoOp) (d : Fin NUM_DISKS) (s s₁ s₂ s' : State) (rs rs' : List (Option Page)),
      raidSetmode (raidInit bootState) 5 = .ok s → run ioStep ops₀ s = .ok (rs, s₁) →
      raidFailDisk s₁ d.val = .ok s₂ → run ioStep ops s₂ = .ok (rs', s') →
      ReadsAs s' (flatRun ops (flatRun ops₀ fun _ => zeroPage).2).2 := by
  intro h
  have hread := h [] [.write 0 fun _ => 7] 1 _ _ _ _ _ _ rfl rfl rfl rfl 0 zeroPage
  exact absurd (congrArg (fun e => e.toOption.map (· 0)) hread) (by decide)

/-- **Restored disks.**  In RAID-1 and RAID-5, along any sequence of calls, failures and restores
with at most one disk failed at a time: in every state reached every read returns the page most
recently written or copied to its slot, exactly when every step meets its condition. -/
theorem raid_restore_run_iff {s₀ s : State} {m : RaidMode} (hm : m ≠ .mode0)
    (hs : raidSetmode (raidInit s₀) m.toInt = .ok s) (ops : List RaidOp)
    (hone : Meets raidStep OneFailure ops s) :
    (∀ pre, pre <+: ops →
      ∃ s', run raidStep pre s = .ok ((runFn flatRaidStep pre fun _ => zeroPage).1, s') ∧
        ReadsAs s' (runFn flatRaidStep pre fun _ => zeroPage).2) ↔
      Meets raidStep StepSafe ops s := by
  rw [initMode_eq] at hs
  cases hs
  have h := run_exact (v := pageView) (f := flatRaidStep)
    (fun s a (hI : Redundant s) => readsAs_iff (m := a) hI.readable)
    raidStep_exact ops (initMode s₀ m) hone (redundant_initMode s₀ hm)
  rwa [pageView_initMode] at h

/-- RAID-1 with the second mirror failed during a write and restored after it. -/
def secondMirrorOps : List RaidOp :=
  [.fail 1, .io (.write 0 fun _ => 7), .restore 1, .io (.read 0)]

theorem raid_restore_second_mirror :
    Meets raidStep OneFailure secondMirrorOps (initMode bootState .mode1) ∧
      ∀ pre, pre <+: secondMirrorOps →
        ∃ s', run raidStep pre (initMode bootState .mode1) =
            .ok ((runFn flatRaidStep pre fun _ => zeroPage).1, s') ∧
          ReadsAs s' (runFn flatRaidStep pre fun _ => zeroPage).2 := by
  have hone : Meets raidStep OneFailure secondMirrorOps (initMode bootState .mode1) :=
    ⟨fun _ _ _ => rfl, fun _ _ _ => ⟨trivial, fun _ _ _ => ⟨trivial, fun _ _ _ =>
      ⟨trivial, fun _ _ _ => trivial⟩⟩⟩⟩
  refine ⟨hone, (raid_restore_run_iff (m := .mode1) (by decide) rfl _ hone).mpr ?_⟩
  refine ⟨fun _ h => absurd h (by decide), fun r s h => ?_⟩
  cases h
  refine ⟨fun slot _ x _ ⟨i, hm, _⟩ => (by cases hm), fun r s h => ?_⟩
  cases h
  refine ⟨fun _ h => absurd h (by decide), fun r s h => ?_⟩
  cases h
  refine ⟨fun slot h => ?_, fun _ _ _ => trivial⟩
  cases h

/-- RAID-1: the first mirror is failed while slot 0 is written, and restored.  Reads prefer it,
and return the zeros it held before. -/
theorem raid1_restored_mirror_stale :
    ¬ ∀ (m : RaidMode) (ops : List RaidOp) (s s' : State) (rs : List (Option Page)),
      m ≠ .mode0 → raidSetmode (raidInit bootState) m.toInt = .ok s →
      Meets raidStep OneFailure ops s → run raidStep ops s = .ok (rs, s') →
      ReadsAs s' (runFn flatRaidStep ops fun _ => zeroPage).2 := by
  intro h
  have hone : Meets raidStep OneFailure [.fail 0, .io (.write 0 fun _ => 7), .restore 0]
      (initMode bootState .mode1) :=
    ⟨fun _ _ _ => rfl, fun _ _ _ => ⟨trivial, fun _ _ _ => ⟨trivial, fun _ _ _ => trivial⟩⟩⟩
  have hread := h .mode1 _ _ _ _ (by decide) rfl hone rfl 0 zeroPage
  exact absurd (congrArg (fun e => e.toOption.map (· 0)) hread) (by decide)

end Xv6.Raid
