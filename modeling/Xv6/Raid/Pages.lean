import Xv6.Lib.FlatStore
import Xv6.Raid.Layout

/-!
# Raid — Pages

`raid_read`, `raid_write` and `raid_copy` at the four logical blocks of a swap slot, in terms of
the block view, and the machine that performs sequences of them.

* `raidRead_eq`, `raidWrite_spec`, `raidCopy_spec`: what one call returns and changes.
* `raid_refines_flat`: with all disks healthy the layer refines the flat page store, whatever the
  mode.
-/

namespace Xv6.Raid
open Xv6.Lib

/-! ### Pages and their blocks -/

/-- A swap slot; its page is the logical blocks `4 * slot`, …, `4 * slot + 3`. -/
abbrev Slot := Fin MAX_SWAP

/-- The page with the given blocks. -/
def Page.ofBlocks (b : Nat → Block) : Page :=
  fun j => b (j.val / BSIZE) ⟨j.val % BSIZE, mod_BSIZE_lt j⟩

/-- Block `x % 4` of a page. -/
def Page.blockAt (p : Page) (x : Nat) : Block := p.block ⟨x % BLOCKS_PER_PAGE, Nat.mod_lt _ (by decide)⟩

theorem Page.ofBlocks_blockAt (p : Page) : Page.ofBlocks p.blockAt = p := by
  funext j
  simp only [Page.ofBlocks, Page.blockAt, Page.block]
  congr 1
  apply Fin.ext
  have := j.isLt
  simp only [BSIZE, PGSIZE, BLOCKS_PER_PAGE] at *
  omega

theorem Page.ofBlocks_congr {b c : Nat → Block} (h : ∀ i, i < BLOCKS_PER_PAGE → b i = c i) :
    Page.ofBlocks b = Page.ofBlocks c := by
  funext j
  have hj : j.val / BSIZE < BLOCKS_PER_PAGE := by
    have := j.isLt
    simp only [BSIZE, PGSIZE, BLOCKS_PER_PAGE] at *
    omega
  simp only [Page.ofBlocks, h _ hj]

theorem Page.block_ofBlocks (b : Nat → Block) (i : Fin BLOCKS_PER_PAGE) :
    (Page.ofBlocks b).block i = b i := by
  funext j
  have := j.isLt
  simp only [Page.ofBlocks, Page.block, BSIZE] at *
  congr 2
  · omega
  · omega

/-- Storing the four blocks of a page one by one overwrites the whole buffer. -/
theorem Page.setBlock_all (p : Page) (b : Nat → Block) :
    (((p.setBlock 0 (b 0)).setBlock 1 (b 1)).setBlock 2 (b 2)).setBlock 3 (b 3) =
      Page.ofBlocks b := by
  funext j
  have hj : j.val / BSIZE < 4 := by
    have := j.isLt
    simp only [BSIZE, PGSIZE] at *
    omega
  simp only [Page.setBlock, Page.ofBlocks, Fin.isValue, Fin.val_zero, Fin.val_one, Fin.val_two,
    show ((3 : Fin BLOCKS_PER_PAGE).val = 3) from rfl]
  interval_cases h : j.val / BSIZE <;> simp

/-- The page a read of the slot yields. -/
def pageView (s : State) (slot : Slot) : Page :=
  Page.ofBlocks fun i => blockView s (BLOCKS_PER_PAGE * slot.val + i)

theorem pageView_block (s : State) (slot : Slot) (i : Fin BLOCKS_PER_PAGE) :
    (pageView s slot).block i = blockView s (BLOCKS_PER_PAGE * slot.val + i.val) :=
  Page.block_ofBlocks _ i

theorem pageView_congr {s s' : State} {slot : Slot}
    (h : ∀ i, i < BLOCKS_PER_PAGE → blockView s' (BLOCKS_PER_PAGE * slot.val + i) =
      blockView s (BLOCKS_PER_PAGE * slot.val + i)) : pageView s' slot = pageView s slot :=
  Page.ofBlocks_congr h

theorem lblockAt_slot (slot : Slot) (i : Fin BLOCKS_PER_PAGE) :
    lblockAt (BLOCKS_PER_PAGE * slot.val) i = BLOCKS_PER_PAGE * slot.val + i.val := by
  have := slot.isLt
  have := i.isLt
  simp only [lblockAt, BLOCKS_PER_PAGE, MAX_SWAP] at *
  omega

theorem slot_block_lt (slot : Slot) (i : Fin BLOCKS_PER_PAGE) :
    BLOCKS_PER_PAGE * slot.val + i.val < 512 := by
  have := slot.isLt
  have := i.isLt
  simp only [BLOCKS_PER_PAGE, MAX_SWAP] at *
  omega

/-! ### One call -/

/-- `raid_read` returns the page view and overwrites the caller's buffer with it. -/
theorem raidRead_eq {s : State} (hs : Readable s) (slot : Slot) (dst : Page) :
    raidRead s (BLOCKS_PER_PAGE * slot.val) dst = .ok (pageView s slot) := by
  have hb : ∀ i : Fin BLOCKS_PER_PAGE, readBlock s (lblockAt (BLOCKS_PER_PAGE * slot.val) i) =
      .ok (blockView s (BLOCKS_PER_PAGE * slot.val + i.val)) := by
    intro i
    rw [lblockAt_slot, readBlock_eq hs (slot_block_lt slot i)]
  have hr : List.finRange BLOCKS_PER_PAGE = [0, 1, 2, 3] := rfl
  simp only [raidRead, hr, List.foldlM_cons, List.foldlM_nil, hb, ok_bind, pure_eq_ok]
  exact congrArg Except.ok
    (Page.setBlock_all dst fun i => blockView s (BLOCKS_PER_PAGE * slot.val + i))

/-- Writing some of the blocks of a slot, in any order. -/
theorem foldlM_writeBlock_spec (slot : Slot) (page : Page) :
    ∀ (is : List (Fin BLOCKS_PER_PAGE)) {s : State}, Readable s →
      ∃ s', is.foldlM (fun s i => writeBlock s (lblockAt (BLOCKS_PER_PAGE * slot.val) i)
          (page.block i)) s = .ok s' ∧ SameFlags s s' ∧
        ∀ x, blockView s' x =
          if ∃ i ∈ is, Lost s (BLOCKS_PER_PAGE * slot.val + i.val) x then zeroBlock
          else if ∃ i ∈ is, x = BLOCKS_PER_PAGE * slot.val + i.val then page.blockAt x
          else blockView s x := by
  intro is
  induction is with
  | nil => exact fun {s} _ => ⟨s, rfl, ⟨rfl, rfl⟩, fun x => by simp⟩
  | cons i is ih =>
      intro s hs
      obtain ⟨s₁, h₁, f₁, v₁⟩ := writeBlock_spec hs (slot_block_lt slot i) (page.block i)
      obtain ⟨s₂, h₂, f₂, v₂⟩ := ih (f₁.readable hs)
      refine ⟨s₂, ?_, f₁.trans f₂, fun x => ?_⟩
      · rw [List.foldlM_cons, lblockAt_slot, h₁]
        exact h₂
      · rw [v₂ x, v₁ x]
        simp only [f₁.lost, List.mem_cons, exists_eq_or_imp]
        by_cases hl : ∃ j ∈ is, Lost s (BLOCKS_PER_PAGE * slot.val + j.val) x
        · rw [if_pos hl, if_pos (Or.inr hl)]
        · rw [if_neg hl]
          by_cases hi : Lost s (BLOCKS_PER_PAGE * slot.val + i.val) x
          · -- a block lost to the first write is not written again: it would be lost again
            have hm : ¬ ∃ j ∈ is, x = BLOCKS_PER_PAGE * slot.val + j.val := by
              rintro ⟨j, hj, hx⟩
              exact hl ⟨j, hj, hi.1, by rw [hx], hi.2.2⟩
            rw [if_neg hm, if_pos hi, if_pos (Or.inl hi)]
          · rw [if_neg hi, if_neg (not_or.mpr ⟨hi, hl⟩)]
            by_cases hm : ∃ j ∈ is, x = BLOCKS_PER_PAGE * slot.val + j.val
            · rw [if_pos hm, if_pos (Or.inr hm)]
            · rw [if_neg hm]
              by_cases hx : x = BLOCKS_PER_PAGE * slot.val + i.val
              · rw [if_pos hx, if_pos (Or.inl hx), Page.blockAt]
                congr 1
                apply Fin.ext
                have := i.isLt
                simp only [BLOCKS_PER_PAGE] at *
                omega
              · rw [if_neg hx, if_neg (not_or.mpr ⟨hx, hm⟩)]

/-- A write of the slot's page loses block `x` in RAID-5: `x` lies on the failed disk, in a
stripe that holds a block of the slot. -/
def LostPage (s : State) (slot : Slot) (x : Nat) : Prop :=
  ∃ i : Fin BLOCKS_PER_PAGE, Lost s (BLOCKS_PER_PAGE * slot.val + i.val) x

instance (s : State) (slot : Slot) (x : Nat) : Decidable (LostPage s slot x) := by
  unfold LostPage; infer_instance

theorem raidWrite_spec {s : State} (hs : Readable s) (slot : Slot) (page : Page) :
    ∃ s', raidWrite s (BLOCKS_PER_PAGE * slot.val) page = .ok s' ∧ SameFlags s s' ∧
      ∀ x, blockView s' x = if LostPage s slot x then zeroBlock
        else if x / BLOCKS_PER_PAGE = slot.val then page.blockAt x else blockView s x := by
  obtain ⟨s', h, f, v⟩ := foldlM_writeBlock_spec slot page (List.finRange BLOCKS_PER_PAGE) hs
  refine ⟨s', h, f, fun x => ?_⟩
  have hx : (∃ i ∈ List.finRange BLOCKS_PER_PAGE, x = BLOCKS_PER_PAGE * slot.val + i.val) ↔
      x / BLOCKS_PER_PAGE = slot.val := by
    simp only [List.mem_finRange, true_and, BLOCKS_PER_PAGE]
    constructor
    · rintro ⟨i, hi⟩
      have := i.isLt
      omega
    · intro h
      exact ⟨⟨x % 4, Nat.mod_lt _ (by decide)⟩, by simp only; omega⟩
  rw [v x]
  simp only [hx]
  simp only [LostPage, List.mem_finRange, true_and]

/-- `raid_copy` is a read of the source followed by a write of the destination. -/
theorem raidCopy_spec {s : State} (hs : Readable s) (src dst : Slot) :
    ∃ s', raidCopy s (BLOCKS_PER_PAGE * src.val) (BLOCKS_PER_PAGE * dst.val) = .ok s' ∧
      SameFlags s s' ∧ ∀ x, blockView s' x = if LostPage s dst x then zeroBlock
        else if x / BLOCKS_PER_PAGE = dst.val then (pageView s src).blockAt x
        else blockView s x := by
  have hread := raidRead_eq hs src s.raidCopyBuf
  have hs' : Readable { s with raidCopyBuf := pageView s src } := hs
  obtain ⟨s', h, f, v⟩ := raidWrite_spec hs' dst (pageView s src)
  refine ⟨s', ?_, f, v⟩
  rw [raidCopy, hread]
  exact h

/-! ### Sequences of calls -/

/-- A call at the blocks of swap slots. -/
abbrev IoOp := StoreOp Slot Page

/-- One call; a read returns the page it left in the caller's buffer. -/
def ioStep : IoOp → State → Except String (Option Page × State)
  | .write slot page, s => do
      let s ← raidWrite s (BLOCKS_PER_PAGE * slot.val) page
      return (none, s)
  | .read slot, s => do
      let page ← raidRead s (BLOCKS_PER_PAGE * slot.val) zeroPage
      return (some page, s)
  | .copy src dst, s => do
      let s ← raidCopy s (BLOCKS_PER_PAGE * src.val) (BLOCKS_PER_PAGE * dst.val)
      return (none, s)

/-- `raid_init` followed by `raid_setmode(m)`. -/
def initMode (s : State) (m : RaidMode) : State := { raidInit s with raidMode := m }

theorem raidSetmode_eq (s : State) (m : RaidMode) :
    raidSetmode s m.toInt = .ok { s with raidMode := m } := by
  cases m <;> rfl

theorem initMode_eq (s : State) (m : RaidMode) :
    raidSetmode (raidInit s) m.toInt = .ok (initMode s m) := raidSetmode_eq _ m

theorem healthy_initMode (s : State) (m : RaidMode) : Healthy (initMode s m) := fun _ _ => rfl

theorem blockView_initMode (s : State) (m : RaidMode) (x : Nat) :
    blockView (initMode s m) x = zeroBlock := by
  cases m <;> rfl

theorem pageView_initMode (s : State) (m : RaidMode) :
    pageView (initMode s m) = fun _ => zeroPage := by
  funext slot j
  simp only [pageView, Page.ofBlocks, blockView_initMode]
  rfl

theorem Healthy.not_lostPage {s : State} (h : Healthy s) (slot : Slot) (x : Nat) :
    ¬ LostPage s slot x := by
  rintro ⟨i, -, -, hf⟩
  rw [h _ (disk5_lt x)] at hf
  cases hf

theorem SameFlags.healthy {s s' : State} (h : SameFlags s s') (hs : Healthy s) : Healthy s' := by
  simpa [Healthy, h.2] using hs

/-- A state change that sets the blocks of one slot and keeps the others, page by page. -/
theorem pageView_update {s s' : State} {slot : Slot} {page : Page}
    (h : ∀ x, x < 512 → blockView s' x = if x / BLOCKS_PER_PAGE = slot.val then page.blockAt x
      else blockView s x) : pageView s' = Function.update (pageView s) slot page := by
  funext t
  by_cases ht : t = slot
  · subst ht
    rw [Function.update_self, ← Page.ofBlocks_blockAt page]
    refine Page.ofBlocks_congr fun i hi => ?_
    have hi' : i < 4 := hi
    rw [h _ (slot_block_lt t ⟨i, hi⟩)]
    simp only [Page.blockAt, BLOCKS_PER_PAGE]
    rw [if_pos (by omega)]
    congr 2
    omega
  · rw [Function.update_of_ne ht]
    refine pageView_congr fun i hi => ?_
    have hi' : i < 4 := hi
    have hne : t.val ≠ slot.val := fun e => ht (Fin.ext e)
    rw [h _ (slot_block_lt t ⟨i, hi⟩), if_neg]
    simp only [BLOCKS_PER_PAGE]
    omega

/-- **With all disks healthy the layer refines the flat page store**, in every mode. -/
theorem raid_refines_flat (m : RaidMode) :
    Refines ioStep (fun s => Healthy s ∧ s.raidMode = m) pageView := by
  intro o s ⟨hs, hm⟩
  cases o with
  | write slot page =>
      obtain ⟨s', h, f, v⟩ := raidWrite_spec hs.readable slot page
      refine ⟨s', by simp [ioStep, h, flatStep], ⟨f.healthy hs, f.1.trans hm⟩,
        pageView_update fun x _ => ?_⟩
      rw [v x, if_neg (hs.not_lostPage slot x)]
  | read slot =>
      exact ⟨s, by simp [ioStep, raidRead_eq hs.readable slot, flatStep], ⟨hs, hm⟩, rfl⟩
  | copy src dst =>
      obtain ⟨s', h, f, v⟩ := raidCopy_spec hs.readable src dst
      refine ⟨s', by simp [ioStep, h, flatStep], ⟨f.healthy hs, f.1.trans hm⟩,
        pageView_update fun x _ => ?_⟩
      rw [v x, if_neg (hs.not_lostPage dst x)]

/-- **The RAID layer is a flat page store.**  In each mode, chosen right after `raid_init`, any
sequence of writes, reads and copies at swap slots runs without a panic, every read returns the
page the flat store holds there, and afterwards every slot still reads as the flat store's; a
slot that no operation stores to reads as before. -/
theorem raid_run_flat (s₀ : State) (m : RaidMode) (ops : List IoOp) :
    ∃ s s', raidSetmode (raidInit s₀) m.toInt = .ok s ∧
      run ioStep ops s = .ok ((flatRun ops fun _ => zeroPage).1, s') ∧
      (∀ slot dst, raidRead s' (BLOCKS_PER_PAGE * slot.val) dst =
        .ok ((flatRun ops fun _ => zeroPage).2 slot)) ∧
      ∀ (o : IoOp) (slot : Slot), o.target ≠ some slot → ∃ r s'', ioStep o s' = .ok (r, s'') ∧
        ∀ dst, raidRead s'' (BLOCKS_PER_PAGE * slot.val) dst =
          raidRead s' (BLOCKS_PER_PAGE * slot.val) dst := by
  obtain ⟨s', hrun, ⟨hI, hm⟩, hv⟩ := (raid_refines_flat m).run ops _ ⟨healthy_initMode s₀ m, rfl⟩
  rw [pageView_initMode] at hrun hv
  refine ⟨_, s', initMode_eq s₀ m, hrun, fun slot dst => ?_, fun o slot ho => ?_⟩
  · rw [raidRead_eq hI.readable, hv]
  · obtain ⟨s'', hstep, ⟨hI'', -⟩, hv''⟩ := raid_refines_flat m o s' ⟨hI, hm⟩
    refine ⟨_, s'', hstep, fun dst => ?_⟩
    rw [raidRead_eq hI''.readable, raidRead_eq hI.readable, hv'', flatStep_other ho]

end Xv6.Raid
