import Xv6.Raid.Failures

/-!
# Raid — Modes

`raid_setmode` at run time.  It changes the layout and moves no data, so a page stored under one
mode is looked for at another place under the next.

* `place m lb`: the disk and row at which mode `m` keeps logical block `lb`.
* `switchKeeps_iff`: a switch keeps a slot's page exactly when the new places happen to hold the
  same bytes as the old ones (`SamePlaces`).
* `raid_setmode_keeps_page_iff`: so a pair of modes keeps all pages only when it is no switch.
-/

namespace Xv6.Raid
open Xv6.Lib

/-- The disk and the row of a logical block; RAID-1 reads the first mirror. -/
def place : RaidMode → Nat → Nat × Nat
  | .mode0, lb => (lb % NUM_DISKS, lb / NUM_DISKS)
  | .mode1, lb => (0, lb)
  | .mode5, lb => (disk5 lb, lb / DATA_DISKS)

/-- The block at the place mode `m` gives to `lb`. -/
def blockAtPlace (s : State) (m : RaidMode) (lb : Nat) : Block :=
  s.simDisk (place m lb).1 (place m lb).2

/-- With all disks healthy a block is read from its place. -/
theorem blockView_place {s : State} (hs : Healthy s) (lb : Nat) :
    blockView s lb = blockAtPlace s s.raidMode lb := by
  unfold blockView blockAtPlace
  cases s.raidMode with
  | mode0 => rfl
  | mode1 => simp [place, hs 0 (by decide)]
  | mode5 => simp [place, hs _ (disk5_lt lb)]

theorem raidSetmode_healthy {s : State} (hs : Healthy s) (m : RaidMode) :
    Healthy { s with raidMode := m } := hs

/-- A slot reads the same under another mode exactly when its places hold the same blocks. -/
theorem pageView_setmode_iff {s : State} (hs : Healthy s) (m : RaidMode) (slot : Slot) :
    pageView { s with raidMode := m } slot = pageView s slot ↔
      ∀ i, i < BLOCKS_PER_PAGE → blockAtPlace s m (BLOCKS_PER_PAGE * slot.val + i) =
        blockAtPlace s s.raidMode (BLOCKS_PER_PAGE * slot.val + i) := by
  have hview : ∀ lb, blockView { s with raidMode := m } lb = blockAtPlace s m lb :=
    fun lb => blockView_place (raidSetmode_healthy hs m) lb
  constructor
  · intro h i hi
    rw [← hview, ← blockView_place hs, ← pageView_block _ slot ⟨i, hi⟩, h, pageView_block]
  · intro h
    refine pageView_congr fun i hi => ?_
    rw [hview, blockView_place hs, h i hi]

/-- After the calls `ops` and `raid_setmode(m₂)`, the slot reads the page most recently stored to
it, and still does after any further calls under `m₂` that store to other slots. -/
def SwitchKeeps (s : State) (ops : List IoOp) (slot : Slot) (m₂ : RaidMode) : Prop :=
  ∃ rs s₂ s₃, run ioStep ops s = .ok (rs, s₂) ∧ raidSetmode s₂ m₂.toInt = .ok s₃ ∧
    ∀ ops₂ : List IoOp, (∀ o ∈ ops₂, o.target ≠ some slot) → ∃ rs' s₄,
      run ioStep ops₂ s₃ = .ok (rs', s₄) ∧
      ∀ dst, raidRead s₄ (BLOCKS_PER_PAGE * slot.val) dst =
        .ok ((flatRun ops (pageView s)).2 slot)

/-- After the calls `ops` the places the mode `m₂` gives to the blocks of the slot hold the same
bytes as the places the current mode gives them. -/
def SamePlaces (s : State) (ops : List IoOp) (slot : Slot) (m₂ : RaidMode) : Prop :=
  ∀ rs s₂, run ioStep ops s = .ok (rs, s₂) → ∀ i, i < BLOCKS_PER_PAGE →
    blockAtPlace s₂ m₂ (BLOCKS_PER_PAGE * slot.val + i) =
      blockAtPlace s₂ s.raidMode (BLOCKS_PER_PAGE * slot.val + i)

/-- A switch keeps a slot's page exactly when its places hold the same bytes. -/
theorem switchKeeps_iff {s : State} (hs : Healthy s) (ops : List IoOp) (slot : Slot)
    (m₂ : RaidMode) : SwitchKeeps s ops slot m₂ ↔ SamePlaces s ops slot m₂ := by
  obtain ⟨s₂, hrun, ⟨hI, hmode⟩, hv⟩ := (raid_refines_flat s.raidMode).run ops s ⟨hs, rfl⟩
  have hI₃ : Healthy { s₂ with raidMode := m₂ } := raidSetmode_healthy hI m₂
  have hiff := pageView_setmode_iff hI m₂ slot
  rw [hmode] at hiff
  constructor
  · rintro ⟨rs, s₂', s₃, hrun', hset, hall⟩ rs' s₂'' hrun''
    cases hrun.symm.trans hrun'
    cases hrun.symm.trans hrun''
    cases (raidSetmode_eq s₂ m₂).symm.trans hset
    obtain ⟨rs', s₄, hr, hread⟩ := hall [] (by simp)
    cases hr
    refine hiff.mp ?_
    have := hread zeroPage
    rw [raidRead_eq hI₃.readable, ← hv] at this
    exact Except.ok.inj this
  · intro h
    refine ⟨_, s₂, _, hrun, raidSetmode_eq s₂ m₂, fun ops₂ h₂ => ?_⟩
    -- under `m₂` the calls on other slots do not change what the slot reads
    obtain ⟨s₄, hrun₂, ⟨hI₄, -⟩, hv₄⟩ := (raid_refines_flat m₂).run ops₂ _ ⟨hI₃, rfl⟩
    refine ⟨_, s₄, hrun₂, fun dst => ?_⟩
    rw [raidRead_eq hI₄.readable, hv₄, flatRun_other ops₂ _ h₂, ← hv, hiff.mpr (h _ s₂ hrun)]

/-- A page of sevens written to slot 1 under `m₁` is lost under any other mode `m₂`. -/
theorem not_samePlaces_sevens {m₁ m₂ : RaidMode} (h : m₁ ≠ m₂) :
    ¬ SamePlaces (initMode bootState m₁) [.write 1 fun _ => 7] 1 m₂ := by
  intro hsame
  cases m₁ <;> cases m₂ <;> first
    | exact h rfl
    | exact absurd (congrFun (hsame _ _ rfl 1 (by decide)) 0) (by decide)
    | exact absurd (congrFun (hsame _ _ rfl 2 (by decide)) 0) (by decide)

/-- **Switching the mode.**  From a state with all disks healthy, after any calls, a switch to
`m₂` keeps a slot's page exactly when `m₂` is the current mode or its places for the slot already
hold the page's bytes; and a pair of modes keeps every page of every slot in every such state
only when the modes are the same. -/
theorem raid_setmode_keeps_page_iff (m₁ m₂ : RaidMode) :
    (∀ s : State, Healthy s → s.raidMode = m₁ → ∀ (ops : List IoOp) (slot : Slot),
      (SwitchKeeps s ops slot m₂ ↔ m₁ = m₂ ∨ SamePlaces s ops slot m₂)) ∧
    ((∀ s : State, Healthy s → s.raidMode = m₁ → ∀ (ops : List IoOp) (slot : Slot),
      SwitchKeeps s ops slot m₂) ↔ m₁ = m₂) := by
  have hsame : ∀ (s : State) (ops : List IoOp) (slot : Slot), s.raidMode = m₁ → m₁ = m₂ →
      SamePlaces s ops slot m₂ := by
    intro s ops slot hm h rs s₂ _ i _
    rw [hm, h]
  refine ⟨fun s hs hm ops slot => ?_, ?_, ?_⟩
  · rw [switchKeeps_iff hs]
    exact ⟨Or.inr, fun h => h.elim (hsame s ops slot hm) id⟩
  · intro hall
    by_contra hne
    exact not_samePlaces_sevens hne ((switchKeeps_iff (healthy_initMode bootState m₁) _ 1 m₂).mp
      (hall _ (healthy_initMode bootState m₁) rfl _ 1))
  · intro h s hs hm ops slot
    exact (switchKeeps_iff hs ops slot m₂).mpr (hsame s ops slot hm h)

/-- RAID-0 to RAID-1: slot 1, written under RAID-0, reads as zeros after the switch. -/
theorem raid_setmode_loses_page :
    ¬ ∀ (m₁ m₂ : RaidMode) (s s₁ s₂ s₃ : State) (slot : Slot) (page dst : Page),
      raidSetmode (raidInit s) m₁.toInt = .ok s₁ →
      raidWrite s₁ (BLOCKS_PER_PAGE * slot.val) page = .ok s₂ →
      raidSetmode s₂ m₂.toInt = .ok s₃ →
      raidRead s₃ (BLOCKS_PER_PAGE * slot.val) dst = .ok page := by
  intro h
  have hread := h .mode0 .mode1 bootState _ _ _ 1 (fun _ => 7) zeroPage rfl rfl rfl
  exact absurd (congrArg (fun e => e.toOption.map (· 0)) hread) (by decide)

end Xv6.Raid
