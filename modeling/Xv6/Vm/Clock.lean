import Xv6.Vm.Kernel
import Mathlib.Data.Finset.Max

/-!
# Vm — Clock

`clock_pick_victim` as the second-chance choice.

* `clockSweep_lap`: a stretch without a victim clears the reference bits of the entries it does
  not skip, and nothing else; it is at most one lap long, so no entry is met twice.
* `clockSweep_chance`: of two laps, the first finds the first entry with reference bit 0 if there
  is one; if not, the second finds the first entry of all, with every bit cleared on the way.
* `clock_victim`: a first sweep over the frames of the caller, which leaves everything as it was
  when there are none, and a second one over the frames of all processes.
* `scheduler_aware_iff`: the levels of the owners play no part in it.
-/

namespace Xv6.Vm
open Xv6.Lib

/-! ### The circular order -/

/-- The hand after `k` steps. -/
def handAt (hand : Fin MAX_FRAMES) (k : Nat) : Fin MAX_FRAMES :=
  ⟨(hand.val + k) % MAX_FRAMES, Nat.mod_lt _ (Nat.zero_lt_succ 31)⟩

theorem handAt_zero (hand : Fin MAX_FRAMES) : handAt hand 0 = hand := by
  ext
  simp only [handAt, Nat.add_zero]
  exact Nat.mod_eq_of_lt hand.isLt

/-- How many steps the hand takes to reach entry `i`. -/
def stepsTo (hand i : Fin MAX_FRAMES) : Nat := (i - hand).val

theorem stepsTo_lt (hand i : Fin MAX_FRAMES) : stepsTo hand i < MAX_FRAMES := (i - hand).isLt

theorem handAt_stepsTo (hand i : Fin MAX_FRAMES) : handAt hand (stepsTo hand i) = i := by
  ext
  simp only [handAt, stepsTo, Fin.val_sub, MAX_FRAMES]
  omega

theorem stepsTo_handAt (hand : Fin MAX_FRAMES) {k : Nat} (hk : k < MAX_FRAMES) :
    stepsTo hand (handAt hand k) = k := by
  have hlt : hand.val < 32 := hand.isLt
  simp only [handAt, stepsTo, Fin.val_sub, MAX_FRAMES] at hk ⊢
  omega

theorem stepsTo_inj {hand i j : Fin MAX_FRAMES} (h : stepsTo hand i = stepsTo hand j) : i = j := by
  rw [← handAt_stepsTo hand i, h, handAt_stepsTo]

theorem handAt_lap (hand : Fin MAX_FRAMES) : handAt hand MAX_FRAMES = hand := by
  ext
  have hlt : hand.val < 32 := hand.isLt
  simp only [handAt, MAX_FRAMES]
  omega

theorem handAt_add_one (hand : Fin MAX_FRAMES) (k : Nat) : handAt hand k + 1 = handAt hand (k + 1) := by
  ext
  simp only [handAt, Fin.val_add, Fin.val_one, MAX_FRAMES]
  omega

/-- Entry `i` is the first in circular order from the hand that satisfies `P`. -/
def FirstFrom (hand : Fin MAX_FRAMES) (P : Fin MAX_FRAMES → Prop) (i : Fin MAX_FRAMES) : Prop :=
  P i ∧ ∀ j, P j → stepsTo hand i ≤ stepsTo hand j

theorem exists_firstFrom {P : Fin MAX_FRAMES → Prop} (hand : Fin MAX_FRAMES) (h : ∃ i, P i) :
    ∃ i, FirstFrom hand P i := by
  classical
  obtain ⟨i, hi⟩ := h
  obtain ⟨j, hj, hmin⟩ := Finset.exists_min_image (Finset.univ.filter P) (stepsTo hand)
    ⟨i, by simpa using hi⟩
  exact ⟨j, by simpa using hj, fun m hm => hmin m (by simpa using hm)⟩

theorem FirstFrom.not_before {P : Fin MAX_FRAMES → Prop} {hand i : Fin MAX_FRAMES} {k : Nat}
    (h : FirstFrom hand P i) (hk : k < stepsTo hand i) : ¬ P (handAt hand k) := fun hP => by
  have hle := h.2 _ hP
  rw [stepsTo_handAt hand (hk.trans (stepsTo_lt hand i))] at hle
  omega

theorem FirstFrom.unique {P : Fin MAX_FRAMES → Prop} {hand i j : Fin MAX_FRAMES}
    (hi : FirstFrom hand P i) (hj : FirstFrom hand P j) : i = j :=
  stepsTo_inj (Nat.le_antisymm (hi.2 j hj.1) (hj.2 i hi.1))

/-! ### One sweep -/

/-- The table with the reference bits of some entries cleared. -/
def clearRefs (P : Fin MAX_FRAMES → Bool) (ft : FrameTable) : FrameTable := fun j =>
  if P j then { ft j with refBit := false } else ft j

section Sweep

variable {skip : FrameEntry → Bool} {ft ft' : FrameTable} {hand i : Fin MAX_FRAMES}

/-- A stretch without a victim, and then the rest. -/
theorem clockSweep_after {hand' : Fin MAX_FRAMES} (m n : Nat)
    (h : clockSweep skip m ft hand = (none, ft', hand')) :
    clockSweep skip (m + n) ft hand = clockSweep skip n ft' hand' := by
  induction m generalizing ft hand with
  | zero =>
      cases h
      rw [Nat.zero_add]
  | succ m ih =>
      rw [Nat.add_right_comm, clockSweep]
      rw [clockSweep] at h
      split at h
      · next hs => rw [if_pos hs, ih h]
      · next hs =>
          rw [if_neg hs]
          split at h
          · next hb => rw [if_pos hb, ih h]
          · cases h

/-- The entries that a stretch of `k` steps clears. -/
def sweptBy (skip : FrameEntry → Bool) (ft : FrameTable) (hand : Fin MAX_FRAMES) (k : Nat)
    (j : Fin MAX_FRAMES) : Bool :=
  !skip (ft j) && decide (stepsTo hand j < k)

theorem clearRefs_sweptBy_succ {k : Nat} (hk : k < MAX_FRAMES) :
    clearRefs (sweptBy skip ft hand (k + 1)) ft =
      if skip (ft (handAt hand k)) then clearRefs (sweptBy skip ft hand k) ft
      else Function.update (clearRefs (sweptBy skip ft hand k) ft) (handAt hand k)
        { ft (handAt hand k) with refBit := false } := by
  have hother : ∀ j, j ≠ handAt hand k → sweptBy skip ft hand (k + 1) j = sweptBy skip ft hand k j := by
    intro j hj
    have hne : stepsTo hand j ≠ k := fun he => hj (by rw [← he, handAt_stepsTo])
    simp only [sweptBy, show (stepsTo hand j < k + 1) = (stepsTo hand j < k) by
      rw [eq_iff_iff]; omega]
  have hself := stepsTo_handAt hand hk
  funext j
  by_cases hj : j = handAt hand k
  · subst hj
    cases hs : skip (ft (handAt hand k)) <;> simp [clearRefs, sweptBy, hs, hself]
  · split
    · simp only [clearRefs, hother j hj]
    · rw [Function.update_of_ne hj]
      simp only [clearRefs, hother j hj]

/-- **A stretch** that meets no victim, within one lap. -/
theorem clockSweep_lap {k : Nat} (hk : k ≤ MAX_FRAMES)
    (hpass : ∀ m, m < k → skip (ft (handAt hand m)) = true ∨ (ft (handAt hand m)).refBit = true) :
    clockSweep skip k ft hand = (none, clearRefs (sweptBy skip ft hand k) ft, handAt hand k) := by
  induction k with
  | zero =>
      have hnone : clearRefs (sweptBy skip ft hand 0) ft = ft := by
        funext j
        simp [clearRefs, sweptBy]
      rw [hnone, handAt_zero]
      rfl
  | succ k ih =>
      have hk' : k < MAX_FRAMES := hk
      rw [clockSweep_after k 1 (ih hk'.le fun m hm => hpass m (hm.trans k.lt_succ_self)),
        clearRefs_sweptBy_succ hk', ← handAt_add_one]
      -- the entry met in the last step has not been passed before
      have hmet : clearRefs (sweptBy skip ft hand k) ft (handAt hand k) = ft (handAt hand k) := by
        simp [clearRefs, sweptBy, stepsTo_handAt hand hk']
      rw [clockSweep, hmet]
      split
      · rfl
      · next hs =>
          have hb := (hpass k k.lt_succ_self).resolve_left hs
          rw [if_pos hb]
          rfl

/-- The sweep stops at an entry with reference bit 0. -/
theorem clockSweep_stop {n : Nat} (hn : n ≠ 0) (hs : skip (ft i) = false)
    (hb : (ft i).refBit = false) : clockSweep skip n ft i = (some i, ft, i + 1) := by
  obtain ⟨n, rfl⟩ := Nat.exists_eq_succ_of_ne_zero hn
  rw [Nat.succ_eq_add_one, clockSweep, if_neg (by simp [hs]), if_neg (by simp [hb])]

/-- **Second chance** over the entries in `C`: what a choice of victim `i` comes to, and what
becomes of the table `ft`. -/
structure SecondChance (C : Fin MAX_FRAMES → Prop) (hand : Fin MAX_FRAMES) (ft : FrameTable)
    (i : Fin MAX_FRAMES) (ft' : FrameTable) : Prop where
  unreferenced : (∃ j, C j ∧ (ft j).refBit = false) →
    FirstFrom hand (fun j => C j ∧ (ft j).refBit = false) i
  referenced : (∀ j, C j → (ft j).refBit = true) → FirstFrom hand C i
  cleared : ∀ j, C j → (stepsTo hand j < stepsTo hand i ∨ ∀ m, C m → (ft m).refBit = true) →
    ft' j = { ft j with refBit := false }
  kept : ∀ j, ¬ (C j ∧ (stepsTo hand j < stepsTo hand i ∨ ∀ m, C m → (ft m).refBit = true)) →
    ft' j = ft j

theorem SecondChance.mem {C : Fin MAX_FRAMES → Prop} (h : SecondChance C hand ft i ft') : C i := by
  by_cases hex : ∃ j, C j ∧ (ft j).refBit = false
  · exact (h.unreferenced hex).1.1
  · refine (h.referenced fun j hj => ?_).1
    by_contra hb
    exact hex ⟨j, hj, by simpa using hb⟩

/-- The first lap finds an entry that has not been referenced. -/
theorem clockSweep_first
    (hi : FirstFrom hand (fun j => skip (ft j) = false ∧ (ft j).refBit = false) i) :
    clockSweep skip (2 * MAX_FRAMES) ft hand =
      (some i, clearRefs (sweptBy skip ft hand (stepsTo hand i)) ft, i + 1) := by
  have hlt := stepsTo_lt hand i
  have hpass : ∀ m, m < stepsTo hand i →
      skip (ft (handAt hand m)) = true ∨ (ft (handAt hand m)).refBit = true := fun m hm => by
    by_contra hn
    rw [not_or, Bool.not_eq_true, Bool.not_eq_true] at hn
    exact hi.not_before hm hn
  have hlap := clockSweep_lap hlt.le hpass
  have hsame : clearRefs (sweptBy skip ft hand (stepsTo hand i)) ft i = ft i := by
    simp [clearRefs, sweptBy]
  rw [show 2 * MAX_FRAMES = stepsTo hand i + (2 * MAX_FRAMES - stepsTo hand i) by omega,
    clockSweep_after _ _ hlap, handAt_stepsTo]
  exact clockSweep_stop (by omega) (hsame ▸ hi.1.1) (hsame ▸ hi.1.2)

/-- A whole lap over entries that are all referenced or to be skipped. -/
theorem clockSweep_wholeLap (hall : ∀ j, skip (ft j) = false → (ft j).refBit = true) :
    clockSweep skip MAX_FRAMES ft hand = (none, clearRefs (fun j => !skip (ft j)) ft, hand) := by
  have hpass : ∀ m, m < MAX_FRAMES →
      skip (ft (handAt hand m)) = true ∨ (ft (handAt hand m)).refBit = true := fun m _ => by
    cases hs : skip (ft (handAt hand m)) with
    | true => exact Or.inl rfl
    | false => exact Or.inr (hall _ hs)
  rw [clockSweep_lap (Nat.le_refl MAX_FRAMES) hpass, handAt_lap]
  have hswept : sweptBy skip ft hand MAX_FRAMES = fun j => !skip (ft j) := by
    funext j
    simp [sweptBy, stepsTo_lt]
  rw [hswept]

variable (hskip : ∀ f b, skip { f with refBit := b } = skip f)

include hskip

theorem skip_clearRefs (P : Fin MAX_FRAMES → Bool) (j : Fin MAX_FRAMES) :
    skip (clearRefs P ft j) = skip (ft j) := by
  rw [clearRefs]
  split
  · rw [hskip]
  · rfl

/-- When all are referenced, the second lap finds the first entry. -/
theorem clockSweep_second (hall : ∀ j, skip (ft j) = false → (ft j).refBit = true)
    (hi : FirstFrom hand (fun j => skip (ft j) = false) i) :
    clockSweep skip (2 * MAX_FRAMES) ft hand =
      (some i, clearRefs (fun j => !skip (ft j)) ft, i + 1) := by
  rw [Nat.two_mul, clockSweep_after _ _ (clockSweep_wholeLap hall)]
  generalize hft : clearRefs (fun j => !skip (ft j)) ft = ft₁
  have hskip₁ : ∀ j, skip (ft₁ j) = skip (ft j) := fun j => by rw [← hft, skip_clearRefs hskip]
  have hlt := stepsTo_lt hand i
  have hpass : ∀ m, m < stepsTo hand i → skip (ft₁ (handAt hand m)) = true := fun m hm => by
    rw [hskip₁, ← Bool.not_eq_false]
    exact hi.not_before hm
  have hlap := clockSweep_lap hlt.le fun m hm => Or.inl (hpass m hm)
  have hsame : clearRefs (sweptBy skip ft₁ hand (stepsTo hand i)) ft₁ = ft₁ := by
    funext j
    by_cases hj : stepsTo hand j < stepsTo hand i
    · have hs := hpass _ hj
      rw [handAt_stepsTo] at hs
      simp [clearRefs, sweptBy, hs]
    · simp [clearRefs, sweptBy, hj]
  rw [hsame, handAt_stepsTo] at hlap
  have hrest := clockSweep_after _ (MAX_FRAMES - stepsTo hand i) hlap
  rw [Nat.add_sub_cancel' hlt.le] at hrest
  rw [hrest]
  refine clockSweep_stop (by omega) ((hskip₁ i).trans hi.1) ?_
  rw [← hft]
  simp [clearRefs, hi.1]

/-- **Two laps** make a second-chance choice. -/
theorem clockSweep_chance (hand : Fin MAX_FRAMES) (hex : ∃ i, skip (ft i) = false) :
    ∃ i ft', clockSweep skip (2 * MAX_FRAMES) ft hand = (some i, ft', i + 1) ∧
      SecondChance (fun j => skip (ft j) = false) hand ft i ft' := by
  by_cases hzero : ∃ j, skip (ft j) = false ∧ (ft j).refBit = false
  · obtain ⟨i, hi⟩ := exists_firstFrom hand hzero
    have hnot : ¬ ∀ m, skip (ft m) = false → (ft m).refBit = true := fun hall => by
      obtain ⟨j, hj, hb⟩ := hzero
      rw [hall j hj] at hb
      cases hb
    refine ⟨i, _, clockSweep_first hi, fun _ => hi, fun hall => absurd hall hnot, ?_, ?_⟩
    · intro j hj hpass
      simp [clearRefs, sweptBy, hj, hpass.resolve_right hnot]
    · intro j hj
      refine if_neg fun hsw => hj ?_
      rw [sweptBy, Bool.and_eq_true, Bool.not_eq_true', decide_eq_true_eq] at hsw
      exact ⟨hsw.1, Or.inl hsw.2⟩
  · have hall : ∀ j, skip (ft j) = false → (ft j).refBit = true := fun j hj => by
      by_contra hb
      exact hzero ⟨j, hj, by simpa using hb⟩
    obtain ⟨i, hi⟩ := exists_firstFrom hand hex
    refine ⟨i, _, clockSweep_second hskip hall hi, fun h => absurd h hzero, fun _ => hi, ?_, ?_⟩
    · intro j hj _
      simp [clearRefs, hj]
    · intro j hj
      refine if_neg fun hs => hj ⟨by simpa using hs, Or.inr hall⟩

omit hskip in
/-- Two laps that skip every entry change nothing. -/
theorem clockSweep_idle (hall : ∀ i, skip (ft i) = true) :
    clockSweep skip (2 * MAX_FRAMES) ft hand = (none, ft, hand) := by
  have hlap : clockSweep skip MAX_FRAMES ft hand =
      (none, clearRefs (fun j => !skip (ft j)) ft, hand) :=
    clockSweep_wholeLap fun j hj => absurd (hall j) (by simp [hj])
  have hsame : clearRefs (fun j => !skip (ft j)) ft = ft := by
    funext j
    simp [clearRefs, hall j]
  rw [hsame] at hlap
  rw [Nat.two_mul, clockSweep_after _ _ hlap, hlap]

end Sweep

/-! ### The victim -/

/-- The tables differ in reference bits only. -/
def SameEntries (ft ft' : FrameTable) : Prop :=
  ∀ i, ∃ b, ft' i = { ft i with refBit := b }

theorem SameEntries.refl (ft : FrameTable) : SameEntries ft ft := fun _ => ⟨_, rfl⟩

theorem SecondChance.sameEntries {C : Fin MAX_FRAMES → Prop} {hand i : Fin MAX_FRAMES}
    {ft ft' : FrameTable} (h : SecondChance C hand ft i ft') : SameEntries ft ft' := by
  intro j
  by_cases hj : C j ∧ (stepsTo hand j < stepsTo hand i ∨ ∀ m, C m → (ft m).refBit = true)
  · exact ⟨false, h.cleared j hj.1 hj.2⟩
  · exact ⟨(ft j).refBit, h.kept j hj⟩

/-- Process `p` has a frame. -/
def HasFrame (ft : FrameTable) (p : ProcId) : Prop := ∃ i, (ft i).used = true ∧ (ft i).proc = some p

/-- The frames among which the victim is chosen: those of the caller if it has any, otherwise
those of any process. -/
def Considered (ft : FrameTable) (curr : ProcId) (i : Fin MAX_FRAMES) : Prop :=
  (ft i).used = true ∧
    (HasFrame ft curr → (ft i).proc = some curr) ∧ (¬ HasFrame ft curr → (ft i).proc ≠ none)

/-- What the two sweeps skip. -/
def skipOther (curr : ProcId) (f : FrameEntry) : Bool := !f.used || f.proc != some curr

def skipFree (f : FrameEntry) : Bool := !f.used || f.proc == none

theorem skipOther_eq_false {curr : ProcId} {f : FrameEntry} :
    skipOther curr f = false ↔ f.used = true ∧ f.proc = some curr := by
  simp [skipOther]

theorem skipFree_eq_false {f : FrameEntry} :
    skipFree f = false ↔ f.used = true ∧ f.proc ≠ none := by
  rw [skipFree, Bool.or_eq_false_iff, Bool.not_eq_false', beq_eq_false_iff_ne]

section Victim

variable {ft : FrameTable} {curr : ProcId}

theorem considered_own (h : HasFrame ft curr) :
    (fun j => skipOther curr (ft j) = false) = Considered ft curr := by
  funext j
  simp [Considered, h, skipOther_eq_false]

theorem considered_any (h : ¬ HasFrame ft curr) :
    (fun j => skipFree (ft j) = false) = Considered ft curr := by
  funext j
  simp [Considered, h, skipFree_eq_false]

/-- Without a frame of the caller the first sweep leaves all as it was. -/
theorem clockSweep_other (h : ¬ HasFrame ft curr) (hand : Fin MAX_FRAMES) :
    clockSweep (skipOther curr) (2 * MAX_FRAMES) ft hand = (none, ft, hand) :=
  clockSweep_idle fun i => by
    by_contra hn
    exact h ⟨i, skipOther_eq_false.mp (by simpa using hn)⟩

/-- With a used frame that has an owner there is a victim. -/
theorem clockPickVictim_chance (hand : Fin MAX_FRAMES) (curr : ProcId)
    (hex : ∃ i, (ft i).used = true ∧ (ft i).proc ≠ none) :
    ∃ i ft', clockPickVictim ft hand curr = .ok (i, ft', i + 1) ∧
      SecondChance (Considered ft curr) hand ft i ft' := by
  by_cases hown : HasFrame ft curr
  · have hframe : ∃ i, skipOther curr (ft i) = false := by
      obtain ⟨i, hi⟩ := hown
      exact ⟨i, skipOther_eq_false.mpr hi⟩
    obtain ⟨i, ft', hsweep, hchance⟩ := clockSweep_chance (fun _ _ => rfl) hand hframe
    rw [considered_own hown] at hchance
    refine ⟨i, ft', ?_, hchance⟩
    unfold skipOther at hsweep
    simp only [clockPickVictim, hsweep]
  · have hframe : ∃ i, skipFree (ft i) = false := by
      obtain ⟨i, hi⟩ := hex
      exact ⟨i, skipFree_eq_false.mpr hi⟩
    obtain ⟨i, ft', hsweep, hchance⟩ := clockSweep_chance (fun _ _ => rfl) hand hframe
    have hidle := clockSweep_other hown hand
    rw [considered_any hown] at hchance
    refine ⟨i, ft', ?_, hchance⟩
    unfold skipOther at hidle
    unfold skipFree at hsweep
    simp only [clockPickVictim, hidle, hsweep]

theorem clockPickVictim_panics (hand : Fin MAX_FRAMES) (curr : ProcId)
    (hnone : ∀ i, ¬ ((ft i).used = true ∧ (ft i).proc ≠ none)) :
    clockPickVictim ft hand curr = .error "clock_pick_victim: no evictable frame" := by
  have hown : ¬ HasFrame ft curr := by
    rintro ⟨i, hu, hp⟩
    exact hnone i ⟨hu, by simp [hp]⟩
  have hidle := clockSweep_other hown hand
  have hany : clockSweep skipFree (2 * MAX_FRAMES) ft hand = (none, ft, hand) :=
    clockSweep_idle fun i => by
      by_contra hn
      exact hnone i (skipFree_eq_false.mp (by simpa using hn))
  have hfind : ((List.finRange MAX_FRAMES).find? fun i => (ft i).used && (ft i).proc != none) =
      none := List.find?_eq_none.mpr fun i _ hi => by
    rw [Bool.and_eq_true, bne_iff_ne] at hi
    exact hnone i hi
  unfold skipOther at hidle
  unfold skipFree at hany
  simp only [clockPickVictim, hidle, hany, hfind]

/-- **Clock victim selection.**  With a used frame that has an owner, the victim is the
second-chance choice among the frames considered and the hand stops just after it; without one
`clock_pick_victim` panics. -/
theorem clock_victim (ft : FrameTable) (hand : Fin MAX_FRAMES) (curr : ProcId) :
    ((∃ i, (ft i).used = true ∧ (ft i).proc ≠ none) ∧
      ∃ i ft', clockPickVictim ft hand curr = .ok (i, ft', i + 1) ∧
        SecondChance (Considered ft curr) hand ft i ft') ∨
    ((∀ i, ¬ ((ft i).used = true ∧ (ft i).proc ≠ none)) ∧
      clockPickVictim ft hand curr = .error "clock_pick_victim: no evictable frame") := by
  by_cases hex : ∃ i, (ft i).used = true ∧ (ft i).proc ≠ none
  · exact Or.inl ⟨hex, clockPickVictim_chance hand curr hex⟩
  · have hnone := not_exists.mp hex
    exact Or.inr ⟨hnone, clockPickVictim_panics hand curr hnone⟩

/-- With every frame used by some process there is a victim. -/
theorem clockPickVictim_spec (hused : ∀ i, (ft i).used = true)
    (hproc : ∀ i, (ft i).proc ≠ none) (hand : Fin MAX_FRAMES) (curr : ProcId) :
    ∃ i ft' hand', clockPickVictim ft hand curr = .ok (i, ft', hand') ∧ SameEntries ft ft' := by
  obtain ⟨i, ft', hpick, hchance⟩ := clockPickVictim_chance hand curr ⟨hand, hused hand, hproc hand⟩
  exact ⟨i, ft', i + 1, hpick, hchance.sameEntries⟩

/-- **A process that has a frame evicts one of its own.** -/
theorem clockPickVictim_own {ft' : FrameTable} {hand hand' i : Fin MAX_FRAMES} {p : ProcId}
    (h : HasFrame ft p) (hpick : clockPickVictim ft hand p = .ok (i, ft', hand')) :
    (ft i).used = true ∧ (ft i).proc = some p := by
  have hex : ∃ j, (ft j).used = true ∧ (ft j).proc ≠ none := by
    obtain ⟨j, hu, hp⟩ := h
    exact ⟨j, hu, by simp [hp]⟩
  obtain ⟨j, ft₁, hpick', hchance⟩ := clockPickVictim_chance hand p hex
  cases hpick.symm.trans hpick'
  exact ⟨hchance.mem.1, hchance.mem.2.1 h⟩

end Victim

/-! ### The levels of the owners -/

/-- A used frame of a process at MLFQ level 2 or more. -/
def LowPriority (level : ProcId → Int) (f : FrameEntry) : Prop :=
  f.used = true ∧ ∃ q, f.proc = some q ∧ 2 ≤ level q

/-- A used frame of a process at MLFQ level 0 or 1. -/
def HighPriority (level : ProcId → Int) (f : FrameEntry) : Prop :=
  f.used = true ∧ ∃ q, f.proc = some q ∧ level q < 2

/-- What the comment above `clock_pick_victim` says of its choice: an unreferenced frame of a
process at level 2 or more goes before any frame of a process at level 0 or 1. -/
def SchedulerAware (level : ProcId → Int) (ft : FrameTable) (hand : Fin MAX_FRAMES)
    (curr : ProcId) : Prop :=
  (∃ j, LowPriority level (ft j) ∧ (ft j).refBit = false) →
    ∃ i ft' hand', clockPickVictim ft hand curr = .ok (i, ft', hand') ∧ LowPriority level (ft i)

section Levels

variable {level : ProcId → Int} {ft : FrameTable} {hand i : Fin MAX_FRAMES} {curr : ProcId}

theorem LowPriority.owned {f : FrameEntry} (h : LowPriority level f) :
    f.used = true ∧ f.proc ≠ none := by
  obtain ⟨hu, q, hq, -⟩ := h
  exact ⟨hu, by simp [hq]⟩

/-- A frame of the caller is chosen if it has one, so its own level decides. -/
theorem considered_lowPriority_own (hown : HasFrame ft curr) (hi : Considered ft curr i) :
    LowPriority level (ft i) ↔ 2 ≤ level curr := by
  have hp := hi.2.1 hown
  constructor
  · rintro ⟨-, q, hq, hlevel⟩
    cases hp.symm.trans hq
    exact hlevel
  · exact fun hlevel => ⟨hi.1, curr, hp, hlevel⟩

/-- Otherwise the first unreferenced frame of any process is. -/
theorem firstFrom_lowPriority
    (hi : FirstFrom hand (fun j => ((ft j).used = true ∧ (ft j).proc ≠ none) ∧
      (ft j).refBit = false) i) :
    LowPriority level (ft i) ↔ ∃ j, LowPriority level (ft j) ∧ (ft j).refBit = false ∧
      ∀ m, HighPriority level (ft m) → (ft m).refBit = false → stepsTo hand j < stepsTo hand m := by
  constructor
  · intro hlow
    refine ⟨i, hlow, hi.1.2, fun m hm hb => ?_⟩
    obtain ⟨hu, q, hq, hlevel⟩ := hm
    refine lt_of_le_of_ne (hi.2 m ⟨⟨hu, by simp [hq]⟩, hb⟩) fun he => ?_
    obtain ⟨-, q', hq', hlevel'⟩ := hlow
    rw [stepsTo_inj he, hq] at hq'
    cases hq'
    omega
  · rintro ⟨j, hlow, hb, hbefore⟩
    obtain ⟨⟨hu, hp⟩, hib⟩ := hi.1
    obtain ⟨q, hq⟩ := Option.ne_none_iff_exists'.mp hp
    refine ⟨hu, q, hq, ?_⟩
    by_contra hlevel
    have hlt := hbefore i ⟨hu, q, hq, by omega⟩ hib
    have hle := hi.2 j ⟨hlow.owned, hb⟩
    omega

/-- **Where the levels are respected.**  Given an unreferenced frame of a process at level 2 or
more, the choice respects the levels just when the caller is itself at level 2 or more, or has no
frame and the hand comes to such a frame before any unreferenced one of a process at level 0 or
1. -/
theorem scheduler_aware_iff (level : ProcId → Int) (ft : FrameTable) (hand : Fin MAX_FRAMES)
    (curr : ProcId) :
    SchedulerAware level ft hand curr ↔
      ((∃ j, LowPriority level (ft j) ∧ (ft j).refBit = false) →
        (HasFrame ft curr → 2 ≤ level curr) ∧
        (¬ HasFrame ft curr → ∃ j, LowPriority level (ft j) ∧ (ft j).refBit = false ∧
          ∀ m, HighPriority level (ft m) → (ft m).refBit = false →
            stepsTo hand j < stepsTo hand m)) := by
  refine forall_congr' fun hex => ?_
  obtain ⟨j, hlow, hb⟩ := hex
  obtain ⟨i, ft', hpick, hchance⟩ := clockPickVictim_chance hand curr ⟨j, hlow.owned⟩
  have hvictim : (∃ i ft' hand', clockPickVictim ft hand curr = .ok (i, ft', hand') ∧
      LowPriority level (ft i)) ↔ LowPriority level (ft i) := by
    constructor
    · rintro ⟨i', ft₁, hand₁, hpick', hlow'⟩
      cases hpick.symm.trans hpick'
      exact hlow'
    · exact fun h => ⟨i, ft', i + 1, hpick, h⟩
  rw [hvictim]
  by_cases hown : HasFrame ft curr
  · simp [hown, considered_lowPriority_own hown hchance.mem]
  · have hC : ∀ m, Considered ft curr m ↔ (ft m).used = true ∧ (ft m).proc ≠ none := fun m => by
      simp [Considered, hown]
    have hfirst := hchance.unreferenced ⟨j, (hC j).mpr hlow.owned, hb⟩
    simp only [hC] at hfirst
    rw [firstFrom_lowPriority hfirst]
    simp [hown]

end Levels

theorem zero_lt_nproc : 0 < 64 := by decide
theorem one_lt_nproc : 1 < 64 := by decide
theorem zero_lt_maxFrames : 0 < MAX_FRAMES := by decide

def proc0 : ProcId := ⟨0, zero_lt_nproc⟩
def proc1 : ProcId := ⟨1, one_lt_nproc⟩
def frame0 : Fin MAX_FRAMES := ⟨0, zero_lt_maxFrames⟩

/-- All 32 frames in use and none of them referenced: frame 0 by process 1, the others by
process 0. -/
def sharedFrames : FrameTable := fun i =>
  { used := true, proc := some (if i.val = 0 then proc1 else proc0), va := i.val * 4096,
    pa := (64 + i.val) * 4096, refBit := false, grace := 0 }

/-- Process 1 is at level 3 and its frame unreferenced, but process 0, at level 0, evicts one of
its own. -/
theorem levels_not_respected :
    ¬ SchedulerAware (fun q => if q = proc1 then 3 else 0) sharedFrames frame0 proc0 := by
  intro h
  have hex : ∃ j, LowPriority (fun q => if q = proc1 then 3 else 0) (sharedFrames j) ∧
      (sharedFrames j).refBit = false :=
    ⟨frame0, ⟨rfl, proc1, rfl, by decide⟩, rfl⟩
  obtain ⟨i, ft', hand', hpick, -, q, hq, hlevel⟩ := h hex
  have hvictim : (clockPickVictim sharedFrames frame0 proc0).toOption.map (fun x => x.1.val) =
      some 1 := by decide +kernel
  rw [hpick] at hvictim
  have hi : i.val = 1 := Option.some.inj hvictim
  simp only [sharedFrames, hi] at hq
  cases hq
  exact absurd hlevel (by decide)

end Xv6.Vm
