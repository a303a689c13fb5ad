import Xv6.Vm.Moves

/-!
# Vm — Alloc

Page-table pages: `walk(_, _, 1)` and `mappages`.

* `walkAlloc_spec`: a walk that allocates takes free pages for the missing tables, and changes no
  entry; it fails only when `kalloc` returns 0.
* `mappages_spec`: mapping a held page at the address for which it is held.
-/

namespace Xv6.Vm
open Xv6.Lib
open Xv6.Raid (Page zeroPage PGSIZE BLOCKS_PER_PAGE MAX_SWAP Healthy)

variable {own own' : Nat → Owner} {lim : Nat → Nat} {s s' : Kernel} {p q : ProcId}
  {r v pa k : Nat} {rest : List Nat}

/-! ### A free page becomes a table -/

theorem ownL1_injective : Function.Injective ownL1 := by
  rintro ⟨r, k⟩ ⟨r', k'⟩ h
  simpa [ownL1] using h

theorem ownL0_injective : Function.Injective ownL0 := by
  rintro ⟨r, k⟩ ⟨r', k'⟩ h
  simpa [ownL0] using h

theorem Pages.takeTable {b : Owner} (h : Pages own lim s) (hfree : s.freelist = pa :: rest)
    (hb : b = .l1 r k ∨ b = .l0 r k) (hp : SameProcs s s') (hf : s'.freelist = rest)
    (hpte : ∀ r' v', s'.pte r' v' = s.pte r' v')
    (hl1 : Lists (Function.update own pa b) ownL1 fun k x =>
      IsTable own k.1 ∧ (s'.tables k.1).l1 k.2 = some x)
    (hl0 : Lists (Function.update own pa b) ownL0 fun k x =>
      IsTable own k.1 ∧ (s'.tables k.1).l0 k.2 = some x)
    (htable : ∀ r, IsTable own r → TableOk (s'.tables r) (lim r)) :
    Pages (Function.update own pa b) lim s' ∧ SameRoots own (Function.update own pa b) := by
  have hpa := h.own_head hfree
  have hroots : SameRoots own (Function.update own pa b) :=
    sameRoots_update (by simp [hpa]) (by rcases hb with rfl | rfl <;> simp)
  obtain ⟨hfr, hnd⟩ := h.free_tail hfree (b := b) (by rcases hb with rfl | rfl <;> simp)
  refine ⟨⟨fun x hx => ?_, hf ▸ hfr, hf ▸ hnd, ?_, ?_, ?_, ?_, ?_, ?_⟩, hroots⟩
  · rw [hp.kend]
    by_cases hxp : x = pa
    · exact hxp ▸ h.range pa (by simp [hpa])
    · exact h.range x (by rwa [Function.update_of_ne hxp] at hx)
  · exact h.root.keep (by simp [hpa]) (by rcases hb with rfl | rfl <;> simp) fun q x => by
      rw [hp.pagetable]
  · exact h.trapframe.keep (by simp [hpa]) (by rcases hb with rfl | rfl <;> simp) fun q x => by
      rw [hp.trapframe]
  · exact hl1.congr fun k x => by rw [hroots.isTable]
  · exact hl0.congr fun k x => by rw [hroots.isTable]
  · exact h.user.keep (by simp [hpa, ownUser]) (by rcases hb with rfl | rfl <;> simp [ownUser])
      fun k x => by rw [hroots.isTable, hpte]
  · exact fun r' hr' => htable r' ((hroots.isTable r').mp hr')

/-- A free page becomes a level-1 table. -/
theorem Pages.takeL1 (h : Pages own lim s) (hfree : s.freelist = pa :: rest)
    (hr : IsTable own r) (hk : k < 256) (hnone : (s.tables r).l1 k = none) (hp : SameProcs s s')
    (hf : s'.freelist = rest)
    (ht : s'.tables = Function.update s.tables r
      { s.tables r with l1 := Function.update (s.tables r).l1 k (some pa) }) :
    Pages (Function.update own pa (.l1 r k)) lim s' ∧
      SameRoots own (Function.update own pa (.l1 r k)) := by
  have hpa := h.own_head hfree
  have hl1 : ∀ r' k', (s'.tables r').l1 k' =
      if r' = r ∧ k' = k then some pa else (s.tables r').l1 k' := by
    intro r' k'
    rw [ht]
    by_cases hrr : r' = r
    · subst hrr
      by_cases hkk : k' = k <;> simp [hkk]
    · simp [hrr]
  have hl0 : ∀ r', (s'.tables r').l0 = (s.tables r').l0 := by
    intro r'
    rw [ht]
    by_cases hrr : r' = r
    · subst hrr
      simp
    · simp [hrr]
  have hpte : ∀ r', (s'.tables r').pte = (s.tables r').pte := by
    intro r'
    rw [ht]
    by_cases hrr : r' = r
    · subst hrr
      simp
    · simp [hrr]
  refine h.takeTable hfree (Or.inl rfl) hp hf (fun r' v' => by rw [Kernel.pte, Kernel.pte, hpte])
    ?_ ?_ fun r' hr' => ?_
  · refine h.l1.add ownL1_injective (r, k) (by simp [hpa, ownL1]) fun key x => ?_
    rw [hl1]
    by_cases hkey : key.1 = r ∧ key.2 = k
    · rw [if_pos hkey, hkey.1, hkey.2, hnone]
      have : key = (r, k) := Prod.ext hkey.1 hkey.2
      simp [hr, this, eq_comm]
    · rw [if_neg hkey]
      refine ⟨Or.inl, fun hx => hx.resolve_right fun he => hkey ?_⟩
      rw [he.1]
      exact ⟨rfl, rfl⟩
  · exact h.l0.keep (by simp [hpa, ownL0]) (by simp [ownL0]) fun key x => by rw [hl0]
  · have hold := h.table r' hr'
    refine ⟨fun j hj => ?_, fun j hj => ?_, ?_, ?_, hold.lim_le, ?_, ?_⟩
    · rw [hl1] at hj
      by_cases hkey : r' = r ∧ j = k
      · exact hkey.2 ▸ hk
      · exact hold.l1_lt j (by rwa [if_neg hkey] at hj)
    · rw [hl0] at hj
      rw [hl1]
      split
      · rfl
      · exact hold.l0_l1 j hj
    · rw [hpte, hl0]
      exact hold.pte_l0
    · rw [hpte]
      exact hold.shape
    · rw [hpte]
      exact hold.above
    · rw [hpte]
      exact hold.top

/-- A free page becomes a level-0 table. -/
theorem Pages.takeL0 (h : Pages own lim s) (hfree : s.freelist = pa :: rest)
    (hr : IsTable own r) (hk : ((s.tables r).l1 (k / 512)).isSome)
    (hnone : (s.tables r).l0 k = none) (hp : SameProcs s s') (hf : s'.freelist = rest)
    (ht : s'.tables = Function.update s.tables r
      { s.tables r with l0 := Function.update (s.tables r).l0 k (some pa) }) :
    Pages (Function.update own pa (.l0 r k)) lim s' ∧
      SameRoots own (Function.update own pa (.l0 r k)) := by
  have hpa := h.own_head hfree
  have hl0 : ∀ r' k', (s'.tables r').l0 k' =
      if r' = r ∧ k' = k then some pa else (s.tables r').l0 k' := by
    intro r' k'
    rw [ht]
    by_cases hrr : r' = r
    · subst hrr
      by_cases hkk : k' = k <;> simp [hkk]
    · simp [hrr]
  have hl1 : ∀ r', (s'.tables r').l1 = (s.tables r').l1 := by
    intro r'
    rw [ht]
    by_cases hrr : r' = r
    · subst hrr
      simp
    · simp [hrr]
  have hpte : ∀ r', (s'.tables r').pte = (s.tables r').pte := by
    intro r'
    rw [ht]
    by_cases hrr : r' = r
    · subst hrr
      simp
    · simp [hrr]
  refine h.takeTable hfree (Or.inr rfl) hp hf (fun r' v' => by rw [Kernel.pte, Kernel.pte, hpte])
    ?_ ?_ fun r' hr' => ?_
  · exact h.l1.keep (by simp [hpa, ownL1]) (by simp [ownL1]) fun key x => by rw [hl1]
  · refine h.l0.add ownL0_injective (r, k) (by simp [hpa, ownL0]) fun key x => ?_
    rw [hl0]
    by_cases hkey : key.1 = r ∧ key.2 = k
    · rw [if_pos hkey, hkey.1, hkey.2, hnone]
      have : key = (r, k) := Prod.ext hkey.1 hkey.2
      simp [hr, this, eq_comm]
    · rw [if_neg hkey]
      refine ⟨Or.inl, fun hx => hx.resolve_right fun he => hkey ?_⟩
      rw [he.1]
      exact ⟨rfl, rfl⟩
  · have hold := h.table r' hr'
    refine ⟨by rw [hl1]; exact hold.l1_lt, fun j hj => ?_, fun w hw => ?_, ?_, hold.lim_le, ?_, ?_⟩
    · rw [hl1]
      rw [hl0] at hj
      by_cases hkey : r' = r ∧ j = k
      · rw [hkey.1, hkey.2]
        exact hk
      · exact hold.l0_l1 j (by rwa [if_neg hkey] at hj)
    · rw [hpte] at hw
      rw [hl0]
      split
      · rfl
      · exact hold.pte_l0 w hw
    · rw [hpte]
      exact hold.shape
    · rw [hpte]
      exact hold.above
    · rw [hpte]
      exact hold.top

/-! ### Walks that allocate -/

/-- What a walk that allocates below table `r` leaves alone. -/
structure WalkKeeps (own own' : Nat → Owner) (s s' : Kernel) (r : Nat) : Prop where
  procs : SameProcs s s'
  roots : SameRoots own own'
  owner : ∀ x, own' x = own x ∨ (own x = .free ∧ ∃ k, own' x = .l1 r k ∨ own' x = .l0 r k)
  pte : ∀ r' v, s'.pte r' v = s.pte r' v
  mem : ∀ x, own x ≠ .free → s'.mem x = s.mem x
  frameTable : s'.frameTable = s.frameTable
  clockHand : s'.clockHand = s.clockHand
  swapSpace : s'.swapSpace = s.swapSpace
  raid : s'.raid = s.raid
  swapFulls : s'.swapFulls = s.swapFulls

theorem WalkKeeps.refl (own : Nat → Owner) (s : Kernel) (r : Nat) : WalkKeeps own own s s r :=
  ⟨SameProcs.refl s, SameRoots.refl own, fun _ => Or.inl rfl, fun _ _ => rfl, fun _ _ => rfl, rfl,
    rfl, rfl, rfl, rfl⟩

theorem WalkKeeps.trans {o₁ o₂ o₃ : Nat → Owner} {s₁ s₂ s₃ : Kernel}
    (h : WalkKeeps o₁ o₂ s₁ s₂ r) (h' : WalkKeeps o₂ o₃ s₂ s₃ r) : WalkKeeps o₁ o₃ s₁ s₃ r := by
  refine ⟨h.procs.trans h'.procs, h.roots.trans h'.roots, fun x => ?_,
    fun r' v => (h'.pte r' v).trans (h.pte r' v), fun x hx => ?_,
    h'.frameTable.trans h.frameTable, h'.clockHand.trans h.clockHand,
    h'.swapSpace.trans h.swapSpace, h'.raid.trans h.raid, h'.swapFulls.trans h.swapFulls⟩
  · rcases h.owner x with he | ⟨hf, k, hk⟩ <;> rcases h'.owner x with he' | ⟨hf', k', hk'⟩
    · exact Or.inl (he'.trans he)
    · exact Or.inr ⟨he ▸ hf', k', hk'⟩
    · exact Or.inr ⟨hf, k, by rwa [he']⟩
    · rcases hk with hk | hk <;> cases hf'.symm.trans hk
  · rcases h.owner x with he | ⟨hf, -⟩
    · exact (h'.mem x (he ▸ hx)).trans (h.mem x hx)
    · exact absurd hf hx

/-- An owner other than `free` stays. -/
theorem WalkKeeps.own_of_ne (h : WalkKeeps own own' s s' r) {x : Nat} (hx : own x ≠ .free) :
    own' x = own x := (h.owner x).resolve_right fun hf => hx hf.1

theorem WalkKeeps.held (h : WalkKeeps own own' s s' r) {x va : Nat} (hx : own' x = .held p va) :
    own x = .held p va := by
  rcases h.owner x with he | ⟨-, k, hk | hk⟩
  · rw [← he, hx]
  · cases hx.symm.trans hk
  · cases hx.symm.trans hk

/-- The parts of the invariant that a walk does not touch. -/
theorem WalkKeeps.wf (h : Wf own lim s) (hk : WalkKeeps own own' s s' r)
    (hpages : Pages own' lim s') : Wf own' lim s' := by
  refine ⟨hpages, ?_, h.slots.mono hk.roots (fun r' _ v _ => hk.pte r' v) hk.swapSpace,
    by rw [hk.raid]; exact h.raid, by rw [hk.procs.kend]; exact h.kend_pos⟩
  rw [hk.frameTable]
  refine h.frames.mono hk.roots fun i hi => hk.own_of_ne ?_
  rcases h.frames.owner hi with ⟨p, va, ho⟩ | ⟨r', v', ho⟩ <;> simp [ho]

/-- The tables that a walk goes through on the way to page number `v` exist. -/
def HasL0 (s : Kernel) (r v : Nat) : Prop := ((s.tables r).l0 (v / 512)).isSome

theorem kalloc_nil (h : s.freelist = []) :
    kalloc s = (none, { s with nullAllocs := s.nullAllocs + 1 }) := by
  rw [kalloc, h]

theorem kalloc_cons (h : s.freelist = pa :: rest) :
    kalloc s = (some pa, { setPage s pa (fun _ => 5) with freelist := rest }) := by
  rw [kalloc, h]

/-- A free page has become the lower-level table of which `b` tells. -/
def takeTable (s : Kernel) (r pa : Nat) (rest : List Nat) (t : PageTable) : Kernel :=
  setTable { setPage s pa (fun _ => 5) with freelist := rest } r t

theorem walkKeeps_takeTable {b : Owner} (t : PageTable) (h : Pages own lim s)
    (hfree : s.freelist = pa :: rest) (hb : ∃ k, b = .l1 r k ∨ b = .l0 r k)
    (hroots : SameRoots own (Function.update own pa b)) (ht : t.pte = (s.tables r).pte) :
    WalkKeeps own (Function.update own pa b) s (takeTable s r pa rest t) r := by
  have hpa := h.own_head hfree
  refine ⟨⟨rfl, rfl, rfl, rfl, fun _ => rfl⟩, hroots, fun x => ?_, fun r' v' => ?_, fun x hx => ?_,
    rfl, rfl, rfl, rfl, rfl⟩
  · by_cases hx : x = pa
    · subst hx
      refine Or.inr ⟨hpa, ?_⟩
      rw [Function.update_self]
      exact hb
    · exact Or.inl (Function.update_of_ne hx ..)
  · by_cases hrr : r' = r
    · subst hrr
      simp [Kernel.pte, takeTable, setTable, ht]
    · simp [Kernel.pte, takeTable, setTable, setPage, hrr]
  · have hne : x ≠ pa := fun he => hx (he ▸ hpa)
    simp [takeTable, setTable, setPage, hne]

/-- A call of `kalloc` that returned 0. -/
theorem Wf.nullAlloc (h : Wf own lim s) : Wf own lim { s with nullAllocs := s.nullAllocs + 1 } :=
  h.congr ⟨rfl, rfl, rfl, rfl, fun _ => rfl⟩ rfl rfl rfl (fun _ hi => ⟨hi, rfl, rfl, rfl⟩) h.raid

theorem walkKeeps_nullAlloc (own : Nat → Owner) (s : Kernel) (r : Nat) :
    WalkKeeps own own s { s with nullAllocs := s.nullAllocs + 1 } r :=
  ⟨⟨rfl, rfl, rfl, rfl, fun _ => rfl⟩, .refl own, fun _ => Or.inl rfl, fun _ _ => rfl,
    fun _ _ => rfl, rfl, rfl, rfl, rfl, rfl⟩

theorem walkL1_spec (h : Wf own lim s) (hr : IsTable own r) (hk : k < 256) :
    ∃ found s' own', walkL1 s r k = (found, s') ∧ Wf own' lim s' ∧ WalkKeeps own own' s s' r ∧
      (found = true → s'.nullAllocs = s.nullAllocs ∧ ((s'.tables r).l1 k).isSome) ∧
      (found = false → s'.nullAllocs = s.nullAllocs + 1) := by
  cases hl : (s.tables r).l1 k with
  | some a =>
      refine ⟨true, s, own, by simp [walkL1, hl], h, .refl own s r, fun _ => ⟨rfl, by simp [hl]⟩, ?_⟩
      exact fun hf => by cases hf
  | none =>
      cases hfree : s.freelist with
      | nil =>
          refine ⟨false, _, own, by simp only [walkL1, hl, kalloc_nil hfree], h.nullAlloc,
            walkKeeps_nullAlloc own s r, ?_, fun _ => rfl⟩
          exact fun hf => by cases hf
      | cons pa rest =>
          -- no level-0 table hangs below a missing level-1 table
          have hl0 : (fun j => if j / 512 = k then none else (s.tables r).l0 j) =
              (s.tables r).l0 := by
            funext j
            split
            · next hj =>
                symm
                by_contra hne
                have := (h.pages.table r hr).l0_l1 j (Option.isSome_iff_ne_none.mpr hne)
                rw [hj, hl] at this
                cases this
            · rfl
          have hwalk : walkL1 s r k = (true, takeTable s r pa rest
              { s.tables r with l1 := Function.update (s.tables r).l1 k (some pa) }) := by
            simp only [walkL1, hl, kalloc_cons hfree, setPage, hl0]
            rfl
          have hsame : SameProcs s (takeTable s r pa rest
              { s.tables r with l1 := Function.update (s.tables r).l1 k (some pa) }) :=
            ⟨rfl, rfl, rfl, rfl, fun _ => rfl⟩
          obtain ⟨hpages, hroots⟩ := h.pages.takeL1 hfree hr hk hl hsame rfl rfl
          have hkeeps := walkKeeps_takeTable
            { s.tables r with l1 := Function.update (s.tables r).l1 k (some pa) } h.pages hfree
            ⟨k, Or.inl rfl⟩ hroots rfl
          refine ⟨true, _, _, hwalk, hkeeps.wf h hpages, hkeeps, fun _ => ⟨rfl, ?_⟩, ?_⟩
          · simp [takeTable, setTable]
          · exact fun hf => by cases hf

theorem walkL0_spec (h : Wf own lim s) (hr : IsTable own r)
    (hk : ((s.tables r).l1 (k / 512)).isSome) :
    ∃ found s' own', walkL0 s r k = (found, s') ∧ Wf own' lim s' ∧ WalkKeeps own own' s s' r ∧
      (found = true → s'.nullAllocs = s.nullAllocs ∧ ((s'.tables r).l0 k).isSome) ∧
      (found = false → s'.nullAllocs = s.nullAllocs + 1) := by
  cases hl : (s.tables r).l0 k with
  | some a =>
      refine ⟨true, s, own, by simp [walkL0, hl], h, .refl own s r, fun _ => ⟨rfl, by simp [hl]⟩, ?_⟩
      exact fun hf => by cases hf
  | none =>
      cases hfree : s.freelist with
      | nil =>
          refine ⟨false, _, own, by simp only [walkL0, hl, kalloc_nil hfree], h.nullAlloc,
            walkKeeps_nullAlloc own s r, ?_, fun _ => rfl⟩
          exact fun hf => by cases hf
      | cons pa rest =>
          -- no entry hangs below a missing level-0 table
          have hpte : (fun v => if v / 512 = k then 0 else (s.tables r).pte v) =
              (s.tables r).pte := by
            funext v
            split
            · next hv =>
                symm
                by_contra hne
                have := (h.pages.table r hr).pte_l0 v hne
                rw [hv, hl] at this
                cases this
            · rfl
          have hwalk : walkL0 s r k = (true, takeTable s r pa rest
              { s.tables r with l0 := Function.update (s.tables r).l0 k (some pa) }) := by
            simp only [walkL0, hl, kalloc_cons hfree, setPage, hpte]
            rfl
          have hsame : SameProcs s (takeTable s r pa rest
              { s.tables r with l0 := Function.update (s.tables r).l0 k (some pa) }) :=
            ⟨rfl, rfl, rfl, rfl, fun _ => rfl⟩
          obtain ⟨hpages, hroots⟩ := h.pages.takeL0 hfree hr hk hl hsame rfl rfl
          have hkeeps := walkKeeps_takeTable
            { s.tables r with l0 := Function.update (s.tables r).l0 k (some pa) } h.pages hfree
            ⟨k, Or.inr rfl⟩ hroots rfl
          refine ⟨true, _, _, hwalk, hkeeps.wf h hpages, hkeeps, fun _ => ⟨rfl, ?_⟩, ?_⟩
          · simp [takeTable, setTable]
          · exact fun hf => by cases hf

/-- **`walk(pagetable, va, 1)`.** -/
theorem walkAlloc_spec {va : Nat} (h : Wf own lim s) (hr : IsTable own r) (hva : va < MAXVA) :
    ∃ found s' own', walkAlloc s r va = .ok (found, s') ∧ Wf own' lim s' ∧
      WalkKeeps own own' s s' r ∧
      (found = true → s'.nullAllocs = s.nullAllocs ∧ HasL0 s' r (va / PGSIZE)) ∧
      (found = false → s'.nullAllocs = s.nullAllocs + 1) := by
  have hva' : va < 2 ^ 38 := hva
  have hnot : ¬ va ≥ MAXVA := Nat.not_le.mpr hva
  obtain ⟨b₁, s₁, own₁, h₁, hwf₁, hk₁, ht₁, hf₁⟩ := walkL1_spec h hr (k := va / 2 ^ 30) (by omega)
  cases b₁ with
  | false =>
      refine ⟨false, s₁, own₁, ?_, hwf₁, hk₁, fun hf => ?_, fun _ => hf₁ rfl⟩
      · rw [walkAlloc, if_neg hnot, h₁]
      · cases hf
  | true =>
      obtain ⟨hn₁, hl₁⟩ := ht₁ rfl
      have hr₁ : IsTable own₁ r := (hk₁.roots.isTable r).mpr hr
      obtain ⟨b₂, s₂, own₂, h₂, hwf₂, hk₂, ht₂, hf₂⟩ := walkL0_spec hwf₁ hr₁ (k := va / 2 ^ 21)
        (by rwa [show va / 2 ^ 21 / 512 = va / 2 ^ 30 by omega])
      refine ⟨b₂, s₂, own₂, ?_, hwf₂, hk₁.trans hk₂, fun hb => ?_, fun hb => ?_⟩
      · rw [walkAlloc, if_neg hnot, h₁]
        exact congrArg Except.ok h₂
      · obtain ⟨hn₂, hl₂⟩ := ht₂ hb
        refine ⟨hn₂.trans hn₁, ?_⟩
        rw [HasL0, show va / PGSIZE / 512 = va / 2 ^ 21 by simp only [PGSIZE]; omega]
        exact hl₂
      · rw [hf₂ hb, hn₁]

/-- A walk changes no page of user memory. -/
theorem WalkKeeps.keeps (h : Wf own lim s) (hk : WalkKeeps own own' s s' r)
    (hn : s.nullAllocs ≤ s'.nullAllocs) : Keeps noPage own own' s s' := by
  refine ⟨hk.procs, hk.roots, fun x => ?_, fun r' v hr hv _ => ?_, hn, hk.swapFulls.ge,
    fun _ _ ht pa hpa => ?_⟩
  · rcases hk.owner x with he | ⟨hf, k, hk | hk⟩
    · rw [he]
    · simp [hf, hk]
    · simp [hf, hk]
  · refine flat_congr (hk.pte r' v) (fun x hx => hk.mem x ?_) (fun n _ => by rw [hk.raid])
      (h.pages.userEntry hr hv)
    simp [h.pages.own_user hr hv hx]
  · rw [hk.frameTable]
    refine ht pa ?_
    rcases hk.owner pa with he | ⟨hf, k, hk | hk⟩
    · rwa [he] at hpa
    · simp [hk] at hpa
    · simp [hk] at hpa

/-! ### Mapping a page -/

/-- The held page `pa` has been mapped as page `v` of table `r`. -/
structure Mapped (own own' : Nat → Owner) (lim : Nat → Nat) (s s' : Kernel) (r v pa : Nat)
    (perm : Pte) : Prop where
  wf : Wf own' lim s'
  keeps : Keeps (onePage r v) own own' s s'
  resident : Resident (s'.pte r v) pa
  flat : flat s' r v = (s.mem pa, perm.perm)
  held : ∀ x q b, own' x = .held q b → x ≠ pa ∧ own x = .held q b
  pte : ∀ r' v', ¬ (r' = r ∧ v' = v) → s'.pte r' v' = s.pte r' v'
  mem : ∀ x, own x ≠ .free → s'.mem x = s.mem x
  frameTable : s'.frameTable = s.frameTable
  clockHand : s'.clockHand = s.clockHand
  nulls : s'.nullAllocs = s.nullAllocs
  fulls : s'.swapFulls = s.swapFulls

/-- **`mappages`** on one held page, at the address for which it is held. -/
theorem mappages_spec {perm : Pte} (h : Wf own lim s) (hr : OwnsTable own p r)
    (hv : v < UPAGES) (hn : v < lim r) (hpa : own pa = .held p (v * PGSIZE))
    (hzero : s.pte r v = 0) (hperm : PermOk perm) :
    ∃ mapped s' own', mappages s r (v * PGSIZE) PGSIZE pa perm = .ok (mapped, s') ∧
      (mapped = true → Mapped own own' lim s s' r v pa perm) ∧
      (mapped = false → Wf own' lim s' ∧ own' pa = .held p (v * PGSIZE) ∧ SameRoots own own' ∧
        s'.nullAllocs = s.nullAllocs + 1) := by
  have hdiv : v * PGSIZE / PGSIZE = v := Nat.mul_div_cancel v (by decide)
  have hva : v * PGSIZE < MAXVA := by
    simp only [UPAGES, TRAPFRAME, TRAMPOLINE, MAXVA, PGSIZE] at *
    omega
  obtain ⟨found, s₁, own₁, hwalk, hwf₁, hk₁, hfound, hnot⟩ := walkAlloc_spec h hr.isTable hva
  have hloop : mappages s r (v * PGSIZE) PGSIZE pa perm =
      mappagesLoop r perm 1 s (v * PGSIZE) pa := by
    simp only [mappages, Nat.mul_mod_left, PGSIZE]
    rfl
  cases found with
  | false =>
      refine ⟨false, s₁, own₁, ?_, fun hm => ?_, fun _ => ⟨hwf₁,
        (hk₁.own_of_ne (by simp [hpa])).trans hpa, hk₁.roots, hnot rfl⟩⟩
      · rw [hloop]
        simp [mappagesLoop, hwalk]
      · cases hm
  | true =>
      obtain ⟨hnull, hl0⟩ := hfound rfl
      rw [hdiv] at hl0
      have hz₁ : s₁.pte r v = 0 := (hk₁.pte _ _).trans hzero
      have hpa₁ : own₁ pa = .held p (v * PGSIZE) := (hk₁.own_of_ne (by simp [hpa])).trans hpa
      have hr₁ : OwnsTable own₁ p r := (hk₁.roots.owns p r).mpr hr
      have hres : Resident (mapPte pa perm) pa :=
        mapPte_resident (hwf₁.pages.physOk (by simp [hpa₁])) hperm
      have hnotres : ∀ x, ¬ Resident (s₁.pte r v) x := fun x hx => hx.not_zero hz₁
      let s₂ := setPte s₁ r v (mapPte pa perm)
      have hpte : s₂.pte r v = mapPte pa perm := by rw [pte_setPte, if_pos ⟨rfl, rfl⟩]
      have hshift : Shift own₁ (Function.update own₁ pa (.user r v)) :=
        shift_update (by simp [hpa₁, Movable]) trivial
      have hpages : Pages (Function.update own₁ pa (.user r v)) lim s₂ :=
        hwf₁.pages.map hr₁.isTable hv ⟨rfl, rfl, rfl, rfl, fun _ => rfl⟩ rfl hnotres hpa₁ hres hn
          hl0 rfl
      have hslots : Slots (Function.update own₁ pa (.user r v)) s₂ :=
        hwf₁.slots.unswap hshift rfl (fun n => hres.not_Swapped) (fun _ _ => rfl) hr₁.isTable hv
      have hwf₂ : Wf (Function.update own₁ pa (.user r v)) lim s₂ :=
        ⟨hpages, hwf₁.frames.map hpa₁ hr₁ hdiv, hslots, hwf₁.raid, hwf₁.kend_pos⟩
      have hk₂ : Keeps (onePage r v) own₁ (Function.update own₁ pa (.user r v)) s₁ s₂ := by
        refine ⟨⟨rfl, rfl, rfl, rfl, fun _ => rfl⟩, hshift.roots,
          fun x => hshift.eq_iff (by simp [Movable]) x, fun r' v' hr' hv' hne => ?_, le_rfl, le_rfl,
          fun _ _ ht x hx => ?_⟩
        · refine flat_congr ?_ (fun _ _ => rfl) (fun _ _ => rfl) (hwf₁.pages.userEntry hr' hv')
          rw [pte_setPte, if_neg hne]
        · by_cases hxp : x = pa
          · exact ht x (Or.inr ⟨p, _, hxp ▸ hpa₁⟩)
          · exact ht x (by rwa [Function.update_of_ne hxp] at hx)
      refine ⟨true, s₂, _, ?_, fun _ => ⟨hwf₂, ?_, hpte ▸ hres, ?_, fun x q b hx => ?_,
        fun r' v' hne => ?_, hk₁.mem, hk₁.frameTable, hk₁.clockHand, hnull, hk₁.swapFulls⟩,
        fun hm => ?_⟩
      · rw [hloop]
        have hV : (0 : Pte).has PTE_V = false := rfl
        simp only [mappagesLoop, hwalk, ok_bind, hdiv, hz₁, hV]
        rfl
      · exact (hk₁.keeps h hnull.ge).trans hk₂ fun r' v' ht => ht.resolve_left id
      · rw [flat_resident (hpte ▸ hres), hpte, mapPte_perm]
        exact congrArg (·, perm.perm) (hk₁.mem pa (by simp [hpa]))
      · by_cases hxp : x = pa
        · rw [hxp, Function.update_self] at hx
          cases hx
        · rw [Function.update_of_ne hxp] at hx
          exact ⟨hxp, hk₁.held hx⟩
      · rw [pte_setPte, if_neg hne]
        exact hk₁.pte r' v'
      · cases hm

end Xv6.Vm
