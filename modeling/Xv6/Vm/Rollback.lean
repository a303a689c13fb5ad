import Xv6.Vm.Lifecycle

/-!
# Vm — Rollback

What an allocation that has failed leaves in the frame table.

`kalloc_user` claims the entry of its victim before it knows that there is a swap slot for the
page, and gives up the entry of a page that stays mapped when there is none.  `uvmalloc` frees the
page that it cannot map, and leaves the entry.

* `FramesKept`: what a failure should leave.
* `Stuck`, `Short`: the two states from which a turn of `uvmalloc` does not leave it.
* `turn_failed`: one turn, from any other state.
* `failed_allocation`: a failed `vmfault` or `growproc` keeps the frame table just when it comes
  through no such state.
-/

namespace Xv6.Vm
open Xv6.Lib
open Xv6.Raid (Page zeroPage PGSIZE BLOCKS_PER_PAGE MAX_SWAP)

variable {own own' : Nat → Owner} {lim lim' : Nat → Nat} {s s' : Kernel} {p q : ProcId}
  {r v b pa va : Nat}

/-- Every page in memory has its entry, and no entry is about a page that has been freed. -/
structure FramesKept (s : Kernel) : Prop where
  page : ∀ p v pa, ResidentAt s p v pa → ∃ i, (s.frameTable i).used = true ∧
    (s.frameTable i).proc = some p ∧ (s.frameTable i).va = v * PGSIZE ∧ (s.frameTable i).pa = pa
  alive : ∀ i, (s.frameTable i).used = true → (s.frameTable i).pa ∉ s.freelist

theorem framesKept_iff (h : Settled own lim s) : FramesKept s ↔ Tracked own s.frameTable := by
  constructor
  · rintro hk pa (⟨r, v, hu⟩ | ⟨q, a, hh⟩)
    · obtain ⟨⟨p, hp⟩, -⟩ := (h.wf.pages.user (r, v) pa).mp hu
      have hroot : own r = .root p := hp.resolve_right (h.noNew r p)
      obtain ⟨i, hi, -, -, hpa⟩ := hk.page p v pa ((residentAt_iff h).mpr ⟨r, hroot, hu⟩)
      exact ⟨i, hi, hpa⟩
    · exact absurd hh (h.noHeld _ _ _)
  · intro ht
    have hex := (frameTableExact_iff h).mpr ht
    refine ⟨fun p v pa hat => ?_, fun i hi hfree => ?_⟩
    · obtain ⟨i, hi, hp, hva, hat'⟩ := hex.page p v pa hat
      refine ⟨i, hi, hp, hva, ?_⟩
      obtain ⟨-, -, r, hr, -, rfl⟩ := hat
      obtain ⟨-, -, r', hr', -, hpa⟩ := hat'
      cases hr.symm.trans hr'
      exact hpa.symm
    · obtain ⟨p, r, -, -, -, hu⟩ := h.entry hi
      cases hu.symm.trans ((h.wf.pages.free () _).mpr hfree)

/-! ### Unmapping and the frame table -/

/-- Entries about pages in `A` may have been dropped. -/
def Drops (A : Nat → Prop) (ft ft' : FrameTable) : Prop :=
  ∀ j, ft' j = ft j ∨ ((ft' j).used = false ∧ A (ft j).pa)

variable {A : Nat → Prop}

theorem Drops.refl (A : Nat → Prop) (ft : FrameTable) : Drops A ft ft := fun _ => Or.inl rfl

theorem Drops.trans {f₁ f₂ f₃ : FrameTable} (h : Drops A f₁ f₂) (h' : Drops A f₂ f₃) :
    Drops A f₁ f₃ := by
  intro j
  rcases h j with he | ⟨hu, ha⟩
  · rw [← he]
    exact h' j
  · refine Or.inr ⟨?_, ha⟩
    rcases h' j with he' | ⟨hu', -⟩
    · rw [he', hu]
    · exact hu'

theorem dropFrame_drops (ft : FrameTable) (hpa : A pa) : Drops A ft (dropFrame ft pa) := by
  intro j
  cases hi : (List.finRange MAX_FRAMES).find? fun i => (ft i).used && (ft i).pa == pa with
  | none => exact Or.inl (by simp only [dropFrame, hi])
  | some i =>
      have hfound := List.find?_some hi
      simp only [Bool.and_eq_true, beq_iff_eq] at hfound
      simp only [dropFrame, hi]
      by_cases hj : j = i
      · subst hj
        exact Or.inr ⟨by rw [Function.update_self], by rwa [hfound.2]⟩
      · exact Or.inl (Function.update_of_ne hj ..)

theorem kfree_same (h : kfree s pa = .ok s') :
    s'.frameTable = s.frameTable ∧ s'.tables = s.tables := by
  unfold kfree at h
  split at h
  · cases h
  · cases h
    exact ⟨rfl, rfl⟩

/-- One turn of the loop of `uvmunmap`. -/
theorem uvmunmapPage_drops (hA : (s.pte r v).has PTE_V = true → A (pte2Pa (s.pte r v)))
    (h : uvmunmapPage s r true (v * PGSIZE) = .ok s') :
    Drops A s.frameTable s'.frameTable ∧ ∀ w, w ≠ v → s'.pte r w = s.pte r w := by
  have hset : ∀ t : Kernel, t.tables = s.tables →
      ∀ w, w ≠ v → (setPte t r (v * PGSIZE / PGSIZE) 0).pte r w = s.pte r w := by
    intro t ht w hw
    rw [page_div, pte_setPte, if_neg fun he => hw he.2, Kernel.pte, ht]
    rfl
  obtain ⟨e, he, h⟩ := bind_eq_ok.mp h
  cases e with
  | none =>
      cases h
      exact ⟨.refl A _, fun _ _ => rfl⟩
  | some e =>
      have hee : e = s.pte r v := by
        unfold walk at he
        split at he
        · cases he
        · split at he
          · cases he
            rw [page_div]
            rfl
          · cases he
      subst hee
      simp only at h
      split at h
      · cases h
        exact ⟨.refl A _, hset _ rfl⟩
      · split at h
        · cases h
          exact ⟨.refl A _, fun _ _ => rfl⟩
        · next hval =>
            simp only [if_true] at h
            obtain ⟨s₁, h₁, h⟩ := bind_eq_ok.mp h
            cases h
            obtain ⟨hft, htab⟩ := kfree_same h₁
            refine ⟨?_, hset s₁ htab⟩
            rw [show (setPte s₁ r (v * PGSIZE / PGSIZE) 0).frameTable = s₁.frameTable from rfl, hft]
            exact dropFrame_drops s.frameTable (hA (by simpa using hval))

theorem uvmunmap_drops {n : Nat} (hA : ∀ w, v ≤ w → w < v + n → (s.pte r w).has PTE_V = true →
      A (pte2Pa (s.pte r w))) (h : uvmunmap s r (v * PGSIZE) n true = .ok s') :
    Drops A s.frameTable s'.frameTable ∧ ∀ w, ¬ (v ≤ w ∧ w < v + n) → s'.pte r w = s.pte r w := by
  have halign : ¬ v * PGSIZE % PGSIZE ≠ 0 := by simp [Nat.mul_mod_left]
  simp only [uvmunmap, if_neg halign] at h
  induction n generalizing s' with
  | zero =>
      cases h
      exact ⟨.refl A _, fun _ _ => rfl⟩
  | succ n ih =>
      rw [List.range_succ, List.foldlM_append] at h
      obtain ⟨s₁, h₁, h⟩ := bind_eq_ok.mp h
      obtain ⟨hd, hpte⟩ := ih (fun w hw hlt => hA w hw (by omega)) h₁
      rw [List.foldlM_cons, show v * PGSIZE + n * PGSIZE = (v + n) * PGSIZE from
        (Nat.add_mul ..).symm] at h
      obtain ⟨s₂, h₂, h⟩ := bind_eq_ok.mp h
      cases h
      have hlast : s₁.pte r (v + n) = s.pte r (v + n) := hpte _ (by omega)
      obtain ⟨hd', hpte'⟩ := uvmunmapPage_drops (A := A)
        (by rw [hlast]; exact hA _ (by omega) (by omega)) h₂
      refine ⟨hd.trans hd', fun w hw => ?_⟩
      rw [hpte' w (by omega), hpte w (by omega)]

theorem countUnmapped_same {n : Nat} (h : countUnmapped s p r va n = .ok s') :
    s'.frameTable = s.frameTable ∧ s'.tables = s.tables := by
  refine foldlM_invariant (I := fun t : Kernel => t.frameTable = s.frameTable ∧ t.tables = s.tables)
    (fun t k t' ht hk => ?_) _ s s' ⟨rfl, rfl⟩ h
  obtain ⟨e, -, hk⟩ := bind_eq_ok.mp hk
  cases e with
  | none =>
      cases hk
      exact ht
  | some e =>
      simp only at hk
      split at hk
      · cases hk
        exact ht
      · cases hk
        exact ht

/-- **`uvmdealloc`** drops entries about the pages that it unmaps, and no others. -/
theorem uvmdealloc_drops {x : Nat} (hb : b ≤ v) (hv : v ≤ UPAGES)
    (hA : ∀ w, b ≤ w → w < v → (s.pte r w).has PTE_V = true → A (pte2Pa (s.pte r w)))
    (h : uvmdealloc s p r (v * PGSIZE) (b * PGSIZE) = .ok (x, s')) :
    Drops A s.frameTable s'.frameTable := by
  have hup : ∀ n, n ≤ UPAGES → pgRoundUp (n * PGSIZE) = n * PGSIZE := fun n hn => by
    rw [pgRoundUp_eq (page_le_trapframe hn), npages_page]
  rw [uvmdealloc, hup v hv, hup b (by omega)] at h
  split at h
  · cases h
    exact .refl A _
  · split at h
    · rw [← Nat.sub_mul, Nat.mul_div_cancel _ (by decide)] at h
      obtain ⟨s₁, h₁, h⟩ := bind_eq_ok.mp h
      obtain ⟨s₂, h₂, h⟩ := bind_eq_ok.mp h
      cases h
      obtain ⟨hft, htab⟩ := countUnmapped_same h₁
      have hpte : ∀ w, s₁.pte r w = s.pte r w := pte_of_tables htab r
      rw [← hft]
      exact (uvmunmap_drops (fun w hw hlt => by rw [hpte]; exact hA w hw (by omega)) h₂).1
    · cases h
      exact .refl A _

/-! ### Page-table pages -/

/-- The number of page-table pages that `walk(_, va, 1)` has to allocate. -/
def tablesMissing (s : Kernel) (r va : Nat) : Nat :=
  (if (s.tables r).l1 (va / 2 ^ 30) = none then 1 else 0) +
    if (s.tables r).l0 (va / 2 ^ 21) = none then 1 else 0

theorem walkL0_found (s : Kernel) (r k : Nat) :
    (walkL0 s r k).1 = decide ((if (s.tables r).l0 k = none then 1 else 0) ≤ s.freelist.length) ∧
      (walkL0 s r k).2.frameTable = s.frameTable ∧ (walkL0 s r k).2.freelist.length =
        s.freelist.length - if (s.tables r).l0 k = none then 1 else 0 := by
  cases h0 : (s.tables r).l0 k with
  | some c => simp [walkL0, h0]
  | none =>
      cases hfree : s.freelist with
      | nil => simp [walkL0, h0, kalloc_nil hfree, hfree]
      | cons x rest => simp [walkL0, h0, kalloc_cons hfree, setTable, setPage]

/-- `walk` finds its entry just when the free list has the pages for the missing tables. -/
theorem walkAlloc_found {n : Nat} (ht : TableOk (s.tables r) n) (hva : va < MAXVA) :
    ∃ s', walkAlloc s r va = .ok (decide (tablesMissing s r va ≤ s.freelist.length), s') ∧
      s'.frameTable = s.frameTable ∧
      s'.freelist.length = s.freelist.length - tablesMissing s r va := by
  have hnot : ¬ va ≥ MAXVA := Nat.not_le.mpr hva
  have hdiv : va / 2 ^ 21 / 512 = va / 2 ^ 30 := by omega
  simp only [walkAlloc, if_neg hnot]
  cases h1 : (s.tables r).l1 (va / 2 ^ 30) with
  | some a =>
      have hw : walkL1 s r (va / 2 ^ 30) = (true, s) := by simp only [walkL1, h1]
      obtain ⟨hfound, hft, hlen⟩ := walkL0_found s r (va / 2 ^ 21)
      have hmiss : tablesMissing s r va = if (s.tables r).l0 (va / 2 ^ 21) = none then 1 else 0 := by
        simp only [tablesMissing, h1, reduceCtorEq, if_false, Nat.zero_add]
      refine ⟨(walkL0 s r (va / 2 ^ 21)).2, ?_, hft, hmiss.symm ▸ hlen⟩
      simp only [hw, hmiss, ← hfound]
  | none =>
      -- without a level-1 table there is no level-0 table
      have h0 : (s.tables r).l0 (va / 2 ^ 21) = none := by
        by_contra hne
        have := ht.l0_l1 _ (Option.isSome_iff_ne_none.mpr hne)
        rw [hdiv, h1] at this
        cases this
      have hmiss : tablesMissing s r va = 2 := by simp only [tablesMissing, h0, h1, if_true]
      rw [hmiss]
      cases hfree : s.freelist with
      | nil =>
          refine ⟨{ s with nullAllocs := s.nullAllocs + 1 }, ?_, rfl, by simp [hfree]⟩
          simp only [walkL1, h1, kalloc_nil hfree]
          rfl
      | cons x rest =>
          have hw : ∃ s₁, walkL1 s r (va / 2 ^ 30) = (true, s₁) ∧ s₁.freelist = rest ∧
              s₁.frameTable = s.frameTable ∧ (s₁.tables r).l0 (va / 2 ^ 21) = none := by
            refine ⟨(walkL1 s r (va / 2 ^ 30)).2, ?_, ?_⟩
            all_goals simp only [walkL1, h1, kalloc_cons hfree]
            refine ⟨rfl, rfl, ?_⟩
            simp only [setTable, Function.update_self]
            rw [if_pos hdiv]
          obtain ⟨s₁, hw, hrest, hft, h0'⟩ := hw
          obtain ⟨hfound, hft', hlen'⟩ := walkL0_found s₁ r (va / 2 ^ 21)
          rw [hrest, h0', if_pos rfl] at hfound hlen'
          refine ⟨(walkL0 s₁ r (va / 2 ^ 21)).2, ?_, hft'.trans hft, ?_⟩
          · have hlen : decide (2 ≤ (x :: rest).length) = (walkL0 s₁ r (va / 2 ^ 21)).1 := by
              rw [hfound, List.length_cons]
              exact decide_eq_decide.mpr (by omega)
            simp only [hw, hlen]
          · rw [hlen', List.length_cons]
            omega

theorem mappages_found {n : Nat} {perm : Pte} {x : Bool × Kernel} (ht : TableOk (s.tables r) n)
    (hv : v < UPAGES) (hrun : mappages s r (v * PGSIZE) PGSIZE pa perm = .ok x) :
    (x.1 = true ↔ tablesMissing s r (v * PGSIZE) ≤ s.freelist.length) ∧
      x.2.frameTable = s.frameTable := by
  have hva : v * PGSIZE < MAXVA := by
    simp only [UPAGES, TRAPFRAME, TRAMPOLINE, MAXVA, PGSIZE] at *
    omega
  obtain ⟨s₁, hw, hft, -⟩ := walkAlloc_found ht hva
  have hloop : mappages s r (v * PGSIZE) PGSIZE pa perm =
      mappagesLoop r perm 1 s (v * PGSIZE) pa := by
    simp only [mappages, Nat.mul_mod_left, PGSIZE]
    rfl
  rw [hloop] at hrun
  simp only [mappagesLoop, hw, ok_bind] at hrun
  split at hrun
  · next hnot =>
      cases hrun
      exact ⟨iff_of_false Bool.false_ne_true (by simpa using hnot), hft⟩
  · next hfound =>
      split at hrun
      · cases hrun
      · cases hrun
        exact ⟨iff_of_true rfl (by simpa using hfound), hft⟩

/-! ### The states in which an entry goes wrong -/

/-- No entry and no slot is free, and `kalloc_user(p, _)` would give up the entry of a page that is
not one of the pages `b` to `v` of `p`. -/
def Stuck (s : Kernel) (p : ProcId) (b v : Nat) : Prop :=
  freeFrame s.frameTable = none ∧ freeSlot s = none ∧
    ∀ i ft hand, clockPickVictim s.frameTable s.clockHand p = .ok (i, ft, hand) →
      ¬ ((s.frameTable i).proc = some p ∧ b * PGSIZE ≤ (s.frameTable i).va ∧
        (s.frameTable i).va < v * PGSIZE)

/-- `kalloc_user` would get a page, but there are not the page-table pages to map it at `va`. -/
def Short (s : Kernel) (r va : Nat) : Prop :=
  (freeFrame s.frameTable ≠ none ∧ s.freelist ≠ [] ∧ s.freelist.length ≤ tablesMissing s r va) ∨
    (freeFrame s.frameTable = none ∧ freeSlot s ≠ none ∧ s.freelist.length < tablesMissing s r va)

/-- The four ways of `kalloc_user`: no page, no slot, a free frame, a victim. -/
theorem kallocUser_cases {res : Option Nat} (h : Wf own lim s) (hvict : VictimOk own s p)
    (hrun : kallocUser s p va = .ok (res, s')) :
    (res = none ∧ freeFrame s.frameTable ≠ none ∧ s.freelist = [] ∧
      ∀ j, (s.frameTable j).used = true → s'.frameTable j = s.frameTable j) ∨
    (res = none ∧ freeFrame s.frameTable = none ∧ freeSlot s = none ∧ ∃ i ft hand f,
      clockPickVictim s.frameTable s.clockHand p = .ok (i, ft, hand) ∧
      SameEntries s.frameTable ft ∧ f.used = false ∧ s'.frameTable = Function.update ft i f) ∨
    (res ≠ none ∧ freeFrame s.frameTable ≠ none ∧
      s.freelist.length = s'.freelist.length + 1) ∨
    (res ≠ none ∧ freeFrame s.frameTable = none ∧ freeSlot s ≠ none ∧ s'.freelist = s.freelist) := by
  cases hff : freeFrame s.frameTable with
  | some i =>
      cases hfree : s.freelist with
      | nil =>
          cases hrun.symm.trans (kallocUser_null hff hfree)
          refine Or.inl ⟨rfl, by simp, rfl, fun j hj => Function.update_of_ne ?_ ..⟩
          rintro rfl
          cases (freeFrame_some hff).symm.trans hj
      | cons x rest =>
          cases hrun.symm.trans (kallocUser_free hff hfree)
          exact Or.inr (Or.inr (Or.inl ⟨by simp, by simp, rfl⟩))
  | none =>
      obtain ⟨i, ft, hand, q, r, hpick, hsame, hq, hroot, huser⟩ := h.victim hvict hff
      cases hfs : freeSlot s with
      | none =>
          cases hrun.symm.trans (kallocUser_full hff hpick hfs)
          exact Or.inr (Or.inl ⟨rfl, rfl, rfl, i, ft, hand, _, hpick, hsame, rfl, rfl⟩)
      | some slot =>
          obtain ⟨hslot, -⟩ := freeSlot_some hfs
          obtain ⟨raid, hwrite, -, -⟩ := raidWrite_slot h.raid hslot (s.mem (ft i).pa)
          obtain ⟨hr, hvu, hres⟩ := (h.pages.user (r, (ft i).va / PGSIZE) (ft i).pa).mp huser
          have hwalk := walk_resident h.pages hr rfl hres hvu
          cases hrun.symm.trans (kallocUser_evict hff hpick hfs hq
            ((h.pages.root q r).mp hroot) hwalk hres.valid h.kend_pos
            (h.pages.range _ (by simp [huser])) hwrite)
          exact Or.inr (Or.inr (Or.inr ⟨by simp, rfl, by simp, rfl⟩))

/-! ### A turn of `uvmalloc` -/

/-- Table `r` is empty again from page `b` on. -/
structure Backed (own own' : Nat → Owner) (lim : Nat → Nat) (s s' : Kernel) (r b v : Nat) : Prop where
  wf : Wf own' (Function.update lim r b) s'
  keeps : Keeps (fun r' w => r' = r ∧ b ≤ w) own own' s s'
  noHeld : NoHeld own'
  owner : ∀ x, own' x = own x ∨ ∃ w, (b ≤ w ∧ w < v) ∧ own x = .user r w
  left : ∀ x r' w, own' x = .user r' w → own x = .user r' w ∧ ¬ (r' = r ∧ b ≤ w ∧ w < v)

section Turn

variable {s₁ : Kernel} (h : Wf own lim s) (hr : own r = .root p) (hheld : NoHeld own)
  (hlim : lim r = v) (hb : b ≤ v) (hv : v < UPAGES)

include hr hheld hlim hb hv

/-- The pages that have been added are unmapped after an allocation that failed. -/
theorem AllocFailed.backed {x : Nat} (hf : AllocFailed own lim s s₁)
    (hrun : uvmdealloc s₁ p r (v * PGSIZE) (b * PGSIZE) = .ok (x, s')) :
    ∃ own', Backed own own' lim s s' r b v ∧
      Drops (fun x => ∃ w, (b ≤ w ∧ w < v) ∧ own x = .user r w) s₁.frameTable s'.frameTable := by
  have htab : IsTable own r := ⟨p, Or.inl hr⟩
  obtain ⟨s₂, own', hd, hu⟩ := uvmdealloc_spec hf.wf htab p (b * PGSIZE) (page_le_trapframe hv.le)
  cases hrun.symm.trans hd
  rw [npages_page, npages_page] at hu
  have hzero : ∀ w, b ≤ w → w < UPAGES → s'.pte r w = 0 := by
    intro w hw hwu
    by_cases hwv : w < v
    · exact hu.pte_in w ⟨hw, hwv⟩
    · rw [hu.pte_out r w fun he => hwv he.2.2]
      exact hf.wf.pte_above htab (by omega) hwu
  refine ⟨own', ⟨hu.wf.setLim (by omega) hzero, ?_, hu.noHeld hheld, fun x => ?_, fun x r' w hx => ?_⟩,
    uvmdealloc_drops hb hv.le (fun w hw hlt hval => ?_) hrun⟩
  · exact hf.keeps.trans hu.keeps fun r' w ht => ht.elim False.elim fun ht => ⟨ht.1, ht.2.1⟩
  · exact (hu.owner x).imp_right And.left
  · obtain ⟨-, -, hres⟩ := (hu.wf.pages.user (r', w) x).mp hx
    refine ⟨?_, ?_⟩
    · rcases hu.owner x with he | ⟨-, he⟩
      · rw [← he, hx]
      · cases he.symm.trans hx
    · rintro ⟨rfl, hw⟩
      exact hres.not_zero (hu.pte_in w hw)
  · have hwu : w < UPAGES := by omega
    exact ⟨w, ⟨hw, hlt⟩, hf.wf.pages.own_user htab hwu
      ((hf.wf.pages.table r htab).resident_of hwu hval)⟩

omit hr hheld hlim hb hv in
/-- `kalloc` has returned 0: the entry that had been claimed is free again. -/
theorem Backed.tracked_null (hk : Backed own own' lim s s' r b v)
    (hd : Drops (fun x => ∃ w, (b ≤ w ∧ w < v) ∧ own x = .user r w) s₁.frameTable s'.frameTable)
    (hsame : ∀ j, (s.frameTable j).used = true → s₁.frameTable j = s.frameTable j)
    (ht : Tracked own s.frameTable) : Tracked own' s'.frameTable := by
  rintro x (⟨r', w, hx⟩ | ⟨q, a, hx⟩)
  · obtain ⟨hx₀, hleft⟩ := hk.left x r' w hx
    obtain ⟨j, hj, hjx⟩ := ht x (Or.inl ⟨r', w, hx₀⟩)
    have hj₁ := hsame j hj
    rcases hd j with he | ⟨-, w', hw', hu⟩
    · exact ⟨j, by rw [he, hj₁, hj], by rw [he, hj₁, hjx]⟩
    · rw [hj₁, hjx, hx₀] at hu
      cases hu
      exact absurd ⟨rfl, hw'⟩ hleft
  · exact absurd hx (hk.noHeld x q a)

include h

omit hlim hb hv in
/-- There is no slot: the entry of the victim is free now, and its page is still there unless it is
one of those that have been unmapped. -/
theorem Backed.tracked_full {i : Fin MAX_FRAMES} {ft : FrameTable} {hand : Fin MAX_FRAMES}
    {f : FrameEntry} (hk : Backed own own' lim s s' r b v)
    (hd : Drops (fun x => ∃ w, (b ≤ w ∧ w < v) ∧ own x = .user r w) s₁.frameTable s'.frameTable)
    (hff : freeFrame s.frameTable = none) (hfs : freeSlot s = none)
    (hpick : clockPickVictim s.frameTable s.clockHand p = .ok (i, ft, hand))
    (hsame : SameEntries s.frameTable ft) (hf : f.used = false)
    (hft : s₁.frameTable = Function.update ft i f) (hnew : NoNew own) (ht : Tracked own s.frameTable) :
    Tracked own' s'.frameTable ↔ ¬ Stuck s p b v := by
  have hused := freeFrame_none hff i
  obtain ⟨q, r', hq, hr', hu⟩ := h.frames.onRoot hheld hnew hused
  -- the victim is one of the pages unmapped
  have hmine : ((s.frameTable i).proc = some p ∧ b * PGSIZE ≤ (s.frameTable i).va ∧
      (s.frameTable i).va < v * PGSIZE) ↔ ∃ w, (b ≤ w ∧ w < v) ∧ own (s.frameTable i).pa = .user r w := by
    obtain ⟨-, -, hva, -⟩ := h.frames.ok i hused
    have hdiv : ∀ n, (s.frameTable i).va / PGSIZE = n ↔ (s.frameTable i).va = n * PGSIZE := by
      intro n
      simp only [PGSIZE] at *
      omega
    constructor
    · rintro ⟨hp, hlo, hhi⟩
      rw [hq] at hp
      cases hp
      refine ⟨_, ?_, h.pages.root_unique hr' hr ▸ hu⟩
      simp only [PGSIZE] at *
      omega
    · rintro ⟨w, ⟨hlo, hhi⟩, hw⟩
      rw [hu] at hw
      injection hw with h₁ h₂
      subst h₁
      rw [hr'] at hr
      cases hr
      rw [(hdiv w).mp h₂]
      exact ⟨hq, Nat.mul_le_mul_right _ hlo, Nat.mul_lt_mul_of_pos_right hhi (by decide)⟩
  have hstuck : ¬ Stuck s p b v ↔ ∃ w, (b ≤ w ∧ w < v) ∧ own (s.frameTable i).pa = .user r w := by
    rw [← hmine]
    constructor
    · intro hnot
      by_contra hout
      refine hnot ⟨hff, hfs, fun i' ft' hand' hpick' => ?_⟩
      cases hpick.symm.trans hpick'
      exact hout
    · exact fun hin hstuck => hstuck.2.2 i ft hand hpick hin
  rw [hstuck]
  constructor
  · intro ht'
    rcases hk.owner (s.frameTable i).pa with he | hin
    swap
    · exact hin
    obtain ⟨j, hj, hjx⟩ := ht' _ (Or.inl ⟨r', _, he.trans hu⟩)
    have hj₁ : s'.frameTable j = s₁.frameTable j := by
      rcases hd j with he | ⟨hun, -⟩
      · exact he
      · cases hun.symm.trans hj
    rw [hj₁, hft] at hj hjx
    by_cases hji : j = i
    · rw [hji, Function.update_self, hf] at hj
      cases hj
    · rw [Function.update_of_ne hji] at hj hjx
      obtain ⟨huj, -, -, hpaj⟩ := hsame.fields j
      exact absurd (h.frames.inj j i (huj ▸ hj) hused (hpaj.symm.trans hjx)) hji
  · rintro ⟨w, hw, hin⟩ x (⟨r₂, w₂, hx⟩ | ⟨q₂, a, hx⟩)
    · obtain ⟨hx₀, hleft⟩ := hk.left x r₂ w₂ hx
      obtain ⟨j, hj, hjx⟩ := ht x (Or.inl ⟨r₂, w₂, hx₀⟩)
      obtain ⟨huj, -, -, hpaj⟩ := hsame.fields j
      have hji : j ≠ i := by
        rintro rfl
        rw [hjx, hx₀] at hin
        cases hin
        exact hleft ⟨rfl, hw⟩
      have hj₁ : s₁.frameTable j = ft j := by rw [hft, Function.update_of_ne hji]
      rcases hd j with he | ⟨-, w', hw', hu'⟩
      · exact ⟨j, by rw [he, hj₁, huj, hj], by rw [he, hj₁, hpaj, hjx]⟩
      · rw [hj₁, hpaj, hjx, hx₀] at hu'
        cases hu'
        exact absurd ⟨rfl, hw'⟩ hleft
    · exact absurd hx (hk.noHeld x q₂ a)

end Turn

/-- The page that could not be mapped is freed, and its entry stays. -/
theorem giveUp_stale {i : Fin MAX_FRAMES} {s₁ : Kernel} {x : Nat} (h : Wf own lim s) (hpa : own pa = .held p va)
    (hr : IsTable own r) (hb : b ≤ v) (hv : v ≤ UPAGES) (hi : (s.frameTable i).used = true)
    (hpai : (s.frameTable i).pa = pa) (hfree : kfree s pa = .ok s₁)
    (hrun : uvmdealloc s₁ p r (v * PGSIZE) (b * PGSIZE) = .ok (x, s')) :
    (s'.frameTable i).used = true ∧ (s'.frameTable i).pa ∈ s'.freelist := by
  obtain ⟨s₂, s₃, hfree', hd, -, hmem⟩ := giveUp_spec h hpa hr hv b
  cases hfree.symm.trans hfree'
  cases hrun.symm.trans hd
  obtain ⟨hft, htab⟩ := kfree_same hfree
  have hdrops := uvmdealloc_drops (A := fun y => y ≠ pa) hb hv (fun w hw hlt hval => ?_) hrun
  swap
  · -- the pages unmapped are mapped, not held
    have hwu : w < UPAGES := by omega
    rw [show s₁.pte r w = s.pte r w from pte_of_tables htab r w] at hval ⊢
    have := h.pages.own_user hr hwu ((h.pages.table r hr).resident_of hwu hval)
    rintro rfl
    cases hpa.symm.trans this
  rw [hft] at hdrops
  rcases hdrops i with he | ⟨-, hne⟩
  · rw [he, hpai]
    exact ⟨hi, hmem⟩
  · exact absurd hpai hne

section Loop

variable {x : Pte} (hperm : PermOk (PTE_R ||| PTE_U ||| x)) (h : Wf own lim s) (hr : own r = .root p)
  (hheld : NoHeld own) (hnew : NoNew own) (hlim : lim r = v) (hv : v < UPAGES)

include hperm h hr hheld hnew hlim hv

omit hperm hlim in
/-- A page that `kalloc_user` has returned is mapped unless the page-table pages are missing. -/
theorem turn_mapped {s₁ : Kernel} {y : Bool × Kernel}
    (hk : kallocUser s p (v * PGSIZE) = .ok (some pa, s₁))
    (hm : mappages (setPage s₁ pa zeroPage) r (v * PGSIZE) PGSIZE pa (PTE_R ||| PTE_U ||| x) = .ok y) :
    (y.1 = false ↔ Short s r (v * PGSIZE)) ∧ y.2.frameTable = s₁.frameTable := by
  have hvict := h.victimOk hheld hnew p
  obtain ⟨res, s₂, hk', -, hok⟩ := kallocUser_spec h (page_mod v) hvict
  cases hk.symm.trans hk'
  have hal := hok pa rfl
  have htab : IsTable own r := ⟨p, Or.inl hr⟩
  obtain ⟨hiff, hft⟩ := mappages_found (s := setPage s₁ pa zeroPage)
    (hal.wf.pages.table r ((hal.keeps.roots.isTable r).mpr htab)) hv hm
  refine ⟨?_, hft⟩
  have hmiss : tablesMissing (setPage s₁ pa zeroPage) r (v * PGSIZE) = tablesMissing s r (v * PGSIZE) := by
    unfold tablesMissing
    rw [show (setPage s₁ pa zeroPage).tables = s₁.tables from rfl, hal.l1, hal.l0]
  have hfalse : y.1 = false ↔ ¬ tablesMissing s r (v * PGSIZE) ≤ s₁.freelist.length := by
    rw [← hmiss, ← Bool.not_eq_true]
    exact not_congr hiff
  rw [hfalse]
  rcases kallocUser_cases h hvict hk with ⟨hn, -⟩ | ⟨hn, -⟩ | ⟨-, hff, hlen⟩ | ⟨-, hff, hfs, hlen⟩
  · cases hn
  · cases hn
  · have hne : s.freelist ≠ [] := by
      intro hnil
      rw [hnil] at hlen
      simp at hlen
    simp only [Short, hff, ne_eq, not_false_eq_true, hne, true_and, false_and, or_false]
    omega
  · simp only [Short, hff, ne_eq, not_true_eq_false, hfs, not_false_eq_true, true_and, false_and,
      false_or, hlen]
    omega

/-- **A turn that fails.** -/
theorem turn_failed (hb : b ≤ v) (ht : Tracked own s.frameTable)
    (hrun : uvmallocLoop p r (b * PGSIZE) x 1 (v * PGSIZE) s = .ok (false, s')) :
    (Short s r (v * PGSIZE) ∧
      ∃ i, (s'.frameTable i).used = true ∧ (s'.frameTable i).pa ∈ s'.freelist) ∨
    (¬ Short s r (v * PGSIZE) ∧ ∃ own', Backed own own' lim s s' r b v ∧
      (Tracked own' s'.frameTable ↔ ¬ Stuck s p b v)) := by
  have hvict := h.victimOk hheld hnew p
  obtain ⟨res, s₁, hk, hfail, hok⟩ := addPage_spec h (Or.inl hr) hv hlim hheld hvict hperm
  simp only [uvmallocLoop, hk, ok_bind] at hrun
  cases res with
  | none =>
      obtain ⟨⟨y, s₂⟩, hd, hrun⟩ := bind_eq_ok.mp hrun
      cases hrun
      obtain ⟨own', hback, hdrops⟩ := (hfail rfl).backed hr hheld hlim hb hv hd
      refine Or.inr ?_
      rcases kallocUser_cases h hvict hk with ⟨-, hff, hnil, hsame⟩ |
        ⟨-, hff, hfs, i, ft, hand, f, hpick, hsame, hf, hft⟩ | ⟨hn, -⟩ | ⟨hn, -⟩
      · refine ⟨fun hs => ?_, own', hback, iff_of_true (hback.tracked_null hdrops hsame ht)
          fun hs => hff hs.1⟩
        rcases hs with ⟨-, hne, -⟩ | ⟨hn, -⟩
        · exact hne hnil
        · exact hff hn
      · refine ⟨fun hs => ?_, own', hback, hback.tracked_full h hr hheld hdrops hff hfs hpick hsame hf
          hft hnew ht⟩
        rcases hs with ⟨hn, -⟩ | ⟨-, hn, -⟩
        · exact hn hff
        · exact hn hfs
      · exact absurd rfl hn
      · exact absurd rfl hn
  | some pa =>
      obtain ⟨mapped, s₂, own₂, hm, htrue, hfalse⟩ := hok pa rfl
      obtain ⟨hshort, hft⟩ := turn_mapped h hr hheld hnew hv hk hm
      simp only [hm, ok_bind] at hrun
      cases mapped with
      | true =>
          simp only [if_true] at hrun
          cases hrun
      | false =>
          obtain ⟨hwf₂, hpa₂, hroots₂, -⟩ := hfalse rfl
          simp only [Bool.false_eq_true, if_false] at hrun
          obtain ⟨s₃, hfree, hrun⟩ := bind_eq_ok.mp hrun
          obtain ⟨⟨y, s₄⟩, hd, hrun⟩ := bind_eq_ok.mp hrun
          cases hrun
          obtain ⟨res', s₁', hk', -, hok'⟩ := kallocUser_spec h (page_mod v) hvict
          cases hk.symm.trans hk'
          obtain ⟨i, ft, hand, -, -, hclaim, -⟩ := (hok' pa rfl).claim
          have hentry : s₂.frameTable i = claimedEntry p (v * PGSIZE) pa := by
            rw [hft, hclaim, Function.update_self]
          exact Or.inl ⟨hshort.mp rfl, i, giveUp_stale hwf₂ hpa₂
            ((hroots₂.isTable r).mpr ⟨p, Or.inl hr⟩) hb hv.le (by rw [hentry]; rfl)
            (by rw [hentry]; rfl) hfree hd⟩

/-- From such a state a turn does fail. -/
theorem turn_fails (hbad : Stuck s p b v ∨ Short s r (v * PGSIZE)) :
    uvmallocLoop p r (b * PGSIZE) x 1 (v * PGSIZE) s ≠ .ok (true, s') := by
  intro hrun
  have hvict := h.victimOk hheld hnew p
  obtain ⟨res, s₁, hk, -, hok⟩ := addPage_spec h (Or.inl hr) hv hlim hheld hvict hperm
  simp only [uvmallocLoop, hk, ok_bind] at hrun
  cases res with
  | none =>
      obtain ⟨⟨y, s₂⟩, -, hrun⟩ := bind_eq_ok.mp hrun
      cases hrun
  | some pa =>
      obtain ⟨mapped, s₂, own₂, hm, -, -⟩ := hok pa rfl
      obtain ⟨hshort, -⟩ := turn_mapped h hr hheld hnew hv hk hm
      simp only [hm, ok_bind] at hrun
      rcases hbad with ⟨hff, hfs, -⟩ | hs
      · rcases kallocUser_cases h hvict hk with ⟨hn, -⟩ | ⟨hn, -⟩ | ⟨-, hff', -⟩ | ⟨-, -, hfs', -⟩
        · cases hn
        · cases hn
        · exact hff' hff
        · exact hfs' hfs
      · cases hshort.mpr hs
        simp only [Bool.false_eq_true, if_false] at hrun
        obtain ⟨s₃, -, hrun⟩ := bind_eq_ok.mp hrun
        obtain ⟨⟨y, s₄⟩, -, hrun⟩ := bind_eq_ok.mp hrun
        cases hrun

end Loop

/-! ### The loop of `uvmalloc` -/

section Split

variable {base : Nat} {x : Pte}

/-- The loop takes one turn after the other. -/
theorem uvmallocLoop_succ (n a : Nat) (s : Kernel) : uvmallocLoop p r base x (n + 1) a s =
    uvmallocLoop p r base x 1 a s >>= fun y =>
      if y.1 then uvmallocLoop p r base x n (a + PGSIZE) y.2 else .ok y := by
  simp only [uvmallocLoop]
  cases hk : kallocUser s p a with
  | error e => rfl
  | ok y =>
      obtain ⟨mem, s₁⟩ := y
      simp only [ok_bind]
      cases mem with
      | none =>
          cases hd : uvmdealloc s₁ p r a base with
          | error e => rfl
          | ok z => rfl
      | some pa =>
          cases hm : mappages (setPage s₁ pa zeroPage) r a PGSIZE pa (PTE_R ||| PTE_U ||| x) with
          | error e => simp only [hm]; rfl
          | ok z =>
              obtain ⟨mapped, s₂⟩ := z
              simp only [hm, ok_bind]
              cases mapped with
              | true => rfl
              | false =>
                  cases hf : kfree s₂ pa with
                  | error e => rfl
                  | ok s₃ =>
                      simp only [ok_bind]
                      cases hd : uvmdealloc s₃ p r a base with
                      | error e => rfl
                      | ok z => rfl

theorem uvmallocLoop_add (k m : Nat) : ∀ (a : Nat) (s t : Kernel),
    uvmallocLoop p r base x k a s = .ok (true, t) →
    uvmallocLoop p r base x (k + m) a s = uvmallocLoop p r base x m (a + k * PGSIZE) t := by
  induction k with
  | zero =>
      intro a s t h
      cases h
      rw [Nat.zero_add, Nat.zero_mul, Nat.add_zero]
  | succ k ih =>
      intro a s t h
      rw [uvmallocLoop_succ] at h
      obtain ⟨⟨ok, s₁⟩, h₁, h⟩ := bind_eq_ok.mp h
      cases ok with
      | false => cases h
      | true =>
          rw [Nat.add_right_comm, uvmallocLoop_succ, h₁, ok_bind, if_pos rfl, ih _ _ _ h,
            Nat.add_assoc, Nat.add_mul, Nat.one_mul, Nat.add_comm PGSIZE]

/-- A loop that fails does so at some turn. -/
theorem uvmallocLoop_failed (n : Nat) : ∀ (a : Nat) (s s' : Kernel),
    uvmallocLoop p r base x n a s = .ok (false, s') → ∃ k t, k < n ∧
      uvmallocLoop p r base x k a s = .ok (true, t) ∧
      uvmallocLoop p r base x 1 (a + k * PGSIZE) t = .ok (false, s') := by
  induction n with
  | zero =>
      intro a s s' h
      cases h
  | succ n ih =>
      intro a s s' h
      rw [uvmallocLoop_succ] at h
      obtain ⟨⟨ok, s₁⟩, h₁, h⟩ := bind_eq_ok.mp h
      cases ok with
      | false =>
          cases h
          exact ⟨0, s, Nat.succ_pos n, rfl, by rw [Nat.zero_mul, Nat.add_zero, h₁]⟩
      | true =>
          obtain ⟨k, t, hk, hloop, hturn⟩ := ih _ _ _ h
          refine ⟨k + 1, t, Nat.succ_lt_succ hk, ?_, ?_⟩
          · rw [uvmallocLoop_succ, h₁, ok_bind, if_pos rfl, hloop]
          · rw [← hturn, Nat.add_mul, Nat.one_mul, Nat.add_assoc, Nat.add_comm PGSIZE]

/-- A turn on the way of a loop that succeeds has succeeded. -/
theorem uvmallocLoop_turn {j k a : Nat} {t t' : Kernel} (hjk : j < k)
    (hj : uvmallocLoop p r base x j a s = .ok (true, t))
    (hk : uvmallocLoop p r base x k a s = .ok (true, t')) :
    ∃ t₁, uvmallocLoop p r base x 1 (a + j * PGSIZE) t = .ok (true, t₁) := by
  obtain ⟨i, rfl⟩ := Nat.exists_eq_add_of_lt hjk
  rw [Nat.add_assoc, uvmallocLoop_add j (i + 1) a s t hj, uvmallocLoop_succ] at hk
  obtain ⟨⟨ok, t₁⟩, h₁, hk⟩ := bind_eq_ok.mp hk
  cases ok with
  | false => cases hk
  | true => exact ⟨t₁, h₁⟩

end Split

/-- The turns that have succeeded keep the invariant and the frame table. -/
theorem uvmallocLoop_grown {x : Pte} (hperm : PermOk (PTE_R ||| PTE_U ||| x)) :
    ∀ (k v : Nat) (own : Nat → Owner) (lim : Nat → Nat) (s t : Kernel), Wf own lim s →
      own r = .root p → NoHeld own → NoNew own → lim r = v → b ≤ v → v + k ≤ UPAGES →
      Tracked own s.frameTable → uvmallocLoop p r (b * PGSIZE) x k (v * PGSIZE) s = .ok (true, t) →
      ∃ own', Wf own' (Function.update lim r (v + k)) t ∧
        Keeps (fun r' w => r' = r ∧ b ≤ w) own own' s t ∧ NoHeld own' ∧
        Tracked own' t.frameTable := by
  intro k
  induction k with
  | zero =>
      intro v own lim s t h _ hheld _ hlim _ _ ht hrun
      cases hrun
      refine ⟨own, ?_, (Keeps.refl own s).weaken fun _ _ hf => hf.elim, hheld, ht⟩
      rwa [Nat.add_zero, ← hlim, Function.update_eq_self]
  | succ k ih =>
      intro v own lim s t h hr hheld hnew hlim hb hle ht hrun
      obtain ⟨res, s₁, hk, -, hok⟩ := addPage_spec h (Or.inl hr) (by omega : v < UPAGES) hlim hheld
        (h.victimOk hheld hnew p) hperm
      simp only [uvmallocLoop, hk, ok_bind] at hrun
      cases res with
      | none =>
          obtain ⟨⟨y, s₂⟩, -, hrun⟩ := bind_eq_ok.mp hrun
          cases hrun
      | some pa =>
          obtain ⟨mapped, s₂, own₂, hm, htrue, -⟩ := hok pa rfl
          simp only [hm, ok_bind] at hrun
          cases mapped with
          | false =>
              simp only [Bool.false_eq_true, if_false] at hrun
              obtain ⟨s₃, -, hrun⟩ := bind_eq_ok.mp hrun
              obtain ⟨⟨y, s₄⟩, -, hrun⟩ := bind_eq_ok.mp hrun
              cases hrun
          | true =>
              have hadd := htrue rfl
              rw [if_pos rfl, show v * PGSIZE + PGSIZE = (v + 1) * PGSIZE from
                (Nat.succ_mul ..).symm] at hrun
              obtain ⟨own', hwf, hkeeps, hheld', ht'⟩ := ih (v + 1) own₂
                (Function.update lim r (v + 1)) s₂ t hadd.wf ((hadd.keeps.roots p r).1.mpr hr)
                hadd.noHeld (hnew.of_roots hadd.keeps.roots) (Function.update_self ..) (by omega)
                (by omega) (hadd.keeps.tracked hadd.nulls hadd.fulls ht) hrun
              rw [Function.update_idem, Nat.add_right_comm, Nat.add_assoc] at hwf
              refine ⟨own', hwf, hadd.keeps.trans hkeeps fun r' w hw => ?_, hheld', ht'⟩
              rcases hw with ⟨rfl, rfl⟩ | hw
              · exact ⟨rfl, hb⟩
              · exact hw

/-! ### `growproc` -/

/-- A turn of the loop of `uvmalloc`, as `growproc` calls it, comes to a state in which an entry goes
wrong, when the turns before it have succeeded. -/
def GrowsWrong (s : Kernel) (p : ProcId) (r : Nat) (n : Int) : Prop :=
  addInt (s.procs p).sz n ≤ TRAPFRAME ∧ ∃ k t,
    npages (s.procs p).sz + k < npages (addInt (s.procs p).sz n) ∧
    uvmallocLoop p r (npages (s.procs p).sz * PGSIZE) PTE_W k (npages (s.procs p).sz * PGSIZE) s =
      .ok (true, t) ∧
    (Stuck t p (npages (s.procs p).sz) (npages (s.procs p).sz + k) ∨
      Short t r ((npages (s.procs p).sz + k) * PGSIZE))

/-- The loop fails, and leaves the frame table as it should unless it has come to such a state. -/
theorem uvmallocLoop_kept {m : Nat} {x : Pte} (hperm : PermOk (PTE_R ||| PTE_U ||| x))
    (h : Settled own lim s) (ht : Tracked own s.frameTable) (hr : own r = .root p) (hlim : lim r = b)
    (hm : b + m ≤ UPAGES)
    (hloop : uvmallocLoop p r (b * PGSIZE) x m (b * PGSIZE) s = .ok (false, s')) :
    FramesKept s' ↔ ¬ ∃ k t, k < m ∧
      uvmallocLoop p r (b * PGSIZE) x k (b * PGSIZE) s = .ok (true, t) ∧
      (Stuck t p b (b + k) ∨ Short t r ((b + k) * PGSIZE)) := by
  -- what the invariant says before turn `k`
  have hat : ∀ k t, k < m → uvmallocLoop p r (b * PGSIZE) x k (b * PGSIZE) s = .ok (true, t) →
      ∃ own₁, Wf own₁ (Function.update lim r (b + k)) t ∧
        Keeps (fun r' w => r' = r ∧ b ≤ w) own own₁ s t ∧ NoHeld own₁ ∧ own₁ r = .root p ∧
        NoNew own₁ ∧ Tracked own₁ t.frameTable := by
    intro k t hk hrun
    obtain ⟨own₁, hwf₁, hk₁, hheld₁, ht₁⟩ := uvmallocLoop_grown hperm k b own lim s t h.wf hr h.noHeld
      h.noNew hlim le_rfl (by omega) ht hrun
    exact ⟨own₁, hwf₁, hk₁, hheld₁, (hk₁.roots p r).1.mpr hr, h.noNew.of_roots hk₁.roots, ht₁⟩
  obtain ⟨k, t, hk, hprefix, hturn⟩ := uvmallocLoop_failed _ _ _ _ hloop
  obtain ⟨own₁, hwf₁, hk₁, hheld₁, hr₁, hnew₁, ht₁⟩ := hat k t hk hprefix
  -- only the last turn can have come to such a state
  have honly : (∃ j t', j < m ∧ uvmallocLoop p r (b * PGSIZE) x j (b * PGSIZE) s = .ok (true, t') ∧
      (Stuck t' p b (b + j) ∨ Short t' r ((b + j) * PGSIZE))) ↔
      Stuck t p b (b + k) ∨ Short t r ((b + k) * PGSIZE) := by
    refine ⟨?_, fun hbad => ⟨k, t, hk, hprefix, hbad⟩⟩
    rintro ⟨j, t', hj, hprefix', hbad⟩
    rcases lt_trichotomy j k with hjk | rfl | hkj
    · obtain ⟨t₁, h₁⟩ := uvmallocLoop_turn hjk hprefix' hprefix
      obtain ⟨own₂, hwf₂, -, hheld₂, hr₂, hnew₂, -⟩ := hat j t' hj hprefix'
      rw [← Nat.add_mul] at h₁
      exact absurd h₁ (turn_fails hperm hwf₂ hr₂ hheld₂ hnew₂ (Function.update_self ..) (by omega) hbad)
    · cases hprefix.symm.trans hprefix'
      exact hbad
    · obtain ⟨t₁, h₁⟩ := uvmallocLoop_turn hkj hprefix hprefix'
      cases h₁.symm.trans hturn
  rw [honly]
  rw [← Nat.add_mul] at hturn
  rcases turn_failed hperm hwf₁ hr₁ hheld₁ hnew₁ (Function.update_self ..) (by omega) (by omega) ht₁
    hturn with ⟨hshort, i, hi, hfree⟩ | ⟨hshort, own₂, hback, hiff⟩
  · exact iff_of_false (fun hk => hk.alive i hi hfree) fun hnot => hnot (Or.inr hshort)
  · have hwf₂ := hback.wf
    rw [Function.update_idem, ← hlim, Function.update_eq_self] at hwf₂
    have hkeeps : Keeps (fun r' w => r' = r ∧ b ≤ w) own own₂ s s' :=
      hk₁.trans hback.keeps fun _ _ hw => hw.elim id id
    rw [framesKept_iff (h.of_keeps hwf₂ hkeeps hback.noHeld), hiff, not_or]
    exact (and_iff_left hshort).symm

theorem uvmalloc_eq {oldsz newsz : Nat} (hlt : oldsz < newsz) (hle : newsz ≤ TRAPFRAME) (x : Pte) :
    uvmalloc s p r oldsz newsz x = uvmallocLoop p r (npages oldsz * PGSIZE) x
      (npages newsz - npages oldsz) (npages oldsz * PGSIZE) s >>= fun y =>
        .ok (if y.1 then newsz else 0, y.2) := by
  have hcount : (newsz - npages oldsz * PGSIZE + (PGSIZE - 1)) / PGSIZE =
      npages newsz - npages oldsz := by
    simp only [npages, PGSIZE]
    omega
  rw [← hcount, uvmalloc, if_neg (by omega), pgRoundUp_eq (by omega)]
  rfl

/-- **A failed `growproc`.** -/
theorem growproc_failed {n : Int} (h : Settled own lim s) (ht : Tracked own s.frameTable)
    (hr : own r = .root p) (hhi : n < 2 ^ 31) (hrun : growproc s p r n = .ok (false, s')) :
    FramesKept s' ↔ ¬ GrowsWrong s p r n := by
  have hszlt := h.sz_lt p
  have hpos : n > 0 := by
    by_contra hle
    simp only [growproc, if_neg hle] at hrun
    split at hrun
    · obtain ⟨y, -, hrun⟩ := bind_eq_ok.mp hrun
      cases hrun
    · cases hrun
  simp only [growproc, if_pos hpos] at hrun
  split at hrun
  · next hbig =>
      cases hrun
      exact iff_of_true ((framesKept_iff h).mpr ht) fun hw => Nat.not_le.mpr hbig hw.1
  · next hbig =>
      have hle : addInt (s.procs p).sz n ≤ TRAPFRAME := Nat.not_lt.mp hbig
      have hlt : (s.procs p).sz < addInt (s.procs p).sz n := by
        rw [addInt_eq (by omega) (by omega)]
        omega
      have hmax := npages_le hle
      have hmono : npages (s.procs p).sz ≤ npages (addInt (s.procs p).sz n) := npages_mono hlt.le
      obtain ⟨⟨res, s₁⟩, h₁, hrun⟩ := bind_eq_ok.mp hrun
      rw [uvmalloc_eq hlt hle] at h₁
      obtain ⟨⟨done, s₂⟩, hloop, h₁⟩ := bind_eq_ok.mp h₁
      cases h₁
      cases done with
      | true =>
          rw [if_pos rfl, if_neg (by omega)] at hrun
          cases hrun
      | false =>
          cases hrun
          rw [uvmallocLoop_kept permOk_grow h ht hr (h.sized p r hr) (by omega) hloop]
          refine not_congr ⟨?_, ?_⟩
          · rintro ⟨k, t, hk, hw⟩
            exact ⟨hle, k, t, by omega, hw⟩
          · rintro ⟨-, k, t, hk, hw⟩
            exact ⟨k, t, by omega, hw⟩

/-! ### `vmfault` -/

/-- A fault at `va` comes to `kalloc_user` when no entry and no slot is free. -/
def FaultsWrong (s : Kernel) (p : ProcId) (r va : Nat) : Prop :=
  pgRoundDown va < (s.procs p).sz ∧ tablesMissing s r (pgRoundDown va) ≤ s.freelist.length ∧
    (s.pte r (va / PGSIZE)).has PTE_V = false ∧ freeFrame s.frameTable = none ∧ freeSlot s = none

/-- A fault that finds its entry fails only where `kalloc_user` does. -/
theorem serveFault_failed (h : Wf own lim s) (hr : own r = .root p) (hheld : NoHeld own)
    (hnew : NoNew own) (hv : v < lim r) (hrun : serveFault s p r v = .ok (0, s')) :
    (s.pte r v).has PTE_V = false ∧ kallocUser s p (v * PGSIZE) = .ok (none, s') := by
  have htab := h.pages.table r ⟨p, Or.inl hr⟩
  have hvu : v < UPAGES := hv.trans_le htab.lim_le
  obtain ⟨res, s₁, hk, -, hok⟩ := kallocUser_spec h (page_mod v) (h.victimOk hheld hnew p)
  have hpos : ∀ pa, own pa ≠ .kernel → pa ≠ 0 := by
    intro pa hpa
    have := (h.pages.range pa hpa).2.1
    have := h.kend_pos
    omega
  cases hsw : (s.pte r v).has PTE_SWAPPED with
  | true =>
      refine ⟨(htab.swapped_of hvu hsw).not_valid, ?_⟩
      simp only [serveFault, if_pos hsw, hk, ok_bind] at hrun
      cases res with
      | none =>
          cases hrun
          exact hk
      | some pa =>
          obtain ⟨s₂, -, hrun⟩ := bind_eq_ok.mp hrun
          exact absurd (Prod.mk.inj (Except.ok.inj hrun)).1 (hpos pa (hok pa rfl).own_ne_kernel)
  | false =>
      cases hval : (s.pte r v).has PTE_V with
      | false =>
          refine ⟨rfl, ?_⟩
          simp only [serveFault, hsw, hval, Bool.false_eq_true, if_false, Bool.not_false, if_true, hk,
            ok_bind] at hrun
          cases res with
          | none =>
              cases hrun
              exact hk
          | some pa =>
              exact absurd (Prod.mk.inj (Except.ok.inj hrun)).1 (hpos pa (hok pa rfl).own_ne_kernel)
      | true =>
          have hres := htab.resident_of hvu hval
          have huser := h.pages.own_user ⟨p, Or.inl hr⟩ hvu hres
          have hne := hpos _ (by rw [huser]; simp)
          simp only [serveFault, hsw, hval, Bool.false_eq_true, if_false, Bool.not_true] at hrun
          split at hrun
          · exact absurd (Prod.mk.inj (Except.ok.inj hrun)).1 hne
          · exact absurd (Prod.mk.inj (Except.ok.inj hrun)).1 hne

/-- A failure of `kalloc_user` alone, when nothing has been added. -/
theorem AllocFailed.backed_self {s₁ : Kernel} (hf : AllocFailed own lim s s₁) (hheld : NoHeld own)
    (r : Nat) : Backed own own lim s s₁ r (lim r) (lim r) := by
  refine ⟨?_, hf.keeps.weaken fun _ _ hn => hn.elim, hheld, fun _ => Or.inl rfl, fun x r' w hx =>
    ⟨hx, fun hw => by omega⟩⟩
  rw [Function.update_eq_self]
  exact hf.wf

/-- **A failed `vmfault`.** -/
theorem vmfault_failed (h : Settled own lim s) (ht : Tracked own s.frameTable) (hr : own r = .root p)
    (hrun : vmfault s p r va = .ok (0, s')) : FramesKept s' ↔ ¬ FaultsWrong s p r va := by
  rw [vmfault_eq] at hrun
  split at hrun
  · next hge =>
      cases hrun
      exact iff_of_true ((framesKept_iff h).mpr ht) fun hw => Nat.not_lt.mpr hge hw.1
  · next hlt =>
      have htab : IsTable own r := ⟨p, Or.inl hr⟩
      have hsz : pgRoundDown va < (s.procs p).sz := Nat.not_le.mp hlt
      have hmax : va / PGSIZE * PGSIZE < MAXVA := by
        have := h.sz_lt p
        simp only [pgRoundDown, MAXVA] at *
        omega
      have hv : va / PGSIZE < lim r := by
        rw [h.sized p r hr, ← page_div (va / PGSIZE)]
        exact div_lt_npages hsz
      obtain ⟨found, s₁, own₁, hw, hwf₁, hk₁, hyes, hno⟩ := walkAlloc_spec h.wf htab hmax
      have hnulls : s.nullAllocs ≤ s₁.nullAllocs := by
        cases found with
        | true => exact (hyes rfl).1.ge
        | false => exact (hno rfl).symm ▸ Nat.le_succ _
      obtain ⟨s₂, hw', -⟩ := walkAlloc_found (h.wf.pages.table r htab) hmax
      cases hw.symm.trans hw'
      rw [hw, ok_bind] at hrun
      have hext := hk₁.extends
      have hset₁ : Settled own₁ lim s₁ := h.of_keeps hwf₁ (hk₁.keeps h.wf hnulls) (hk₁.noHeld h.noHeld)
      have ht₁ : Tracked own₁ s₁.frameTable := hext.tracked ht
      by_cases hmiss : tablesMissing s r (va / PGSIZE * PGSIZE) ≤ s.freelist.length
      · simp only [hmiss, decide_true, Bool.not_true, Bool.false_eq_true, if_false] at hrun
        obtain ⟨hval, hk⟩ := serveFault_failed hwf₁ ((hk₁.roots p r).1.mpr hr) hset₁.noHeld hset₁.noNew
          hv hrun
        have hvict := hwf₁.victimOk hset₁.noHeld hset₁.noNew p
        obtain ⟨res, s₃, hk', hfail, -⟩ := kallocUser_spec hwf₁ (page_mod (va / PGSIZE)) hvict
        cases hk.symm.trans hk'
        have hf := hfail rfl
        have hback := hf.backed_self hset₁.noHeld r
        rw [hk₁.pte] at hval
        have hwrong : FaultsWrong s p r va ↔ freeFrame s₁.frameTable = none ∧ freeSlot s₁ = none := by
          rw [freeSlot, hk₁.frameTable, hk₁.swapSpace]
          exact ⟨fun hw => hw.2.2.2, fun hw => ⟨hsz, hmiss, hval, hw⟩⟩
        rw [framesKept_iff (hset₁.of_keeps hf.wf hf.keeps hset₁.noHeld), hwrong]
        rcases kallocUser_cases hwf₁ hvict hk with ⟨-, hff, hnil, hsame⟩ |
          ⟨-, hff, hfs, i, ft, hand, f, hpick, hsame, hf, hft⟩ | ⟨hn, -⟩ | ⟨hn, -⟩
        · exact iff_of_true (hback.tracked_null (.refl _ _) hsame ht₁) fun hs => hff hs.1
        · rw [hback.tracked_full hwf₁ ((hk₁.roots p r).1.mpr hr) hset₁.noHeld (.refl _ _) hff hfs hpick
            hsame hf hft hset₁.noNew ht₁]
          exact not_congr ⟨fun hs => ⟨hs.1, hs.2.1⟩, fun hs => ⟨hs.1, hs.2, fun _ _ _ _ hin => by omega⟩⟩
        · exact absurd rfl hn
        · exact absurd rfl hn
      · simp only [hmiss, decide_false, Bool.not_false, if_true] at hrun
        cases hrun
        exact iff_of_true ((framesKept_iff hset₁).mpr ht₁) fun hw => hmiss hw.2.1

/-- **A failed allocation keeps the frame table** just when it does not come to a state in which an
entry goes wrong. -/
theorem failed_allocation (h : Coherent s) (hex : FrameTableExact s)
    (hpt : (s.procs p).pagetable = some r) :
    (∀ va s', vmfault s p r va = .ok (0, s') → (FramesKept s' ↔ ¬ FaultsWrong s p r va)) ∧
      ∀ (n : Int32) s', growproc s p r n.toInt = .ok (false, s') →
        (FramesKept s' ↔ ¬ GrowsWrong s p r n.toInt) := by
  obtain ⟨own, lim, h⟩ := h
  have ht := (frameTableExact_iff h).mp hex
  have hr := h.wf.pages.own_root hpt
  exact ⟨fun va s' hrun => vmfault_failed h ht hr hrun,
    fun n s' hrun => growproc_failed h ht hr (Int32.toInt_lt n) hrun⟩

/-! ### Kernels with few pages -/

/-- A kernel that has booted, with `n` pages left. -/
def scarceKernel (n : Nat) : Kernel :=
  { loadedKernel 0x80050000 0x80007000 (fun _ => zeroPage) with
    freelist := (List.range n).map fun i => 0x80100000 + PGSIZE * i }

/-- The same with its first process, which has taken four of them. -/
def scarceFirst (n : Nat) : Kernel := (userinit (scarceKernel n)).toOption.getD (scarceKernel n)

def scarceRoot (n : Nat) : Nat := (((scarceFirst n).procs firstProc).pagetable).getD 0

theorem scarceFirst_exact {n : Nat} (hf : Fresh (scarceKernel n))
    (hrun : (userinit (scarceKernel n)).toOption.isSome = true) :
    Coherent (scarceFirst n) ∧ FrameTableExact (scarceFirst n) := by
  obtain ⟨own, lim, h, ht⟩ := userinit_listed hf.listed (eq_ok_getD (scarceKernel n) hrun)
  exact ⟨⟨own, lim, h⟩, (frameTableExact_iff h).mpr ht⟩

theorem scarceKernel_fresh {n : Nat} (hrange : ∀ pa ∈ (scarceKernel n).freelist,
    pa % PGSIZE = 0 ∧ (scarceKernel n).kend ≤ pa ∧ pa < PHYSTOP)
    (hnodup : (scarceKernel n).freelist.Nodup) : Fresh (scarceKernel n) :=
  ⟨hrange, hnodup, fun _ => ⟨rfl, rfl, rfl, rfl⟩, fun _ => rfl, fun _ _ => rfl,
    show 0 < 0x80050000 by decide⟩

/-- With no page left, nothing has been claimed when `growproc` fails. -/
theorem failed_allocation_null : ∃ s', Coherent (scarceFirst 4) ∧ FrameTableExact (scarceFirst 4) ∧
    ((scarceFirst 4).procs firstProc).pagetable = some (scarceRoot 4) ∧
    growproc (scarceFirst 4) firstProc (scarceRoot 4) (4096 : Int32).toInt = .ok (false, s') ∧
    ¬ GrowsWrong (scarceFirst 4) firstProc (scarceRoot 4) (4096 : Int32).toInt ∧ FramesKept s' := by
  obtain ⟨hcoh, hex⟩ := scarceFirst_exact (n := 4)
    (scarceKernel_fresh (by decide) (by decide)) (by decide +kernel)
  have hpt : ((scarceFirst 4).procs firstProc).pagetable = some (scarceRoot 4) := by decide +kernel
  have hsome : (growproc (scarceFirst 4) firstProc (scarceRoot 4) (4096 : Int32).toInt).toOption.map
      Prod.fst = some false := by decide +kernel
  obtain ⟨⟨done, s'⟩, hrun, rfl⟩ := Option.map_eq_some_iff.mp hsome
  have hrun := eq_ok_of_toOption hrun
  have hnot : ¬ GrowsWrong (scarceFirst 4) firstProc (scarceRoot 4) (4096 : Int32).toInt := by
    rintro ⟨-, k, t, hk, hloop, hbad⟩
    have hk0 : k = 0 := by
      have : npages (addInt ((scarceFirst 4).procs firstProc).sz (4096 : Int32).toInt) = 1 := by
        decide +kernel
      omega
    subst hk0
    cases hloop
    rcases hbad with ⟨hff, -⟩ | ⟨-, hne, -⟩ | ⟨hff, -⟩
    · exact absurd hff (by decide +kernel)
    · exact hne (by decide +kernel)
    · exact absurd hff (by decide +kernel)
  exact ⟨s', hcoh, hex, hpt, hrun, hnot, ((failed_allocation hcoh hex hpt).2 4096 s' hrun).mpr hnot⟩

/-- With one page left there is none for the page table: `growproc` frees the page that it cannot
map, and the frame table still names it. -/
theorem growproc_leaves_stale_entry : ∃ s', Coherent (scarceFirst 5) ∧
    FrameTableExact (scarceFirst 5) ∧
    ((scarceFirst 5).procs firstProc).pagetable = some (scarceRoot 5) ∧
    growproc (scarceFirst 5) firstProc (scarceRoot 5) (4096 : Int32).toInt = .ok (false, s') ∧
    ¬ FramesKept s' := by
  obtain ⟨hcoh, hex⟩ := scarceFirst_exact (n := 5)
    (scarceKernel_fresh (by decide) (by decide)) (by decide +kernel)
  have hpt : ((scarceFirst 5).procs firstProc).pagetable = some (scarceRoot 5) := by decide +kernel
  have hsome : (growproc (scarceFirst 5) firstProc (scarceRoot 5) (4096 : Int32).toInt).toOption.map
      (fun x => (x.1, (List.finRange MAX_FRAMES).any fun i => (x.2.frameTable i).used &&
        decide ((x.2.frameTable i).pa ∈ x.2.freelist))) = some (false, true) := by decide +kernel
  obtain ⟨⟨done, s'⟩, hrun, hx⟩ := Option.map_eq_some_iff.mp hsome
  simp only [Prod.mk.injEq, List.any_eq_true, Bool.and_eq_true, decide_eq_true_eq] at hx
  obtain ⟨rfl, i, -, hi, hfree⟩ := hx
  exact ⟨s', hcoh, hex, hpt, eq_ok_of_toOption hrun, fun hk => hk.alive i hi hfree⟩

end Xv6.Vm
