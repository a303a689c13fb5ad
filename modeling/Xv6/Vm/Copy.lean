import Xv6.Vm.Spawn

/-!
# Vm — Copy

`uvmcopy`: the pages of one process are copied to another.

* `uvmcopyPage_spec`: one page is copied as it is, unless its physical page is evicted by the very
  allocation that is to hold the copy.
* `uvmcopyLoop_spec`: by induction on the pages left; only the first resident page can be evicted
  so, since from then on the new process has a frame.
-/

namespace Xv6.Vm
open Xv6.Lib
open Xv6.Raid (Page zeroPage PGSIZE BLOCKS_PER_PAGE MAX_SWAP Healthy)

variable {own own' : Nat → Owner} {lim : Nat → Nat} {s s' : Kernel} {p q np : ProcId}
  {r v pa va : Nat}

/-! ### One page -/

theorem pteFlags_perm (e : Pte) : (pteFlags e).perm = e.perm := by
  refine perm_congr fun i h₁ h₄ => ?_
  rw [pteFlags, BitVec.getLsbD_and, getLsbD_flagMask]
  simp [show i < 10 by omega]

/-- What `kalloc` leaves in a page. -/
def junkPage : Page := fun _ => 5

/-- An allocation for `np` would evict page `v` of table `old`. -/
def Clobbers (s : Kernel) (np : ProcId) (old v : Nat) : Prop :=
  freeFrame s.frameTable = none ∧ ∃ i ft hand,
    clockPickVictim s.frameTable s.clockHand np = .ok (i, ft, hand) ∧
    (s.frameTable i).pa = pte2Pa (s.pte old v)

/-- The page returned is the one to be copied just when that page is evicted. -/
theorem Allocated.eq_iff_clobbers {s₁ : Kernel} (hal : Allocated own lim s s₁ np va pa)
    (hwf : Wf own lim s) (hr : IsTable own r) (hv : v < UPAGES)
    (hres : Resident (s.pte r v) (pte2Pa (s.pte r v))) :
    pa = pte2Pa (s.pte r v) ↔ Clobbers s np r v := by
  obtain ⟨i, ft, hand, hclaim, -, -, -, ⟨hnone, hpa⟩ | ⟨hsome, hfree⟩⟩ := hal.claim
  · rw [frameClaim, hnone] at hclaim
    have hpick : clockPickVictim s.frameTable s.clockHand np = .ok (i, ft, hand) := hclaim
    refine ⟨fun he => ⟨hnone, i, ft, hand, hpick, hpa ▸ he⟩, ?_⟩
    rintro ⟨-, j, ft', hand', hpick', hj⟩
    rw [hpick] at hpick'
    cases hpick'
    exact hpa.trans hj
  · refine iff_of_false (fun he => ?_) fun hc => hsome hc.1
    have := hwf.pages.own_user hr hv hres
    rw [← he, hfree] at this
    cases this

/-- Page `v` of table `old` has been copied to table `new`. -/
structure PageCopied (own own' : Nat → Owner) (lim : Nat → Nat) (s s' : Kernel) (np : ProcId)
    (old new v : Nat) : Prop where
  wf : Wf own' (Function.update lim new (v + 1)) s'
  keeps : Keeps (onePage new v) own own' s s'
  noHeld : NoHeld own'
  nulls : s'.nullAllocs = s.nullAllocs
  fulls : s'.swapFulls = s.swapFulls
  perm : (flat s' new v).2 = (flat s old v).2
  absent : (s.pte old v).has PTE_V = false → (flat s' new v).1 = (flat s old v).1 ∧
    s'.frameTable = s.frameTable ∧ s'.clockHand = s.clockHand ∧ ∀ w, s'.pte old w = s.pte old w
  resident : (s.pte old v).has PTE_V = true → HasFrame s'.frameTable np ∧
    (Clobbers s np old v → (flat s' new v).1 = junkPage) ∧
    (¬ Clobbers s np old v → (flat s' new v).1 = (flat s old v).1)

/-- The copy of page `v` of table `old` has failed.  A frame is left without its page only when the
page was in memory and `kalloc` returned 0. -/
structure CopyFailed (own own' : Nat → Owner) (lim : Nat → Nat) (s s' : Kernel) (old v : Nat) :
    Prop where
  failed : s.nullAllocs < s'.nullAllocs ∨ s.swapFulls < s'.swapFulls
  kept : (s.pte old v).has PTE_V = false ∨ s'.nullAllocs = s.nullAllocs →
    Wf own' lim s' ∧ Keeps noPage own own' s s' ∧ NoHeld own'

/-- A slot has been taken for the copy of a page that is swapped out. -/
def withCopy (s : Kernel) (slot va : Nat) (raid : Raid.State) : Kernel :=
  { s with
    swapSpace := Function.update s.swapSpace slot
      { used := true, proc := none, va := va, diskBlock := slot * BLOCKS_PER_PAGE },
    raid := raid }

theorem Wf.withCopy {slot : Nat} {raid : Raid.State} (h : Wf own lim s)
    (hfree : (s.swapSpace slot).used = false) (hraid : Healthy raid) (va : Nat) :
    Wf own lim (withCopy s slot va raid) := by
  refine ⟨h.pages.congr ⟨rfl, rfl, rfl, rfl, fun _ => rfl⟩ rfl rfl, h.frames,
    h.slots.restrict (fun _ hr => hr) (fun _ _ _ hq => hq) (fun _ _ _ _ => rfl)
      fun r w n hr hw hn => Function.update_of_ne ?_ .., hraid, h.kend_pos⟩
  rintro rfl
  exact h.slots.fresh hfree r w hr hw hn

/-- A slot that no entry names is entered as page `v` of table `r`, which had no entry. -/
theorem Wf.enterSlot {e : Pte} {slot : Nat} (h : Wf own lim s) (hv : v < UPAGES) (hn : v < lim r) (hzero : s.pte r v = 0) (hl0 : HasL0 s r v)
    (he : Swapped e slot)
    (hfresh : ∀ r v, IsTable own r → v < UPAGES → ¬ Swapped (s.pte r v) slot)
    (hok : SlotOk own (s.swapSpace slot) r slot) :
    Wf own lim (setPte s r v e) ∧ Keeps (onePage r v) own own s (setPte s r v e) ∧
      flat (setPte s r v e) r v = (slotPage s.raid slot, e.perm) := by
  have hpte : (setPte s r v e).pte r v = e := by rw [pte_setPte, if_pos ⟨rfl, rfl⟩]
  refine ⟨⟨?_, h.frames, ?_, h.raid, h.kend_pos⟩, ⟨⟨rfl, rfl, rfl, rfl, fun _ => rfl⟩, .refl own,
    fun _ => Iff.rfl, fun r' v' hr' hv' hne => ?_, le_rfl, le_rfl, fun _ _ ht => ht⟩, ?_⟩
  · exact h.pages.entry hv ⟨rfl, rfl, rfl, rfl, fun _ => rfl⟩ rfl (fun _ hx => hx.not_zero hzero)
      (fun _ hx => hx.not_Swapped he) (Or.inr (Or.inr ⟨slot, he⟩)) (fun _ => hn) (fun _ => hl0) rfl
  · exact h.slots.swap (Shift.refl own) rfl he hfresh hok fun _ _ => rfl
  · refine flat_congr ?_ (fun _ _ => rfl) (fun _ _ => rfl) (h.pages.userEntry hr' hv')
    rw [pte_setPte, if_neg hne]
  · rw [flat_swapped (hpte ▸ he), hpte]
    rfl

/-- What `uvmcopy` does with the page it has allocated for page `v` with entry `e`. -/
def copyInto (e : Pte) (new v : Nat) : Option Nat × Kernel → Except String (Bool × Kernel)
  | (none, s) => .ok (false, s)
  | (some mem, s) => do
    let (mapped, s) ← mappages (setPage s mem (s.mem (pte2Pa e))) new (v * PGSIZE) PGSIZE mem
      (pteFlags e)
    if mapped then return (true, s)
    else
      let s ← kfree s mem
      return (false, s)

section Page

variable {old new : Nat} (h : Wf own lim s) (hheld : NoHeld own) (hold : own old = .root p)
  (hnew : own new = .root np) (hne : old ≠ new) (hv : v < UPAGES) (hlim : lim new = v)

include h hheld hold hnew hv hlim

omit hold in
theorem pageCopied_zero (hzero : s.pte old v = 0) : PageCopied own own lim s s np old new v := by
  have htab : IsTable own new := ⟨np, Or.inl hnew⟩
  have hznew : s.pte new v = 0 := h.pte_above htab hlim.le hv
  refine ⟨h.setLim hv fun w hw hu => h.pte_above htab (by omega) hu,
    (Keeps.refl own s).weaken fun _ _ hf => hf.elim, hheld, rfl, rfl, ?_, fun _ => ⟨?_, rfl, rfl,
    fun _ => rfl⟩, fun hval => ?_⟩
  · rw [flat_zero hznew, flat_zero hzero]
  · rw [flat_zero hznew, flat_zero hzero]
  · rw [hzero] at hval
    cases hval

include hne

theorem copyPage_swapped {slot : Nat} (hsw : Swapped (s.pte old v) slot)
    (hwalk : walk s old (v * PGSIZE) = .ok (some (s.pte old v))) :
    ∃ ok s' own', uvmcopyPage s old new np v = .ok (ok, s') ∧
      (ok = true → PageCopied own own' lim s s' np old new v) ∧
      (ok = false → CopyFailed own own' lim s s' old v) := by
  have htabo : IsTable own old := ⟨p, Or.inl hold⟩
  have htab : IsTable own new := ⟨np, Or.inl hnew⟩
  have hok := h.slots.ok old v slot htabo hv hsw
  cases hfs : freeSlot s with
  | none =>
      refine ⟨false, { s with swapFulls := s.swapFulls + 1 }, own, ?_, fun hf => (by cases hf),
        fun _ => ⟨Or.inr (Nat.lt_succ_self _), fun _ => ⟨?_, ?_, hheld⟩⟩⟩
      · unfold freeSlot at hfs
        simp only [uvmcopyPage, hwalk, ok_bind, hsw.swapped, if_true, swapAlloc, hfs]
        rfl
      · exact h.congr ⟨rfl, rfl, rfl, rfl, fun _ => rfl⟩ rfl rfl rfl
          (fun i hi => ⟨hi, rfl, rfl, rfl⟩) h.raid
      · exact ⟨⟨rfl, rfl, rfl, rfl, fun _ => rfl⟩, .refl own, fun _ => Iff.rfl,
          fun _ _ _ _ _ => rfl, le_rfl, Nat.le_succ _, fun _ hf _ => absurd hf (Nat.succ_ne_self _)⟩
  | some newslot =>
      obtain ⟨hnlt, hnfree⟩ := freeSlot_some hfs
      have hns : slot ≠ newslot := by
        rintro rfl
        cases hnfree.symm.trans hok.used
      obtain ⟨raid, hcopy, hhealthy, hpage⟩ := raidCopy_slot h.raid hnlt hok.lt
      -- the slot and its blocks
      let s₁ := withCopy s newslot (v * PGSIZE) raid
      have hnamed : ∀ r w n, IsTable own r → w < UPAGES → Swapped (s.pte r w) n → n ≠ newslot := by
        rintro r w n hr hw hn rfl
        exact h.slots.fresh hnfree r w hr hw hn
      have hwf₁ : Wf own lim s₁ := h.withCopy hnfree hhealthy (v * PGSIZE)
      have hk₁ : Keeps noPage own own s s₁ := by
        refine ⟨⟨rfl, rfl, rfl, rfl, fun _ => rfl⟩, .refl own, fun _ => Iff.rfl,
          fun r w hr hw _ => ?_, le_rfl, le_rfl, fun _ _ ht => ht⟩
        refine flat_congr rfl (fun _ _ => rfl) (fun n hn => ?_) (h.pages.userEntry hr hw)
        exact (hpage n (h.slots.ok r w n hr hw hn).lt).trans (if_neg (hnamed r w n hr hw hn))
      have hlt : v * PGSIZE < MAXVA := by
        simp only [UPAGES, TRAPFRAME, TRAMPOLINE, MAXVA, PGSIZE] at *
        omega
      obtain ⟨found, s₂, own₂, hw₂, hwf₂, hk₂, hfound, hnot⟩ := walkAlloc_spec hwf₁ htab hlt
      have hrun : ∀ b, found = b → uvmcopyPage s old new np v = if b then
          .ok (true, setPte s₂ new v (swapCopyPte newslot (s₂.pte old v))) else .ok (false, s₂) := by
        rintro b rfl
        have hblk : (s₁.swapSpace slot).diskBlock = slot * BLOCKS_PER_PAGE := by
          simp only [s₁, withCopy, Function.update_of_ne hns]
          exact hok.block
        simp only [s₁, withCopy] at hblk
        simp only [uvmcopyPage, hwalk, ok_bind, hsw.swapped, if_true, swapAlloc_some hfs,
          SWAP_START_BLOCK, Nat.zero_add, hsw.slot_eq, setSlot, Function.update_idem, hblk, hcopy]
        change (walkAlloc s₁ new (v * PGSIZE) >>= _) = _
        rw [hw₂, ok_bind]
        cases found <;> rfl
      cases found with
      | false =>
          have hlt : s₁.nullAllocs < s₂.nullAllocs := by
            rw [hnot rfl]
            exact Nat.lt_succ_self _
          refine ⟨false, s₂, own₂, hrun false rfl, fun hf => (by cases hf), fun _ => ⟨Or.inl hlt,
            fun _ => ⟨hwf₂, ?_, hk₂.extends.noHeld hheld⟩⟩⟩
          exact hk₁.trans (hk₂.keeps hwf₁ hlt.le) fun _ _ ht => ht.elim id id
      | true =>
          obtain ⟨hnull, hl0⟩ := hfound rfl
          refine ⟨true, _, own₂, hrun true rfl, fun _ => ?_, fun hf => (by cases hf)⟩
          rw [page_div] at hl0
          have htab₂ : IsTable own₂ new := (hk₂.roots.isTable new).mpr htab
          have hpte₂ : ∀ r w, s₂.pte r w = s.pte r w := hk₂.pte
          have hzero : s₂.pte new v = 0 := (hpte₂ new v).trans (h.pte_above htab hlim.le hv)
          have hwf₂' : Wf own₂ (Function.update lim new (v + 1)) s₂ :=
            hwf₂.setLim hv fun w hw hu => hwf₂.pte_above htab₂ (by omega) hu
          have hslot₂ : SlotOk own₂ (s₂.swapSpace newslot) new newslot := by
            rw [hk₂.swapSpace]
            simp only [s₁, withCopy, Function.update_self]
            exact ⟨hnlt, rfl, rfl, fun q hq => by cases hq⟩
          have hsw₂ : Swapped (swapCopyPte newslot (s₂.pte old v)) newslot :=
            swapCopyPte_swapped (by simp only [MAX_SWAP] at hnlt; omega) (hpte₂ old v ▸ hsw)
          obtain ⟨hwf₃, hk₃, hflat⟩ := hwf₂'.enterSlot hv (by rw [Function.update_self]; omega)
            hzero hl0 hsw₂ (fun r w hr hw hn => hnamed r w newslot ((hk₂.roots.isTable r).mp hr) hw
              (hpte₂ r w ▸ hn) rfl) hslot₂
          have hk₂' := hk₂.keeps hwf₁ hnull.ge
          have hpage' : slotPage s₂.raid newslot = slotPage s.raid slot := by
            rw [hk₂.raid]
            exact (hpage newslot hnlt).trans (if_pos rfl)
          refine ⟨hwf₃, (hk₁.trans hk₂' fun _ _ ht => ht.elim id id).trans hk₃
            fun _ _ ht => ht.resolve_left id, hk₂.extends.noHeld hheld, hnull, hk₂.swapFulls, ?_,
            fun _ => ⟨?_, hk₂.frameTable, hk₂.clockHand, fun w => ?_⟩, fun hval => ?_⟩
          · rw [hflat, flat_swapped hsw, swapCopyPte_perm, hpte₂]
          · rw [hflat, flat_swapped hsw, hpage']
          · rw [pte_setPte, if_neg fun hk => hne hk.1]
            exact hpte₂ old w
          · cases hval.symm.trans hsw.not_valid

omit hne in
theorem copyPage_resident (hnonew : NoNew own) (hval : (s.pte old v).has PTE_V = true)
    (hwalk : walk s old (v * PGSIZE) = .ok (some (s.pte old v))) :
    ∃ ok s' own', uvmcopyPage s old new np v = .ok (ok, s') ∧
      (ok = true → PageCopied own own' lim s s' np old new v) ∧
      (ok = false → CopyFailed own own' lim s s' old v) := by
  have htabo : IsTable own old := ⟨p, Or.inl hold⟩
  have hres : Resident (s.pte old v) (pte2Pa (s.pte old v)) :=
    (h.pages.table old htabo).resident_of hv hval
  have hflat : flat s old v = (s.mem (pte2Pa (s.pte old v)), (s.pte old v).perm) :=
    flat_resident hres
  obtain ⟨res, s₁, hk, hfail, hok⟩ := kallocUser_spec h (page_mod v) (h.victimOk hheld hnonew np)
  have hcopy : uvmcopyPage s old new np v =
      (kallocUser s np (v * PGSIZE) >>= copyInto (s.pte old v) new v) := by
    simp only [uvmcopyPage, hwalk, ok_bind]
    rw [if_neg (by simp [hres.not_swapped]), if_neg (by simp [hval])]
    rfl
  rw [hcopy, hk, ok_bind]
  cases res with
  | none =>
      have hf := hfail rfl
      exact ⟨false, s₁, own, rfl, fun hf => (by cases hf), fun _ => ⟨hf.failed,
        fun _ => ⟨hf.wf, hf.keeps, hheld⟩⟩⟩
  | some mem =>
      have hal := hok mem rfl
      obtain ⟨mapped, s₂, own₂, hm, htrue, hfalse⟩ := hal.mapPage (Or.inl hnew) hv hlim hheld
        (permOk_flags hres.not_swapped) (s₁.mem (pte2Pa (s.pte old v)))
      simp only [copyInto, hm, ok_bind]
      cases mapped with
      | false =>
          obtain ⟨hwf₂, hpa₂, -, hnull⟩ := hfalse rfl
          have hfree := kfree_eq (hwf₂.pages.range mem (by simp [hpa₂]))
          have hlt : s.nullAllocs < s₂.nullAllocs := by omega
          refine ⟨false, _, own₂, by rw [hfree]; rfl, fun hf => (by cases hf), fun _ => ⟨Or.inl ?_,
            fun hc => ?_⟩⟩
          · exact hlt
          · rcases hc with hc | hc
            · cases hval.symm.trans hc
            · exact absurd hc hlt.ne'
      | true =>
          obtain ⟨hadd, hft, -⟩ := htrue rfl
          have hiff := hal.eq_iff_clobbers h htabo hv hres
          refine ⟨true, s₂, own₂, rfl, fun _ => ⟨hadd.wf, hadd.keeps, hadd.noHeld, hadd.nulls,
            hadd.fulls, ?_, fun hnv => ?_, fun _ => ⟨?_, fun hc => ?_, fun hc => ?_⟩⟩,
            fun hf => (by cases hf)⟩
          · rw [hadd.flat, hflat, pteFlags_perm]
          · cases hval.symm.trans hnv
          · obtain ⟨i, ft, hand, -, -, hft₁, -⟩ := hal.claim
            refine ⟨i, ?_⟩
            rw [hft, hft₁, Function.update_self]
            exact ⟨rfl, rfl⟩
          · rw [hadd.flat, hal.mem, ← hiff.mpr hc, Function.update_self]
            rfl
          · rw [hadd.flat, hflat, hal.mem, Function.update_of_ne fun he => hc (hiff.mp he.symm)]

/-- **One turn of the loop of `uvmcopy`.** -/
theorem uvmcopyPage_spec (hnonew : NoNew own) :
    ∃ ok s' own', uvmcopyPage s old new np v = .ok (ok, s') ∧
      (ok = true → PageCopied own own' lim s s' np old new v) ∧
      (ok = false → CopyFailed own own' lim s s' old v) := by
  have htabo : IsTable own old := ⟨p, Or.inl hold⟩
  have htab := h.pages.table old htabo
  have hlt : v * PGSIZE < MAXVA := by
    simp only [UPAGES, TRAPFRAME, TRAMPOLINE, MAXVA, PGSIZE] at *
    omega
  rcases walk_eq htab hlt with hw | ⟨hw, h0⟩
  · rw [page_div] at hw
    rcases h.pages.userEntry htabo hv with h0 | ⟨pa, hres⟩ | ⟨slot, hsw⟩
    · refine ⟨true, s, own, ?_, fun _ => pageCopied_zero h hheld hnew hv hlim h0,
        fun hf => (by cases hf)⟩
      rw [h0] at hw
      simp only [uvmcopyPage, hw, ok_bind]
      rfl
    · exact copyPage_resident h hheld hold hnew hv hlim hnonew hres.valid hw
    · exact copyPage_swapped h hheld hold hnew hne hv hlim hsw hw
  · rw [page_div] at h0
    refine ⟨true, s, own, ?_, fun _ => pageCopied_zero h hheld hnew hv hlim h0,
      fun hf => (by cases hf)⟩
    simp only [uvmcopyPage, hw, ok_bind]
    rfl

end Page

/-! ### The loop -/

/-- Page `w` is the first page of table `old`, from `v` on, that is in memory. -/
def FirstResident (s : Kernel) (old v w : Nat) : Prop :=
  v ≤ w ∧ (s.pte old w).has PTE_V = true ∧ ∀ u, v ≤ u → u < w → (s.pte old u).has PTE_V = false

/-- The pages `v` to `v + n` of table `old` have been copied to table `new`. -/
structure PagesCopied (own own' : Nat → Owner) (lim : Nat → Nat) (s s' : Kernel) (np : ProcId)
    (old new v n : Nat) : Prop where
  wf : Wf own' (Function.update lim new (v + n)) s'
  keeps : Keeps (fun r w => r = new ∧ v ≤ w ∧ w < v + n) own own' s s'
  noHeld : NoHeld own'
  nulls : s'.nullAllocs = s.nullAllocs
  fulls : s'.swapFulls = s.swapFulls
  perm : ∀ w, v ≤ w → w < v + n → (flat s' new w).2 = (flat s old w).2
  same : ∀ w, v ≤ w → w < v + n → ¬ (FirstResident s old v w ∧ Clobbers s np old w) →
    (flat s' new w).1 = (flat s old w).1
  junk : ∀ w, w < v + n → FirstResident s old v w → Clobbers s np old w →
    (flat s' new w).1 = junkPage

/-- The copy of the pages `v` to `v + n` of table `old` has failed, and table `new` is empty again. -/
structure CopyUndone (own own' : Nat → Owner) (lim : Nat → Nat) (s s' : Kernel) (old new v n : Nat) :
    Prop where
  failed : s.nullAllocs < s'.nullAllocs ∨ s.swapFulls < s'.swapFulls
  kept : (∀ w, v ≤ w → w < v + n → (s.pte old w).has PTE_V = false) ∨
      s'.nullAllocs = s.nullAllocs →
    Wf own' (Function.update lim new 0) s' ∧ Keeps (fun r _ => r = new) own own' s s' ∧ NoHeld own'

/-- A process that has a frame does not evict the page of another. -/
theorem not_clobbers_of_hasFrame {old : Nat} (h : Wf own lim s) (hheld : NoHeld own)
    (hold : own old = .root p) (hne : p ≠ np) (hv : v < UPAGES)
    (hval : (s.pte old v).has PTE_V = true) (hframe : HasFrame s.frameTable np) :
    ¬ Clobbers s np old v := by
  rintro ⟨hnone, i, ft, hand, hpick, hpa⟩
  have htab : IsTable own old := ⟨p, Or.inl hold⟩
  have hres : Resident (s.pte old v) (pte2Pa (s.pte old v)) :=
    (h.pages.table old htab).resident_of hv hval
  have huser := h.pages.own_user htab hv hres
  obtain ⟨hu, hp⟩ := clockPickVictim_own hframe hpick
  -- the victim is a page of `np`
  obtain ⟨q, hq, -, hh | ⟨r, hr, hru⟩⟩ := h.frames.ok i hu
  · exact hheld _ _ _ hh
  · rw [hp] at hq
    cases hq
    rw [hpa, huser] at hru
    cases hru
    rcases hr with hr | hr
    · rw [hold] at hr
      cases hr
      exact hne rfl
    · rw [hold] at hr
      cases hr

section Loop

variable {old new : Nat}

/-- The pages copied so far are unmapped again. -/
theorem CopyFailed.undone {n : Nat} {s₂ : Kernel} (h : CopyFailed own own' lim s s' old v)
    (hnew : own new = .root np) (hlim : lim new = v) (hle : v + (n + 1) ≤ UPAGES)
    (hrun : uvmunmap s' new 0 v true = .ok s₂) (hn : s₂.nullAllocs = s'.nullAllocs)
    (hf : s₂.swapFulls = s'.swapFulls) :
    ∃ own₂, CopyUndone own own₂ lim s s₂ old new v (n + 1) := by
  by_cases hc : (s.pte old v).has PTE_V = false ∨ s'.nullAllocs = s.nullAllocs
  · obtain ⟨hwf, hk, hheld⟩ := h.kept hc
    have htab : IsTable own' new := ⟨np, Or.inl ((hk.roots np new).1.mpr hnew)⟩
    obtain ⟨s₃, own₃, h₃, hu⟩ := uvmunmap_spec hwf htab 0 v (by omega)
    rw [Nat.zero_mul] at h₃
    cases hrun.symm.trans h₃
    refine ⟨own₃, by rw [hn, hf]; exact h.failed, fun _ => ⟨?_, ?_, fun x q a hx => ?_⟩⟩
    · refine hu.wf.setLim (Nat.zero_le _) fun w _ hw => ?_
      by_cases hwv : w < v
      · exact hu.pte_in w ⟨Nat.zero_le w, by omega⟩
      · exact hu.wf.pte_above ((hu.isTable new).mpr htab) (by omega) hw
    · exact hk.trans hu.keeps fun r w ht => ht.elim False.elim And.left
    · rcases hu.owner x with he | ⟨-, he⟩
      · exact hheld x q a (he.symm.trans hx)
      · cases he.symm.trans hx
  · push Not at hc
    refine ⟨own, by rw [hn, hf]; exact h.failed, fun hk => ?_⟩
    rcases hk with hk | hk
    · exact absurd (hk v le_rfl (by omega)) hc.1
    · exact absurd (hn.symm.trans hk) hc.2

/-- A later failure undoes the copy of page `v` too. -/
theorem PageCopied.undone {n : Nat} {own₁ : Nat → Owner} {s₁ : Kernel}
    (hc : PageCopied own own₁ lim s s₁ np old new v)
    (hu : CopyUndone own₁ own' (Function.update lim new (v + 1)) s₁ s' old new (v + 1) n) :
    CopyUndone own own' lim s s' old new v (n + 1) := by
  refine ⟨by rw [← hc.nulls, ← hc.fulls]; exact hu.failed, fun hk => ?_⟩
  obtain ⟨hwf, hkeeps, hheld⟩ := hu.kept (by
    refine hk.imp (fun hk w hw hw' => ?_) fun hk => by rw [hk, hc.nulls]
    rw [(hc.absent (hk v le_rfl (by omega))).2.2.2 w]
    exact hk w (by omega) (by omega))
  rw [Function.update_idem] at hwf
  exact ⟨hwf, hc.keeps.trans hkeeps fun r w ht => ht.elim And.left id, hheld⟩

/-- What the rest of the loop does to a page depends on whether page `v` was in memory: then the copy of
page `v` has a frame, and no page of `old` is evicted any more. -/
theorem PageCopied.clobbered_iff {own₁ : Nat → Owner} {s₁ : Kernel}
    (hc : PageCopied own own₁ lim s s₁ np old new v) (hold : own old = .root p) (hpn : p ≠ np) {w : Nat}
    (hw : v < w) (hwu : w < UPAGES) :
    FirstResident s₁ old (v + 1) w ∧ Clobbers s₁ np old w ↔
      FirstResident s old v w ∧ Clobbers s np old w := by
  cases hval : (s.pte old v).has PTE_V with
  | true =>
      refine iff_of_false (fun hf => ?_) fun hf => ?_
      · exact not_clobbers_of_hasFrame hc.wf hc.noHeld ((hc.keeps.roots p old).1.mpr hold) hpn hwu
          hf.1.2.1 (hc.resident hval).1 hf.2
      · have := hf.1.2.2 v le_rfl hw
        rw [hval] at this
        cases this
  | false =>
      obtain ⟨-, hft, hhand, hpte⟩ := hc.absent hval
      unfold FirstResident Clobbers
      rw [hft, hhand]
      simp only [hpte]
      refine and_congr_left fun _ => ⟨fun ⟨_, h1, h2⟩ => ⟨hw.le, h1, fun u hu hu' => ?_⟩,
        fun ⟨_, h1, h2⟩ => ⟨hw, h1, fun u hu hu' => h2 u (by omega) hu'⟩⟩
      by_cases huv : u = v
      · rwa [huv]
      · exact h2 u (by omega) hu'

/-- Page `v` and then `n` more. -/
theorem PageCopied.cons {n : Nat} {own₁ : Nat → Owner} {s₁ : Kernel}
    (hc : PageCopied own own₁ lim s s₁ np old new v)
    (hp : PagesCopied own₁ own' (Function.update lim new (v + 1)) s₁ s' np old new (v + 1) n)
    (hold : own old = .root p) (hnew : own new = .root np) (hpn : p ≠ np) (hne : old ≠ new)
    (hle : v + (n + 1) ≤ UPAGES) : PagesCopied own own' lim s s' np old new v (n + 1) := by
  have htabo : IsTable own old := ⟨p, Or.inl hold⟩
  have htabn : IsTable own₁ new := ⟨np, Or.inl ((hc.keeps.roots np new).1.mpr hnew)⟩
  have hwf' := hp.wf
  rw [Function.update_idem, Nat.add_right_comm, Nat.add_assoc] at hwf'
  -- the pages of `old` are the same for the rest of the loop, and page `v` of `new` is left alone
  have hflat : ∀ w, w < UPAGES → flat s₁ old w = flat s old w := fun w hw =>
    hc.keeps.flat old w htabo hw fun hk => hne hk.1
  have hthis : flat s' new v = flat s₁ new v := hp.keeps.flat new v htabn (by omega) (by omega)
  refine ⟨hwf', hc.keeps.trans hp.keeps fun r' w ht => ?_, hp.noHeld,
    hp.nulls.trans hc.nulls, hp.fulls.trans hc.fulls, fun w hw hw' => ?_, fun w hw hw' hnot => ?_,
    fun w hw' hfirst hcl => ?_⟩
  · rcases ht with ⟨rfl, rfl⟩ | ⟨rfl, h1, h2⟩
    · exact ⟨rfl, by omega, by omega⟩
    · exact ⟨rfl, by omega, by omega⟩
  · by_cases hwv : w = v
    · rw [hwv, hthis]
      exact hc.perm
    · rw [hp.perm w (by omega) (by omega), hflat w (by omega)]
  · by_cases hwv : w = v
    · subst hwv
      rw [hthis]
      cases hval : (s.pte old w).has PTE_V with
      | false => exact (hc.absent hval).1
      | true =>
          refine (hc.resident hval).2.2 fun hcl => hnot ⟨⟨le_rfl, hval, ?_⟩, hcl⟩
          exact fun u hu hu' => by omega
    · have hiff := hc.clobbered_iff hold hpn (w := w) (by omega) (by omega)
      rw [hp.same w (by omega) (by omega) fun hf => hnot (hiff.mp hf), hflat w (by omega)]
  · by_cases hwv : w = v
    · subst hwv
      rw [hthis]
      exact (hc.resident hfirst.2.1).2.1 hcl
    · have hw := hfirst.1
      have hiff := hc.clobbered_iff hold hpn (w := w) (by omega) (by omega)
      obtain ⟨hf', hc'⟩ := hiff.mpr ⟨hfirst, hcl⟩
      exact hp.junk w (by omega) hf' hc'

/-- **The loop of `uvmcopy`** with `n` pages left, from page `v` on. -/
theorem uvmcopyLoop_spec (hpn : p ≠ np) : ∀ (n v : Nat) (own : Nat → Owner) (lim : Nat → Nat)
    (s s' : Kernel) (ok : Bool), Wf own lim s → NoHeld own → NoNew own → own old = .root p →
      own new = .root np → lim new = v → v + n ≤ UPAGES →
      uvmcopyLoop old new np n v s = .ok (ok, s') →
      (ok = true → ∃ own', PagesCopied own own' lim s s' np old new v n) ∧
        (ok = false → ∃ own', CopyUndone own own' lim s s' old new v n) := by
  intro n
  induction n with
  | zero =>
      intro v own lim s s' ok h hheld _ _ _ hlim hle hrun
      cases hrun
      refine ⟨fun _ => ⟨own, ?_, ?_, hheld, rfl, rfl, fun w hw hw' => by omega,
        fun w hw hw' => by omega, fun w hw hf => absurd hf.1 (by omega)⟩, fun hf => by cases hf⟩
      · rwa [Nat.add_zero, ← hlim, Function.update_eq_self]
      · exact (Keeps.refl own s).weaken fun _ _ hf => hf.elim
  | succ n ih =>
      intro v own lim s s' ok h hheld hnonew hold hnew hlim hle hrun
      have hne : old ≠ new := by
        rintro rfl
        rw [hold] at hnew
        cases hnew
        exact hpn rfl
      have hv : v < UPAGES := by omega
      obtain ⟨b, s₁, own₁, h₁, htrue, hfalse⟩ := uvmcopyPage_spec h hheld hold hnew hne hv hlim hnonew
      simp only [uvmcopyLoop, h₁, ok_bind] at hrun
      cases b with
      | false =>
          simp only [Bool.false_eq_true, if_false] at hrun
          obtain ⟨s₂, h₂, hrun⟩ := bind_eq_ok.mp hrun
          cases hrun
          obtain ⟨hn, hf⟩ := uvmunmap_counts h₂
          refine ⟨fun hf => (by cases hf), fun _ => ?_⟩
          exact (hfalse rfl).undone hnew hlim hle h₂ hn hf
      | true =>
          rw [if_pos rfl] at hrun
          have hc := htrue rfl
          have hroots := hc.keeps.roots
          obtain ⟨hdone, hfail⟩ := ih (v + 1) own₁ (Function.update lim new (v + 1)) s₁ s' ok hc.wf
            hc.noHeld (hnonew.of_roots hroots) ((hroots p old).1.mpr hold)
            ((hroots np new).1.mpr hnew) (Function.update_self ..) (by omega) hrun
          refine ⟨fun hok => ?_, fun hok => ?_⟩
          · obtain ⟨own', hp⟩ := hdone hok
            exact ⟨own', hc.cons hp hold hnew hpn hne hle⟩
          · obtain ⟨own', hu⟩ := hfail hok
            exact ⟨own', hc.undone hu⟩

end Loop

end Xv6.Vm
