import Xv6.Vm.Holders
import Xv6.Vm.Resident
import Xv6.Vm.Rollback

/-!
# Vm — ForkFails

What a `kfork` that returns -1 leaves behind.

The `err` label of `uvmcopy` unmaps the pages copied so far, and `freeproc` drops the frames of the
child, also the entry of a page that could not be mapped.  A swap slot that has been taken for the
page at which the copy stops is in no table yet, and has no process: nothing gives it back.

* `ForkUndone`: what a failure should leave.
* `Lost`: a slot in use that no entry names; `SlotsKept`: an operation loses none.
* `uvmcopyPage_slots`: a turn of `uvmcopy` loses a slot just when it `Starves`.
* `failed_fork`: a failed `kfork` is undone just when no slot was lost before and no turn starves.
-/

namespace Xv6.Vm
open Xv6.Lib
open Xv6.Raid (Page zeroPage PGSIZE BLOCKS_PER_PAGE MAX_SWAP)

variable {own own' : Nat → Owner} {lim lim' : Nat → Nat} {s s' : Kernel} {p q np : ProcId}
  {r v pa va n : Nat}

/-- Every swap slot in use is named by the entry of a page of some process. -/
def SlotsNamed (s : Kernel) : Prop :=
  ∀ n, n < MAX_SWAP → (s.swapSpace n).used = true → ∃ p v, SwappedAt s p v n

/-- Every swap slot in use is named by an entry, or is recorded as one of the process that a fork makes, whose
slots `freeproc` gives back. -/
def SlotsAccounted (s : Kernel) : Prop :=
  ∀ n, n < MAX_SWAP → (s.swapSpace n).used = true →
    (∃ p v, SwappedAt s p v n) ∨ ∃ np, freeProc s = some np ∧ (s.swapSpace n).proc = some np

/-- A fork by `p` has failed and has left nothing: `p` has its memory, no process is there that was
not, the child has no frame, and every swap slot in use belongs to a page. -/
structure ForkUndone (s s' : Kernel) (p : ProcId) : Prop where
  memory : flatMem s' p = flatMem s p
  procs : ∀ q, (s'.procs q).state = (s.procs q).state
  frames : ∀ np, freeProc s = some np → ∀ i, (s'.frameTable i).used = true →
    (s'.frameTable i).proc ≠ some np
  slots : SlotsNamed s'

/-! ### Slots that are lost -/

/-- Slot `n` is in use, and no entry of the tables in `R` names it. -/
def Lost (R : Nat → Prop) (s : Kernel) (n : Nat) : Prop :=
  n < MAX_SWAP ∧ (s.swapSpace n).used = true ∧ ∀ r v, R r → v < UPAGES → ¬ Swapped (s.pte r v) n

theorem Settled.lost_iff (h : Settled own lim s) {n : Nat} (hlt : n < MAX_SWAP)
    (hu : (s.swapSpace n).used = true) : Lost (IsTable own) s n ↔ ¬ ∃ p v, SwappedAt s p v n := by
  constructor
  · rintro ⟨-, -, hnot⟩ ⟨p, v, hat⟩
    obtain ⟨r, hr, hv, hsw⟩ := h.swappedAt hat
    exact hnot r v ⟨p, Or.inl hr⟩ hv hsw
  · refine fun hno => ⟨hlt, hu, fun r v hr hv hsw => hno ?_⟩
    obtain ⟨p, hp⟩ := hr
    have hroot : own r = .root p := hp.resolve_right (h.noNew r p)
    exact ⟨p, v, r, h.wf.pages.pagetable hroot, hsw.swapped, hsw.slot_eq⟩

theorem Settled.slotsNamed_iff (h : Settled own lim s) :
    SlotsNamed s ↔ ∀ n, ¬ Lost (IsTable own) s n := by
  refine ⟨fun hn n hl => (h.lost_iff hl.1 hl.2.1).mp hl (hn n hl.1 hl.2.1), fun hn n hlt hu => ?_⟩
  by_contra hno
  exact hn n ((h.lost_iff hlt hu).mpr hno)

theorem Settled.slotsAccounted_iff (h : Settled own lim s) : SlotsAccounted s ↔
    ∀ n, Lost (IsTable own) s n → ∃ np, freeProc s = some np ∧ (s.swapSpace n).proc = some np := by
  refine ⟨fun hn n hl => (hn n hl.1 hl.2.1).resolve_left ((h.lost_iff hl.1 hl.2.1).mp hl),
    fun hn n hlt hu => ?_⟩
  by_cases hno : ∃ p v, SwappedAt s p v n
  · exact Or.inl hno
  · exact Or.inr (hn n ((h.lost_iff hlt hu).mpr hno))

/-- No slot has been lost or found again, and those that were lost are as they were. -/
structure SlotsKept (R : Nat → Prop) (s s' : Kernel) : Prop where
  lost : ∀ n, Lost R s' n ↔ Lost R s n
  slot : ∀ n, Lost R s n → s'.swapSpace n = s.swapSpace n

variable {R : Nat → Prop}

theorem SlotsKept.trans {s₁ : Kernel} (h : SlotsKept R s s₁) (h' : SlotsKept R s₁ s') :
    SlotsKept R s s' :=
  ⟨fun n => (h'.lost n).trans (h.lost n), fun n hn =>
    (h'.slot n ((h.lost n).mpr hn)).trans (h.slot n hn)⟩

theorem slotsKept_same (hpte : ∀ r v, R r → v < UPAGES → s'.pte r v = s.pte r v)
    (hsw : s'.swapSpace = s.swapSpace) : SlotsKept R s s' := by
  refine ⟨fun n => ?_, fun n _ => by rw [hsw]⟩
  unfold Lost
  rw [hsw]
  refine and_congr_right fun _ => and_congr_right fun _ => ?_
  refine forall_congr' fun r => forall_congr' fun v => forall_congr' fun hr => forall_congr' fun hv => ?_
  rw [hpte r v hr hv]

/-- One entry has changed.  A slot is as it was and named by the entry as before, or it is in use
only when the entry names it, before and after. -/
theorem slotsKept_entry (hr : R r) (hv : v < UPAGES)
    (hpte : ∀ r' v', ¬ (r' = r ∧ v' = v) → s'.pte r' v' = s.pte r' v')
    (h : ∀ n, (s'.swapSpace n = s.swapSpace n ∧ (Swapped (s'.pte r v) n ↔ Swapped (s.pte r v) n)) ∨
      (((s.swapSpace n).used = false ∨ Swapped (s.pte r v) n) ∧
        ((s'.swapSpace n).used = false ∨ Swapped (s'.pte r v) n))) : SlotsKept R s s' := by
  have hnot : ∀ {t : Kernel} {n}, (t.swapSpace n).used = false ∨ Swapped (t.pte r v) n →
      ¬ Lost R t n := by
    rintro t n (hu | hsw) ⟨-, hu', hno⟩
    · cases hu.symm.trans hu'
    · exact hno r v hr hv hsw
  refine ⟨fun n => ?_, fun n hn => ?_⟩
  · rcases h n with ⟨hs, hiff⟩ | ⟨hb, ha⟩
    · unfold Lost
      rw [hs]
      refine and_congr_right fun _ => and_congr_right fun _ => ?_
      refine forall_congr' fun r' => forall_congr' fun v' => forall_congr' fun _ =>
        forall_congr' fun _ => not_congr ?_
      by_cases he : r' = r ∧ v' = v
      · rw [he.1, he.2]
        exact hiff
      · rw [hpte r' v' he]
    · exact iff_of_false (hnot ha) (hnot hb)
  · rcases h n with ⟨hs, -⟩ | ⟨hb, -⟩
    · exact hs
    · exact absurd hn (hnot hb)

/-- An entry that names no slot now names one that was free. -/
theorem slotsKept_take {slot : Nat} (hr : R r) (hv : v < UPAGES)
    (hpte : ∀ r' v', ¬ (r' = r ∧ v' = v) → s'.pte r' v' = s.pte r' v')
    (hold : ∀ n, ¬ Swapped (s.pte r v) n) (hnew : Swapped (s'.pte r v) slot)
    (hfree : (s.swapSpace slot).used = false)
    (hsw : ∀ n, n ≠ slot → s'.swapSpace n = s.swapSpace n) : SlotsKept R s s' := by
  refine slotsKept_entry hr hv hpte fun n => ?_
  by_cases hn : n = slot
  · subst hn
    exact Or.inr ⟨Or.inl hfree, Or.inr hnew⟩
  · exact Or.inl ⟨hsw n hn, iff_of_false (fun h => hn (h.slot_eq.symm.trans hnew.slot_eq)) (hold n)⟩

/-- An entry that names no slot has changed to another that names none. -/
theorem slotsKept_plain (hr : R r) (hv : v < UPAGES)
    (hpte : ∀ r' v', ¬ (r' = r ∧ v' = v) → s'.pte r' v' = s.pte r' v')
    (hold : ∀ n, ¬ Swapped (s.pte r v) n) (hnew : ∀ n, ¬ Swapped (s'.pte r v) n)
    (hsw : s'.swapSpace = s.swapSpace) : SlotsKept R s s' :=
  slotsKept_entry hr hv hpte fun n => Or.inl ⟨by rw [hsw], iff_of_false (hnew n) (hold n)⟩

/-! ### Unmapping -/

theorem uvmunmapPage_slots (h : Wf own lim s) (hr : IsTable own r) (hR : R r) (hv : v < UPAGES)
    (hrun : uvmunmapPage s r true (v * PGSIZE) = .ok s') : SlotsKept R s s' := by
  have hzero : ∀ n, ¬ Swapped (0 : Pte) n := fun n hn => hn.not_zero rfl
  have hlt : v * PGSIZE < MAXVA := by
    simp only [UPAGES, TRAPFRAME, TRAMPOLINE, MAXVA, PGSIZE] at *
    omega
  have hout : ∀ t : Kernel, t.tables = s.tables → ∀ r' v', ¬ (r' = r ∧ v' = v) →
      (setPte t r v 0).pte r' v' = s.pte r' v' := fun t ht r' v' hne => by
    rw [pte_setPte, if_neg hne, pte_of_tables ht]
  have hin : ∀ t : Kernel, (setPte t r v 0).pte r v = 0 := fun t => by
    rw [pte_setPte, if_pos ⟨rfl, rfl⟩]
  rcases walk_eq (h.pages.table r hr) hlt with hw | ⟨hw, -⟩
  · rw [page_div] at hw
    simp only [uvmunmapPage, hw, ok_bind, page_div] at hrun
    rcases h.pages.userEntry hr hv with h0 | ⟨x, hres⟩ | ⟨slot, hsw⟩
    · rw [h0] at hrun
      cases hrun
      exact slotsKept_same (fun _ _ _ _ => rfl) rfl
    · have hpa := h.pages.own_user hr hv hres
      have hfree : kfree { s with frameTable := dropFrame s.frameTable x } x = .ok _ :=
        kfree_eq (h.pages.range x (by simp [hpa]))
      simp only [hres.not_swapped, hres.valid, hres.pa_eq, hfree] at hrun
      cases hrun
      exact slotsKept_plain hR hv (hout _ rfl) (fun n => hres.not_Swapped)
        (fun n => by rw [hin]; exact hzero n) rfl
    · simp only [hsw.swapped, hsw.slot_eq, if_true] at hrun
      cases hrun
      refine slotsKept_entry hR hv (hout _ rfl) fun n => ?_
      by_cases hn : n = slot
      · subst hn
        refine Or.inr ⟨Or.inr hsw, Or.inl ?_⟩
        simp [setPte, setTable, swapFree, setSlot]
      · refine Or.inl ⟨Function.update_of_ne hn .., iff_of_false ?_ ?_⟩
        · rw [hin]
          exact hzero n
        · exact fun hk => hn (hk.slot_eq.symm.trans hsw.slot_eq)
  · simp only [uvmunmapPage, hw, ok_bind] at hrun
    cases hrun
    exact slotsKept_same (fun _ _ _ _ => rfl) rfl

theorem uvmunmap_slots (h : Wf own lim s) (hr : IsTable own r) (hR : R r) (hle : v + n ≤ UPAGES)
    (hrun : uvmunmap s r (v * PGSIZE) n true = .ok s') : SlotsKept R s s' := by
  have halign : ¬ v * PGSIZE % PGSIZE ≠ 0 := by simp [Nat.mul_mod_left]
  simp only [uvmunmap, if_neg halign] at hrun
  induction n generalizing s' with
  | zero =>
      cases hrun
      exact slotsKept_same (fun _ _ _ _ => rfl) rfl
  | succ n ih =>
      rw [List.range_succ, List.foldlM_append] at hrun
      obtain ⟨s₁, h₁, hrun⟩ := bind_eq_ok.mp hrun
      obtain ⟨s₂, h₂, hrun⟩ := bind_eq_ok.mp hrun
      cases hrun
      obtain ⟨s₃, own₃, h₃, hu⟩ := uvmunmap_spec h hr v n (by omega)
      simp only [uvmunmap, if_neg halign] at h₃
      cases h₁.symm.trans h₃
      dsimp only at h₂
      rw [show v * PGSIZE + n * PGSIZE = (v + n) * PGSIZE from (Nat.add_mul ..).symm] at h₂
      exact (ih (by omega) h₁).trans
        (uvmunmapPage_slots hu.wf ((hu.isTable r).mpr hr) hR (by omega) h₂)

/-! ### Copying a page -/

/-- A victim's slot is named by its entry. -/
theorem kallocUser_slots {res : Option Nat} (h : Wf own lim s) (hvict : VictimOk own s p)
    (hR : ∀ r, IsTable own r → R r) (hrun : kallocUser s p va = .ok (res, s')) :
    SlotsKept R s s' := by
  rcases kallocUser_effect h hvict hrun with ⟨htab, -, hsw⟩ |
    ⟨i, ft, hand, q, r, slot, raid, rfl, hlt, hfree, hr, hvu, hres⟩
  · exact slotsKept_same (fun r v _ _ => pte_of_tables htab r v) hsw
  · have hpte := pte_setPte s r ((ft i).va / PGSIZE) (swapOutPte slot (s.pte r ((ft i).va / PGSIZE)))
    refine slotsKept_take (hR r ⟨q, Or.inl hr⟩) hvu (fun r' v' hne => (hpte r' v').trans (if_neg hne))
      (fun n => hres.not_Swapped) (?_ : Swapped _ slot) hfree fun n hn => Function.update_of_ne hn ..
    rw [show (evictFrame s p va i ft hand q r slot raid).pte r ((ft i).va / PGSIZE) =
      swapOutPte slot (s.pte r ((ft i).va / PGSIZE)) from (hpte _ _).trans (if_pos ⟨rfl, rfl⟩)]
    exact swapOutPte_swapped (hlt.trans_le (by decide)) _

/-- `mappages` of one page is a walk and, when the walk finds its entry, a store. -/
theorem mappages_one {perm : Pte} {ok : Bool}
    (hrun : mappages s r (v * PGSIZE) PGSIZE pa perm = .ok (ok, s')) :
    ∃ s₁, walkAlloc s r (v * PGSIZE) = .ok (ok, s₁) ∧
      s' = if ok then setPte s₁ r v (mapPte pa perm) else s₁ := by
  have hloop : mappages s r (v * PGSIZE) PGSIZE pa perm =
      mappagesLoop r perm 1 s (v * PGSIZE) pa := by
    simp only [mappages, Nat.mul_mod_left, PGSIZE]
    rfl
  rw [hloop] at hrun
  obtain ⟨⟨found, s₁⟩, h₁, hrun⟩ := bind_eq_ok.mp hrun
  cases found with
  | false =>
      cases hrun
      exact ⟨s', h₁, rfl⟩
  | true =>
      simp only [Bool.not_true, Bool.false_eq_true, if_false, page_div] at hrun
      split at hrun
      · cases hrun
      · cases hrun
        exact ⟨s₁, h₁, rfl⟩

/-- The copy of page `v`, which is swapped out, gets a slot, and then there are not the pages for
the tables of the child. -/
def Starves (s : Kernel) (old new v : Nat) : Prop :=
  (s.pte old v).has PTE_SWAPPED = true ∧ freeSlot s ≠ none ∧
    s.freelist.length < tablesMissing s new (v * PGSIZE)

instance Starves.decidable (s : Kernel) (old new v : Nat) : Decidable (Starves s old new v) :=
  inferInstanceAs (Decidable (_ ∧ _))

/-- A turn of `uvmcopy` loses a slot, which belongs to no process. -/
def LosesOne (R : Nat → Prop) (s : Kernel) : Prop :=
  ∃ n, Lost R s n ∧ (s.swapSpace n).proc = none

section Page

variable {old new : Nat} (h : Wf own lim s) (hheld : NoHeld own) (hnonew : NoNew own)
  (hold : own old = .root p) (hnew : own new = .root np) (hv : v < UPAGES) (hlim : lim new = v)
  (hR : ∀ r, R r ↔ IsTable own r)

include h hold hnew hv hlim hR

theorem copySwapped_slots {slot : Nat} {ok : Bool} (hsw : Swapped (s.pte old v) slot)
    (hwalk : walk s old (v * PGSIZE) = .ok (some (s.pte old v)))
    (hrun : uvmcopyPage s old new np v = .ok (ok, s')) :
    (¬ Starves s old new v → SlotsKept R s s') ∧ (Starves s old new v → ok = false ∧ LosesOne R s') := by
  have htab : IsTable own new := ⟨np, Or.inl hnew⟩
  have hok := h.slots.ok old v slot ⟨p, Or.inl hold⟩ hv hsw
  simp only [uvmcopyPage, hwalk, ok_bind, hsw.swapped, if_true] at hrun
  cases hfs : freeSlot s with
  | none =>
      have hsa : swapAlloc s = (none, { s with swapFulls := s.swapFulls + 1 }) := by
        unfold freeSlot at hfs
        simp only [swapAlloc, hfs]
      rw [hsa] at hrun
      cases hrun
      exact ⟨fun _ => slotsKept_same (fun _ _ _ _ => rfl) rfl, fun hst => absurd hfs hst.2.1⟩
  | some newslot =>
      obtain ⟨hnlt, hnfree⟩ := freeSlot_some hfs
      rw [swapAlloc_some hfs] at hrun
      obtain ⟨raid, hraid, hrun⟩ := bind_eq_ok.mp hrun
      have hlt : v * PGSIZE < MAXVA := by
        simp only [UPAGES, TRAPFRAME, TRAMPOLINE, MAXVA, PGSIZE] at *
        omega
      have hns : slot ≠ newslot := by
        rintro rfl
        cases hnfree.symm.trans hok.used
      obtain ⟨raid', hcopy, hhealthy, -⟩ := raidCopy_slot h.raid hnlt hok.lt
      simp only [setSlot, Function.update_idem, SWAP_START_BLOCK, Nat.zero_add, hsw.slot_eq,
        Function.update_of_ne hns, hok.block, hcopy] at hraid hrun
      cases hraid
      have hwf₁ : Wf own lim (withCopy s newslot (v * PGSIZE) raid) := h.withCopy hnfree hhealthy _
      change (walkAlloc (withCopy s newslot (v * PGSIZE) raid) new (v * PGSIZE) >>= _) = _ at hrun
      obtain ⟨found, s₂, own₂, h₂, -, hk, -⟩ := walkAlloc_spec hwf₁ htab hlt
      obtain ⟨s₃, h₃, -⟩ := walkAlloc_found (s := withCopy s newslot (v * PGSIZE) raid)
        (h.pages.table new htab) hlt
      rw [h₂] at h₃
      obtain ⟨hfound, rfl⟩ := Prod.mk.inj (Except.ok.inj h₃)
      -- the walk finds its entry just when the turn does not starve
      have hst : Starves s old new v ↔ found = false := by
        rw [hfound, decide_eq_false_iff_not, Nat.not_le]
        exact ⟨fun hst => hst.2.2, fun hlt => ⟨hsw.swapped, by simp [hfs], hlt⟩⟩
      have hslot : ∀ n, n ≠ newslot → s₂.swapSpace n = s.swapSpace n := fun n hn => by
        rw [hk.swapSpace]
        exact Function.update_of_ne hn ..
      have hpte : ∀ r w, s₂.pte r w = s.pte r w := hk.pte
      rw [h₂, ok_bind] at hrun
      cases found with
      | false =>
          cases hrun
          refine ⟨fun hn => absurd (hst.mpr rfl) hn, fun _ => ⟨rfl, newslot, ⟨hnlt, ?_, ?_⟩, ?_⟩⟩
          · rw [hk.swapSpace]
            simp [withCopy]
          · intro r w hr hw hn
            exact h.slots.fresh hnfree r w ((hR r).mp hr) hw (hpte r w ▸ hn)
          · rw [hk.swapSpace]
            simp [withCopy]
      | true =>
          cases hrun
          refine ⟨fun _ => ?_, fun hs => by cases hst.mp hs⟩
          have hzero : s.pte new v = 0 := h.pte_above htab hlim.le hv
          refine slotsKept_take ((hR new).mpr htab) hv (fun r' w hne => ?_) (fun n hn => ?_) ?_ hnfree
            fun n hn => hslot n hn
          · rw [pte_setPte, if_neg hne]
            exact hpte r' w
          · exact hn.not_zero hzero
          · rw [pte_setPte, if_pos ⟨rfl, rfl⟩]
            exact swapCopyPte_swapped (by simp only [MAX_SWAP] at hnlt; omega) (hpte old v ▸ hsw)

include hheld hnonew

omit hlim in
theorem copyResident_slots {ok : Bool} (hzero : s.pte new v = 0)
    (hval : (s.pte old v).has PTE_V = true)
    (hwalk : walk s old (v * PGSIZE) = .ok (some (s.pte old v)))
    (hrun : uvmcopyPage s old new np v = .ok (ok, s')) : SlotsKept R s s' := by
  have htabo : IsTable own old := ⟨p, Or.inl hold⟩
  have htab : IsTable own new := ⟨np, Or.inl hnew⟩
  have hres : Resident (s.pte old v) (pte2Pa (s.pte old v)) :=
    (h.pages.table old htabo).resident_of hv hval
  have hlt : v * PGSIZE < MAXVA := by
    simp only [UPAGES, TRAPFRAME, TRAMPOLINE, MAXVA, PGSIZE] at *
    omega
  obtain ⟨res, s₁, hk, -, hal⟩ := kallocUser_spec h (page_mod v) (h.victimOk hheld hnonew np)
  have hslots := kallocUser_slots h (h.victimOk hheld hnonew np) (fun r hr => (hR r).mpr hr) hk
  have hcopy : uvmcopyPage s old new np v =
      (kallocUser s np (v * PGSIZE) >>= copyInto (s.pte old v) new v) := by
    simp only [uvmcopyPage, hwalk, ok_bind]
    rw [if_neg (by simp [hres.not_swapped]), if_neg (by simp [hval])]
    rfl
  rw [hcopy, hk, ok_bind] at hrun
  cases res with
  | none =>
      cases hrun
      exact hslots
  | some mem =>
      have hal := hal mem rfl
      obtain ⟨⟨mapped, s₂⟩, h₂, hrun⟩ := bind_eq_ok.mp hrun
      obtain ⟨s₃, h₃, he⟩ := mappages_one h₂
      have hwf₁ : Wf _ lim (setPage s₁ mem (s₁.mem (pte2Pa (s.pte old v)))) :=
        hal.wf.congr ⟨rfl, rfl, rfl, rfl, fun _ => rfl⟩ rfl rfl rfl (fun _ hi => ⟨hi, rfl, rfl, rfl⟩)
          hal.wf.raid
      obtain ⟨found, s₄, own₄, h₄, -, hkeep, -⟩ := walkAlloc_spec hwf₁
        ((hal.keeps.roots.isTable new).mpr htab) hlt
      cases h₃.symm.trans h₄
      have hw : SlotsKept R s₁ s₃ := slotsKept_same (fun r w _ _ => hkeep.pte r w) hkeep.swapSpace
      cases mapped with
      | false =>
          rw [if_neg Bool.false_ne_true] at he
          subst he
          obtain ⟨s₅, h₅, hrun⟩ := bind_eq_ok.mp hrun
          cases hrun
          unfold kfree at h₅
          split at h₅
          · cases h₅
          · cases h₅
            exact (hslots.trans hw).trans (slotsKept_same (fun _ _ _ _ => rfl) rfl)
      | true =>
          rw [if_pos rfl] at he
          subst he
          cases hrun
          have hz₃ : s₃.pte new v = 0 := by
            rw [hkeep.pte]
            refine (hal.pte new v fun x hx => hx.not_zero hzero).trans hzero
          refine (hslots.trans hw).trans (slotsKept_plain ((hR new).mpr htab) hv (fun r' w hne => ?_)
            (fun n hn => hn.not_zero hz₃) (fun n hn => ?_) rfl)
          · rw [pte_setPte, if_neg hne]
          · rw [pte_setPte, if_pos ⟨rfl, rfl⟩] at hn
            exact (mapPte_top mem (permOk_flags hres.not_swapped)).not_Swapped hn

/-- **A turn of `uvmcopy` loses a slot just when it starves.** -/
theorem uvmcopyPage_slots {ok : Bool} (hrun : uvmcopyPage s old new np v = .ok (ok, s')) :
    (¬ Starves s old new v → SlotsKept R s s') ∧ (Starves s old new v → ok = false ∧ LosesOne R s') := by
  have htabo : IsTable own old := ⟨p, Or.inl hold⟩
  have htab := h.pages.table old htabo
  have hlt : v * PGSIZE < MAXVA := by
    simp only [UPAGES, TRAPFRAME, TRAMPOLINE, MAXVA, PGSIZE] at *
    omega
  have hplain : (s.pte old v).has PTE_SWAPPED = false → SlotsKept R s s' →
      (¬ Starves s old new v → SlotsKept R s s') ∧
        (Starves s old new v → ok = false ∧ LosesOne R s') :=
    fun hns hs => ⟨fun _ => hs, fun hst => by cases hns.symm.trans hst.1⟩
  have hzero : s.pte new v = 0 := h.pte_above ⟨np, Or.inl hnew⟩ hlim.le hv
  rcases walk_eq htab hlt with hw | ⟨hw, h0⟩
  · rw [page_div] at hw
    rcases h.pages.userEntry htabo hv with h0 | ⟨x, hres⟩ | ⟨slot, hsw⟩
    · refine hplain (by rw [h0]; rfl) ?_
      rw [h0] at hw
      simp only [uvmcopyPage, hw, ok_bind] at hrun
      cases hrun
      exact slotsKept_same (fun _ _ _ _ => rfl) rfl
    · exact hplain hres.not_swapped
        (copyResident_slots h hheld hnonew hold hnew hv hR hzero hres.valid hw hrun)
    · exact copySwapped_slots h hold hnew hv hlim hR hsw hw hrun
  · rw [page_div] at h0
    refine hplain (by rw [h0]; rfl) ?_
    simp only [uvmcopyPage, hw, ok_bind] at hrun
    cases hrun
    exact slotsKept_same (fun _ _ _ _ => rfl) rfl

end Page

/-! ### A turn that fails -/

/-- Nobody sees that a held page is given back with its frame. -/
theorem Wf.release_keeps (h : Wf own lim s) (hpa : own pa = .held p va) :
    Keeps noPage own (Function.update own pa .free) s (withFrames
      { setPage s pa (fun _ => 1) with freelist := pa :: s.freelist }
      (dropFrame s.frameTable pa)) := by
  have hshift : Shift own (Function.update own pa .free) :=
    shift_update (by simp [hpa, Movable]) trivial
  obtain ⟨-, hkeep⟩ := dropFrame_spec h.frames pa
  refine ⟨⟨rfl, rfl, rfl, rfl, fun _ => rfl⟩, hshift.roots,
    fun x => hshift.eq_iff (by simp [Movable]) x, fun r' v' hr' hv' _ => ?_, le_rfl, le_rfl,
    fun _ _ ht x hx => ?_⟩
  · refine flat_congr rfl (fun x hx => Function.update_of_ne ?_ ..) (fun _ _ => rfl)
      (h.pages.userEntry hr' hv')
    rintro rfl
    cases hpa.symm.trans (h.pages.own_user hr' hv' hx)
  · have hxp : x ≠ pa := by
      rintro rfl
      simp at hx
    rw [Function.update_of_ne hxp] at hx
    obtain ⟨i, hi, hix⟩ := ht x hx
    have hsame : dropFrame s.frameTable pa i = s.frameTable i := hkeep i hi (by rwa [hix])
    exact ⟨i, (congrArg FrameEntry.used hsame).trans hi, (congrArg FrameEntry.pa hsame).trans hix⟩

/-- A copy has failed at a page of table `new`.  Up to the frame table the state is one that the
invariant holds in. -/
def FailedUpTo (own : Nat → Owner) (lim : Nat → Nat) (s s' : Kernel) : Prop :=
  ∃ t ft own', s' = withFrames t ft ∧ Wf own' lim t ∧ Keeps noPage own own' s t ∧ NoHeld own'

section Failed

variable {old new : Nat} (h : Wf own lim s) (hheld : NoHeld own) (hnonew : NoNew own)
  (hold : own old = .root p) (hnew : own new = .root np) (hv : v < UPAGES) (hlim : lim new = v)

include h hheld hnonew hold hnew hv hlim

omit h hnonew hold hlim in
/-- The page that could not be mapped is free again, with its frame entry still in use. -/
theorem copyInto_failed {e : Pte} {s₁ : Kernel} {mem : Nat}
    (hal : Allocated own lim s s₁ np (v * PGSIZE) mem)
    (hrun : copyInto e new v (some mem, s₁) = .ok (false, s')) : FailedUpTo own lim s s' := by
  have htab : IsTable own new := ⟨np, Or.inl hnew⟩
  have hlt : v * PGSIZE < MAXVA := by
    simp only [UPAGES, TRAPFRAME, TRAMPOLINE, MAXVA, PGSIZE] at *
    omega
  obtain ⟨⟨mapped, s₂⟩, h₂, hrun⟩ := bind_eq_ok.mp hrun
  obtain ⟨s₃, h₃, he⟩ := mappages_one h₂
  cases mapped with
  | true => cases hrun
  | false =>
      rw [if_neg Bool.false_ne_true] at he
      subst he
      obtain ⟨s₅, h₅, hrun⟩ := bind_eq_ok.mp hrun
      cases hrun
      let page := s₁.mem (pte2Pa e)
      let own₁ := Function.update own mem (.held np (v * PGSIZE))
      have hown₁ : own₁ mem = .held np (v * PGSIZE) := Function.update_self ..
      have hwf₁ : Wf own₁ lim (setPage s₁ mem page) :=
        hal.wf.congr ⟨rfl, rfl, rfl, rfl, fun _ => rfl⟩ rfl rfl rfl (fun _ hi => ⟨hi, rfl, rfl, rfl⟩)
          hal.wf.raid
      have hfill : Keeps noPage own₁ own₁ s₁ (setPage s₁ mem page) := by
        refine ⟨⟨rfl, rfl, rfl, rfl, fun _ => rfl⟩, .refl _, fun _ => Iff.rfl, fun r' v' hr' hv' _ => ?_,
          le_rfl, le_rfl, fun _ _ ht => ht⟩
        refine flat_congr rfl (fun x hx => Function.update_of_ne ?_ ..) (fun _ _ => rfl)
          (hal.wf.pages.userEntry hr' hv')
        rintro rfl
        cases hown₁.symm.trans (hal.wf.pages.own_user hr' hv' hx)
      obtain ⟨found, s₄, own₄, h₄, hwf₄, hkeep, -, hnot⟩ := walkAlloc_spec hwf₁
        ((hal.keeps.roots.isTable new).mpr htab) hlt
      cases h₃.symm.trans h₄
      have hpa₄ : own₄ mem = .held np (v * PGSIZE) :=
        (hkeep.own_of_ne (by simp [hown₁])).trans hown₁
      have hk₄ := hkeep.keeps hwf₁ (by rw [hnot rfl]; exact Nat.le_succ _)
      rw [kfree_eq (hwf₄.pages.range mem (by simp [hpa₄]))] at h₅
      cases h₅
      refine ⟨_, s₂.frameTable, Function.update own₄ mem .free, rfl, hwf₄.release hpa₄,
        (hal.keeps.trans hfill fun _ _ ht => ht.elim id id).trans
          (hk₄.trans (hwf₄.release_keeps hpa₄) fun _ _ ht => ht.elim id id)
          fun _ _ ht => ht.elim id id, fun x q a hx => ?_⟩
      by_cases hxm : x = mem
      · rw [hxm, Function.update_self] at hx
        cases hx
      · rw [Function.update_of_ne hxm] at hx
        exact hheld x q a ((Function.update_of_ne hxm ..).symm.trans (hkeep.held hx))

/-- **A turn of `uvmcopy` that fails.** -/
theorem uvmcopyPage_failed (hne : old ≠ new)
    (hrun : uvmcopyPage s old new np v = .ok (false, s')) : FailedUpTo own lim s s' := by
  have htabo : IsTable own old := ⟨p, Or.inl hold⟩
  have htab := h.pages.table old htabo
  have hlt : v * PGSIZE < MAXVA := by
    simp only [UPAGES, TRAPFRAME, TRAMPOLINE, MAXVA, PGSIZE] at *
    omega
  rcases walk_eq htab hlt with hw | ⟨hw, -⟩
  · rw [page_div] at hw
    rcases h.pages.userEntry htabo hv with h0 | ⟨x, hres⟩ | ⟨slot, hsw⟩
    · rw [h0] at hw
      simp only [uvmcopyPage, hw, ok_bind] at hrun
      cases hrun
    · obtain ⟨res, s₁, hk, hfail, hal⟩ := kallocUser_spec h (page_mod v) (h.victimOk hheld hnonew np)
      have hcopy : uvmcopyPage s old new np v =
          (kallocUser s np (v * PGSIZE) >>= copyInto (s.pte old v) new v) := by
        simp only [uvmcopyPage, hw, ok_bind]
        rw [if_neg (by simp [hres.not_swapped]), if_neg (by simp [hres.valid])]
        rfl
      rw [hcopy, hk, ok_bind] at hrun
      cases res with
      | none =>
          cases hrun
          have hf := hfail rfl
          exact ⟨s', s'.frameTable, own, rfl, hf.wf, hf.keeps, hheld⟩
      | some mem => exact copyInto_failed hheld hnew hv (hal mem rfl) hrun
    · obtain ⟨ok, s₁, own₁, h₁, -, hfail⟩ := copyPage_swapped h hheld hold hnew hne hv hlim hsw hw
      cases hrun.symm.trans h₁
      obtain ⟨hwf, hk, hh⟩ := (hfail rfl).kept (Or.inl hsw.not_valid)
      exact ⟨s', s'.frameTable, own₁, rfl, hwf, hk, hh⟩
  · simp only [uvmcopyPage, hw, ok_bind] at hrun
    cases hrun

end Failed

/-! ### The loop -/

section Loop

variable {old new : Nat}

theorem uvmcopyLoop_add (k m : Nat) : ∀ (v : Nat) (s t : Kernel),
    uvmcopyLoop old new np k v s = .ok (true, t) →
    uvmcopyLoop old new np (k + m) v s = uvmcopyLoop old new np m (v + k) t := by
  induction k with
  | zero =>
      intro v s t h
      cases h
      rw [Nat.zero_add, Nat.add_zero]
  | succ k ih =>
      intro v s t h
      obtain ⟨⟨ok, s₁⟩, h₁, h⟩ := bind_eq_ok.mp h
      cases ok with
      | false =>
          obtain ⟨s₂, -, h⟩ := bind_eq_ok.mp h
          cases h
      | true =>
          rw [Nat.add_right_comm, uvmcopyLoop, h₁, ok_bind]
          rw [show v + (k + 1) = v + 1 + k by omega]
          exact ih (v + 1) s₁ t h

/-- A copy that has come past page `v + j` has copied it. -/
theorem uvmcopyLoop_turn {j k : Nat} {t t' : Kernel} (hjk : j < k)
    (hj : uvmcopyLoop old new np j v s = .ok (true, t))
    (hk : uvmcopyLoop old new np k v s = .ok (true, t')) :
    ∃ s₁, uvmcopyPage t old new np (v + j) = .ok (true, s₁) := by
  obtain ⟨m, rfl⟩ := Nat.exists_eq_add_of_lt hjk
  rw [Nat.add_assoc, uvmcopyLoop_add j (m + 1) v s t hj] at hk
  obtain ⟨⟨ok, s₁⟩, h₁, hk⟩ := bind_eq_ok.mp hk
  cases ok with
  | true => exact ⟨s₁, h₁⟩
  | false =>
      obtain ⟨s₂, -, hk⟩ := bind_eq_ok.mp hk
      cases hk

/-- A copy that fails stops at some page, and unmaps those before it. -/
theorem uvmcopyLoop_stops (n : Nat) : ∀ (v : Nat) (s s' : Kernel),
    uvmcopyLoop old new np n v s = .ok (false, s') → ∃ k t t', k < n ∧
      uvmcopyLoop old new np k v s = .ok (true, t) ∧
      uvmcopyPage t old new np (v + k) = .ok (false, t') ∧
      uvmunmap t' new 0 (v + k) true = .ok s' := by
  induction n with
  | zero =>
      intro v s s' h
      cases h
  | succ n ih =>
      intro v s s' h
      obtain ⟨⟨ok, s₁⟩, h₁, h⟩ := bind_eq_ok.mp h
      cases ok with
      | false =>
          obtain ⟨s₂, h₂, h⟩ := bind_eq_ok.mp h
          cases h
          exact ⟨0, s, s₁, Nat.zero_lt_succ n, rfl, h₁, h₂⟩
      | true =>
          obtain ⟨k, t, t', hk, hloop, hpage, hun⟩ := ih (v + 1) s₁ s' h
          rw [Nat.add_right_comm, Nat.add_assoc] at hpage hun
          refine ⟨k + 1, t, t', by omega, ?_, hpage, hun⟩
          rw [uvmcopyLoop, h₁, ok_bind]
          exact hloop

/-- The pages copied have their slots. -/
theorem uvmcopyLoop_slots (hpn : p ≠ np) : ∀ (n v : Nat) (own : Nat → Owner) (lim : Nat → Nat)
    (s s' : Kernel), Wf own lim s → NoHeld own → NoNew own → own old = .root p →
      own new = .root np → lim new = v → v + n ≤ UPAGES → (∀ r, R r ↔ IsTable own r) →
      uvmcopyLoop old new np n v s = .ok (true, s') → SlotsKept R s s' := by
  intro n
  induction n with
  | zero =>
      intro v own lim s s' _ _ _ _ _ _ _ _ hrun
      cases hrun
      exact slotsKept_same (fun _ _ _ _ => rfl) rfl
  | succ n ih =>
      intro v own lim s s' h hheld hnonew hold hnew hlim hle hR hrun
      have hne : old ≠ new := by
        rintro rfl
        rw [hold] at hnew
        cases hnew
        exact hpn rfl
      have hv : v < UPAGES := by omega
      obtain ⟨b, s₁, own₁, h₁, htrue, -⟩ := uvmcopyPage_spec h hheld hold hnew hne hv hlim hnonew
      obtain ⟨hkept, hlost⟩ := uvmcopyPage_slots h hheld hnonew hold hnew hv hlim hR h₁
      simp only [uvmcopyLoop, h₁, ok_bind] at hrun
      cases b with
      | false =>
          obtain ⟨s₂, -, hrun⟩ := bind_eq_ok.mp hrun
          cases hrun
      | true =>
          have hc := htrue rfl
          have hroots := hc.keeps.roots
          refine (hkept fun hst => ?_).trans (ih (v + 1) own₁ _ s₁ s' hc.wf hc.noHeld
            (hnonew.of_roots hroots) ((hroots p old).1.mpr hold) ((hroots np new).1.mpr hnew)
            (Function.update_self ..) (by omega) (fun r => (hR r).trans (hroots.isTable r).symm) hrun)
          cases (hlost hst).1

end Loop

/-! ### Freeing the child -/

/-- Frames and slots that `freewalk` does not look at. -/
def withTables (s : Kernel) (ft : FrameTable) (sw : Nat → SwapSlot) : Kernel :=
  { s with frameTable := ft, swapSpace := sw }

section Freewalk

variable (ft : FrameTable) (sw : Nat → SwapSlot)

theorem kfree_withTables (h : kfree s pa = .ok s') :
    kfree (withTables s ft sw) pa = .ok (withTables s' ft sw) := by
  unfold kfree at h ⊢
  split at h
  · cases h
  · next hok =>
      cases h
      exact if_neg hok

theorem foldlM_withTables {β : Type} {f : Kernel → β → Except String Kernel}
    (hf : ∀ s x s', f s x = .ok s' → f (withTables s ft sw) x = .ok (withTables s' ft sw)) :
    ∀ (xs : List β) (s s' : Kernel), xs.foldlM f s = .ok s' →
      xs.foldlM f (withTables s ft sw) = .ok (withTables s' ft sw) := by
  intro xs
  induction xs with
  | nil =>
      intro s s' h
      cases h
      rfl
  | cons x xs ih =>
      intro s s' h
      obtain ⟨s₁, h₁, h⟩ := bind_eq_ok.mp h
      rw [List.foldlM_cons, hf s x s₁ h₁, ok_bind]
      exact ih s₁ s' h

theorem freewalkEntry0_withTables {k : Nat} (h : freewalkEntry0 r s k = .ok s') :
    freewalkEntry0 r (withTables s ft sw) k = .ok (withTables s' ft sw) := by
  cases hk : (s.tables r).l0 k with
  | none =>
      have hk' : ((withTables s ft sw).tables r).l0 k = none := hk
      simp only [freewalkEntry0, hk] at h
      cases h
      simp only [freewalkEntry0, hk']
  | some pa =>
      have hk' : ((withTables s ft sw).tables r).l0 k = some pa := hk
      simp only [freewalkEntry0, hk] at h
      obtain ⟨s₁, h₁, h⟩ := bind_eq_ok.mp h
      cases h
      have hwalk : freewalkL0 (withTables s ft sw) r k pa = .ok (withTables s₁ ft sw) := by
        unfold freewalkL0 at h₁ ⊢
        split at h₁
        · cases h₁
        · next hany => exact (if_neg hany).trans (kfree_withTables ft sw h₁)
      simp only [freewalkEntry0, hk', hwalk, ok_bind]
      rfl

theorem freewalkEntry1_withTables {k : Nat} (h : freewalkEntry1 r s k = .ok s') :
    freewalkEntry1 r (withTables s ft sw) k = .ok (withTables s' ft sw) := by
  cases hk : (s.tables r).l1 k with
  | none =>
      have hk' : ((withTables s ft sw).tables r).l1 k = none := hk
      simp only [freewalkEntry1, hk] at h
      cases h
      simp only [freewalkEntry1, hk']
  | some pa =>
      have hk' : ((withTables s ft sw).tables r).l1 k = some pa := hk
      simp only [freewalkEntry1, hk] at h
      obtain ⟨s₁, h₁, h⟩ := bind_eq_ok.mp h
      cases h
      obtain ⟨s₂, h₂, h₁⟩ := bind_eq_ok.mp h₁
      have hfold := foldlM_withTables (f := fun s i => freewalkEntry0 r s (512 * k + i)) ft sw
        (fun _ _ _ hx => freewalkEntry0_withTables ft sw hx) (List.range 512) s s₂ h₂
      have hwalk : freewalkL1 (withTables s ft sw) r k pa = .ok (withTables s₁ ft sw) := by
        simp only [freewalkL1, hfold, ok_bind, kfree_withTables ft sw h₁]
      simp only [freewalkEntry1, hk', hwalk, ok_bind]
      rfl

theorem freewalk_withTables (h : freewalk s r = .ok s') :
    freewalk (withTables s ft sw) r = .ok (withTables s' ft sw) := by
  obtain ⟨s₁, h₁, h⟩ := bind_eq_ok.mp h
  have hfold := foldlM_withTables (f := freewalkEntry1 r) ft sw
    (fun _ _ _ hx => freewalkEntry1_withTables ft sw hx) (List.range 512) s s₁ h₁
  rw [freewalk, hfold, ok_bind, kfree_withTables ft sw h]

end Freewalk

theorem freewalk_same (h : freewalk s r = .ok s') :
    s'.frameTable = s.frameTable ∧ s'.swapSpace = s.swapSpace := by
  have hself : withTables s s.frameTable s.swapSpace = s := rfl
  have hrun := freewalk_withTables s.frameTable s.swapSpace h
  rw [hself, h] at hrun
  have he := Except.ok.inj hrun
  exact ⟨(congrArg Kernel.frameTable he).trans rfl, (congrArg Kernel.swapSpace he).trans rfl⟩

theorem freewalk_withFrames (ft : FrameTable) (h : freewalk s r = .ok s') :
    freewalk (withFrames s ft) r = .ok (withFrames s' ft) := by
  have hself : withTables s ft s.swapSpace = withFrames s ft := rfl
  have hself' : withTables s' ft s'.swapSpace = withFrames s' ft := rfl
  have hrun := freewalk_withTables ft s.swapSpace h
  rwa [hself, ← (freewalk_same h).2, hself'] at hrun

theorem freeTrapframe_withFrames (ft : FrameTable) (h : freeTrapframe s p = .ok s') :
    freeTrapframe (withFrames s ft) p = .ok (withFrames s' ft) ∧
      (s'.procs p).sz = (s.procs p).sz := by
  have htf' : ((withFrames s ft).procs p).trapframe = (s.procs p).trapframe := rfl
  cases htf : (s.procs p).trapframe with
  | none =>
      simp only [freeTrapframe, htf, htf', pure_eq_ok, ok_bind] at h ⊢
      cases h
      exact ⟨rfl, by simp [setProc]⟩
  | some pa =>
      simp only [freeTrapframe, htf, htf'] at h ⊢
      obtain ⟨s₁, h₁, h⟩ := bind_eq_ok.mp h
      cases h
      have hk : kfree (withFrames s ft) pa = .ok (withFrames s₁ ft) ∧ s₁.procs = s.procs := by
        unfold kfree at h₁ ⊢
        split at h₁
        · cases h₁
        · next hok =>
            cases h₁
            exact ⟨if_neg hok, rfl⟩
      rw [hk.1, ok_bind]
      exact ⟨rfl, by simp [setProc, hk.2]⟩

/-- `freeproc` of a process without pages looks at the frame table only to drop frames. -/
theorem freeproc_withFrames (ft : FrameTable) (hsz : (s.procs p).sz = 0)
    (h : freeproc s p = .ok s') : ∃ ft', freeproc (withFrames s ft) p = .ok (withFrames s' ft') := by
  obtain ⟨s₁, h₁, h⟩ := bind_eq_ok.mp h
  obtain ⟨h₁', hsz₁⟩ := freeTrapframe_withFrames ft h₁
  rw [hsz] at hsz₁
  have hpt' : ((withFrames s₁ ft).procs p).pagetable = (s₁.procs p).pagetable := rfl
  have hsz' : ((withFrames s₁ ft).procs p).sz = 0 := hsz₁
  cases hpt : (s₁.procs p).pagetable with
  | none =>
      simp only [hpt] at h
      cases h
      refine ⟨dropFrames ft p, ?_⟩
      simp only [freeproc, h₁', ok_bind, hpt', hpt]
      rfl
  | some r =>
      simp only [hpt, hsz₁] at h
      obtain ⟨s₂, h₂, h⟩ := bind_eq_ok.mp h
      cases h
      obtain ⟨t₁, ht₁, h₂⟩ := bind_eq_ok.mp h₂
      obtain ⟨t₂, ht₂, h₂⟩ := bind_eq_ok.mp h₂
      obtain ⟨ft₁, hft₁⟩ := uvmunmap_withFrames ft ht₁
      obtain ⟨ft₂, hft₂⟩ := uvmunmap_withFrames ft₁ ht₂
      have hfree : ∀ t, uvmfree t r 0 = freewalk t r := fun t => by
        rw [uvmfree, if_neg (Nat.lt_irrefl 0), pure_eq_ok, ok_bind]
      rw [hfree] at h₂
      refine ⟨dropFrames ft₂ p, ?_⟩
      simp only [freeproc, h₁', ok_bind, hpt', hpt, hsz', procFreepagetable, hft₁, hft₂, hfree,
        freewalk_withFrames ft₂ h₂]
      rfl

/-- The slots of a child without pages. -/
theorem freeproc_slots (h : Settled own lim s) (hr : own r = .root p) (hsz : (s.procs p).sz = 0)
    (hrun : freeproc s p = .ok s') : s'.swapSpace = dropSlots s.swapSpace p := by
  have hpt := h.wf.pages.pagetable hr
  obtain ⟨s₁, own₁, h₁, hwf₁, hown₁, hprocs₁, hsame₁, -⟩ := freeTrapframe_spec h.wf p
  have hroots₁ : SameRoots own own₁ := by
    intro q x
    rcases hown₁ x with he | ⟨ht, hf⟩
    · rw [he]
      exact ⟨Iff.rfl, Iff.rfl⟩
    · simp [ht, hf]
  have hr₁ : IsTable own₁ r := (hroots₁.isTable r).mpr ⟨p, Or.inl hr⟩
  have hself : (s₁.procs p).pagetable = some r ∧ (s₁.procs p).sz = 0 := by
    rw [hprocs₁, Function.update_self]
    exact ⟨hpt, hsz⟩
  have htramp : TRAMPOLINE = (UPAGES + 1) * PGSIZE := by decide
  have htf : TRAPFRAME = UPAGES * PGSIZE := by decide
  have h₂ : uvmunmap s₁ r TRAMPOLINE 1 false = .ok (setPte s₁ r (UPAGES + 1) 0) := by
    rw [htramp]
    exact unmapTop_spec hwf₁ hr₁ (by omega) (by decide)
  obtain ⟨hwf₂, -⟩ := hwf₁.setTop (r := r) (v := UPAGES + 1) (e := 0) (by omega)
    (fun hne => absurd rfl hne) (Or.inl rfl)
  have h₃ : uvmunmap (setPte s₁ r (UPAGES + 1) 0) r TRAPFRAME 1 false =
      .ok (setPte (setPte s₁ r (UPAGES + 1) 0) r UPAGES 0) := by
    rw [htf]
    exact unmapTop_spec hwf₂ hr₁ le_rfl (by decide)
  have hfree : ∀ t, uvmfree t r 0 = freewalk t r := fun t => by
    rw [uvmfree, if_neg (Nat.lt_irrefl 0), pure_eq_ok, ok_bind]
  simp only [freeproc, h₁, ok_bind, hself, procFreepagetable, h₂, h₃, hfree] at hrun
  obtain ⟨s₂, h₄, hrun⟩ := bind_eq_ok.mp hrun
  cases hrun
  have hsw : s₂.swapSpace = s₁.swapSpace := (freewalk_same h₄).2
  change dropSlots s₂.swapSpace p = _
  rw [hsw, hsame₁]

theorem freeproc_frames (hrun : freeproc s p = .ok s') (i : Fin MAX_FRAMES) :
    (s'.frameTable i).proc ≠ some p := by
  have hdrop : ∀ t : Kernel, ((resetProc t p).frameTable i).proc ≠ some p := by
    intro t
    change (dropFrames t.frameTable p i).proc ≠ some p
    unfold dropFrames
    split
    · exact fun hf => by cases hf
    · assumption
  obtain ⟨s₁, -, hrun⟩ := bind_eq_ok.mp hrun
  split at hrun
  · cases hrun
    exact hdrop s₁
  · obtain ⟨s₂, -, hrun⟩ := bind_eq_ok.mp hrun
    cases hrun
    exact hdrop s₂

/-! ### `kfork` -/

/-- A used frame is of a process that is there. -/
theorem Settled.frame_live {i : Fin MAX_FRAMES} (h : Settled own lim s)
    (hi : (s.frameTable i).used = true) (hp : (s.frameTable i).proc = some p) :
    (s.procs p).state ≠ .unused := by
  intro hu
  obtain ⟨q, r, hq, hr, -⟩ := h.entry hi
  cases hp.symm.trans hq
  cases ((h.live p).mp hu).symm.trans (h.wf.pages.pagetable hr)

/-- `allocproc` has failed, and given back the slots of the process that it had found. -/
theorem NotSpawned.undone (h : Settled own lim s) (hset : Settled own' lim' s')
    (hns : NotSpawned s s' np) (hold : own r = .root p) :
    (flatMem s' p = flatMem s p ∧ (∀ q, (s'.procs q).state = (s.procs q).state) ∧
      ∀ x, freeProc s = some x → ∀ i, (s'.frameTable i).used = true →
        (s'.frameTable i).proc ≠ some x) ∧ (SlotsNamed s' ↔ SlotsAccounted s) := by
  have hpn := freeProc_ne h hold hns.free
  have hunused := freeProc_some hns.free
  have hpt : (s'.procs np).pagetable = none := (hset.live np).mp hns.state
  have hat : ∀ n, (∃ q v, SwappedAt s' q v n) ↔ ∃ q v, SwappedAt s q v n := by
    intro n
    constructor
    · rintro ⟨q, v, x, hx, hsw, hslot⟩
      have hq : q ≠ np := by
        rintro rfl
        cases hpt.symm.trans hx
      have hx' : (s.procs q).pagetable = some x := (ident_pagetable (hns.others q hq)).symm.trans hx
      obtain ⟨y, hy, hv, -⟩ := hset.swappedAt ⟨x, hx, hsw, hslot⟩
      rw [hns.pte q x v hx' hv] at hsw hslot
      exact ⟨q, v, x, hx', hsw, hslot⟩
    · rintro ⟨q, v, x, hx, hsw, hslot⟩
      have hq : q ≠ np := by
        rintro rfl
        cases ((h.live q).mp hunused).symm.trans hx
      obtain ⟨y, hy, hv, -⟩ := h.swappedAt ⟨x, hx, hsw, hslot⟩
      rw [← hns.pte q x v hx hv] at hsw hslot
      exact ⟨q, v, x, (ident_pagetable (hns.others q hq)).trans hx, hsw, hslot⟩
  refine ⟨⟨?_, fun q => ?_, fun x hx i hi hp => ?_⟩, ?_⟩
  · exact flatMem_apply_congr h (ident_pagetable (hns.others p hpn)) (ident_sz (hns.others p hpn))
      fun x v hx hv => hns.flat p x v (h.wf.pages.pagetable hx) hv
  · by_cases hq : q = np
    · rw [hq, hns.state, hunused]
    · exact ident_state (hns.others q hq)
  · cases hns.free.symm.trans hx
    exact hset.frame_live hi hp hns.state
  · rw [SlotsNamed, SlotsAccounted, hns.free]
    refine forall_congr' fun n => forall_congr' fun hlt => ?_
    rw [hns.swapSpace, hat n]
    by_cases hown : (s.swapSpace n).proc = some np
    · refine iff_of_true (fun hu => ?_) fun _ => Or.inr ⟨np, rfl, hown⟩
      rw [dropSlots, if_pos ⟨hlt, hown⟩] at hu
      cases hu
    · rw [dropSlots, if_neg fun hd => hown hd.2]
      refine imp_congr_right fun _ => ⟨Or.inl, fun hor => hor.resolve_right ?_⟩
      rintro ⟨x, hx, hp⟩
      cases hx
      exact hown hp

/-- The new table names no slot. -/
theorem Spawned.lost_iff {s₁ : Kernel} {own₁ : Nat → Owner} {new : Nat}
    (hset : Settled own₁ lim' s₁) (hsp : Spawned own own₁ s s₁ np new) (n : Nat) :
    Lost (IsTable own₁) s₁ n ↔ Lost (IsTable own) s n := by
  have htab : ∀ x, IsTable own₁ x ↔ IsTable own x ∨ x = new := by
    intro x
    constructor
    · rintro ⟨q, hq⟩
      have hq := hq.resolve_right (hset.noNew x q)
      exact ((hsp.roots q x).mp hq).imp (fun hq => ⟨q, Or.inl hq⟩) And.left
    · rintro (⟨q, hq⟩ | rfl)
      · exact ⟨q, hsp.ext.owns hq⟩
      · exact ⟨np, Or.inl hsp.root⟩
  unfold Lost
  rw [hsp.ext.swapSpace]
  refine and_congr_right fun _ => and_congr_right fun _ => ⟨fun hno r v hr hv hsw => ?_,
    fun hno r v hr hv hsw => ?_⟩
  · exact hno r v ((htab r).mpr (Or.inl hr)) hv (by rwa [hsp.ext.pte r hr v hv])
  · rcases (htab r).mp hr with hr | rfl
    · exact hno r v hr hv (by rwa [hsp.ext.pte r hr v hv] at hsw)
    · exact hsw.not_zero (hsp.pte v hv)

/-- Freeing a child without pages gives back the slots of the child, and no others. -/
theorem freeproc_lost {lim₃ : Nat → Nat} {own₃ : Nat → Owner} (h : Settled own lim s)
    (hr : own r = .root p) (hsz : (s.procs p).sz = 0) (hset : Settled own₃ lim₃ s')
    (hf : ProcFreed own own₃ s s' p) (hrun : freeproc s p = .ok s') (n : Nat) :
    Lost (IsTable own₃) s' n ↔ Lost (IsTable own) s n ∧ (s.swapSpace n).proc ≠ some p := by
  have hsw := freeproc_slots h hr hsz hrun
  have hpt := h.wf.pages.pagetable hr
  have htab : ∀ x, IsTable own₃ x ↔ IsTable own x ∧ x ≠ r := by
    intro x
    constructor
    · rintro ⟨q, hq⟩
      obtain ⟨hq, hne⟩ := (hf.root q x).mp (hq.resolve_right (hset.noNew x q))
      refine ⟨⟨q, Or.inl hq⟩, ?_⟩
      rintro rfl
      cases hr.symm.trans hq
      exact hne rfl
    · rintro ⟨⟨q, hq⟩, hne⟩
      have hq := hq.resolve_right (h.noNew x q)
      refine ⟨q, Or.inl ((hf.root q x).mpr ⟨hq, ?_⟩)⟩
      rintro rfl
      exact hne (h.wf.pages.root_unique hr hq)
  obtain ⟨hb, -⟩ := freeproc_beside (R := fun x => x = r)
    (fun x hx => Option.some.inj (hx.symm.trans hpt)) hrun
  have hpte : ∀ x v, x ≠ r → s'.pte x v = s.pte x v := fun x v hx => by
    rw [Kernel.pte, hb.tables x hx]
    rfl
  have hzero : ∀ v, v < UPAGES → s.pte r v = 0 := fun v hv =>
    h.wf.pte_above ⟨p, Or.inl hr⟩ (by rw [h.sized p r hr, hsz]; exact Nat.zero_le v) hv
  have hnames : (∀ x v, IsTable own₃ x → v < UPAGES → ¬ Swapped (s'.pte x v) n) ↔
      ∀ x v, IsTable own x → v < UPAGES → ¬ Swapped (s.pte x v) n := by
    constructor
    · intro hno x v hx hv hs
      have hxr : x ≠ r := by
        rintro rfl
        exact hs.not_zero (hzero v hv)
      exact hno x v ((htab x).mpr ⟨hx, hxr⟩) hv (by rwa [hpte x v hxr])
    · intro hno x v hx hv hs
      obtain ⟨hx, hxr⟩ := (htab x).mp hx
      exact hno x v hx hv (by rwa [hpte x v hxr] at hs)
  unfold Lost
  rw [hnames, hsw]
  by_cases hd : n < MAX_SWAP ∧ (s.swapSpace n).proc = some p
  · refine iff_of_false (fun hl => ?_) fun hl => hl.2 hd.2
    simp [dropSlots, hd] at hl
  · rw [dropSlots, if_neg hd]
    exact ⟨fun hl => ⟨hl, fun hp => hd ⟨hl.1, hp⟩⟩, And.left⟩

section Stopped

variable {old new k : Nat} {s₁ s₂ t t' : Kernel} {own₁ : Nat → Owner} {lim₁ : Nat → Nat}
  (h : Settled own lim s) (hold : own old = .root p) (hset : Settled own₁ lim₁ s₁)
  (hsp : Spawned own own₁ s s₁ np new) (hk : k < npages (s.procs p).sz)
  (hloop : uvmcopyLoop old new np k 0 s₁ = .ok (true, t))

include h hold hset hsp hk hloop

/-- The state in which the turn for page `k` starts. -/
theorem copied_state : ∃ ownt, PagesCopied own₁ ownt lim₁ s₁ t np old new 0 k ∧
    Wf ownt (Function.update lim₁ new k) t ∧ NoNew ownt ∧ ownt old = .root p ∧
    ownt new = .root np ∧ SlotsKept (IsTable own₁) s₁ t := by
  have hpn : p ≠ np := freeProc_ne h hold hsp.free
  have hold₁ : own₁ old = .root p := (hsp.roots p old).mpr (Or.inl hold)
  have hlim : lim₁ new = 0 := by
    rw [hset.sized np new hsp.root, hsp.sz]
    rfl
  have hkU : k < UPAGES := hk.trans_le (npages_le (h.sz_le p))
  obtain ⟨ownt, hcopy⟩ := (uvmcopyLoop_spec hpn k 0 own₁ lim₁ s₁ t true hset.wf hset.noHeld
    hset.noNew hold₁ hsp.root hlim (by omega) hloop).1 rfl
  have hroots := hcopy.keeps.roots
  have hwf := hcopy.wf
  rw [Nat.zero_add] at hwf
  exact ⟨ownt, hcopy, hwf, hset.noNew.of_roots hroots, (hroots p old).1.mpr hold₁,
    (hroots np new).1.mpr hsp.root, uvmcopyLoop_slots hpn k 0 own₁ lim₁ s₁ t hset.wf hset.noHeld
      hset.noNew hold₁ hsp.root hlim (by omega) (fun _ => Iff.rfl) hloop⟩

omit hset hk hloop in
theorem old_ne_new : old ≠ new := by
  rintro rfl
  cases hsp.root.symm.trans ((hsp.roots p old).mpr (Or.inl hold))
  exact freeProc_ne h hold hsp.free rfl

/-- A turn that starves fails. -/
theorem starves_stops (hst : Starves t old new k) :
    ∃ t', uvmcopyPage t old new np k = .ok (false, t') := by
  have hkU : k < UPAGES := hk.trans_le (npages_le (h.sz_le p))
  have hne := old_ne_new h hold hsp
  obtain ⟨ownt, hcopy, hwf, hnonew, hold, hnew, -⟩ := copied_state h hold hset hsp hk hloop
  obtain ⟨ok, t', -, hpage, -⟩ := uvmcopyPage_spec hwf hcopy.noHeld hold hnew
    hne hkU (Function.update_self ..) hnonew
  obtain ⟨rfl, -⟩ := (uvmcopyPage_slots hwf hcopy.noHeld hnonew hold hnew hkU
    (Function.update_self ..) (fun _ => Iff.rfl) hpage).2 hst
  exact ⟨t', hpage⟩

variable (hpage : uvmcopyPage t old new np k = .ok (false, t'))
  (hun : uvmunmap t' new 0 k true = .ok s₂) (hfree : freeproc s₂ np = .ok s')

include hpage hun hfree

/-- **The copy has stopped at page `k`**: all is undone, but for the slot of a turn that starves; and the
slots that were lost before are found again if they are the child's. -/
theorem stopped_undone :
    (flatMem s' p = flatMem s p ∧ (∀ q, (s'.procs q).state = (s.procs q).state) ∧
      ∀ i, (s'.frameTable i).proc ≠ some np) ∧
    (SlotsNamed s' ↔ SlotsAccounted s ∧ ¬ Starves t old new k) := by
  have hpn : p ≠ np := freeProc_ne h hold hsp.free
  have hne := old_ne_new h hold hsp
  have hkU : k < UPAGES := hk.trans_le (npages_le (h.sz_le p))
  -- the pages before `k` are copied
  obtain ⟨ownt, hcopy, hwft, hnonewt, holdt, hnewt, hkept⟩ := copied_state h hold hset hsp hk hloop
  have hroott := hcopy.keeps.roots
  have hR : ∀ r, IsTable own₁ r ↔ IsTable ownt r := fun r => (hroott.isTable r).symm
  obtain ⟨hclean, hstarve⟩ := uvmcopyPage_slots hwft hcopy.noHeld hnonewt holdt hnewt hkU
    (Function.update_self ..) hR hpage
  -- page `k` is not, and the pages before it are unmapped
  obtain ⟨u, ft, ownu, rfl, hwfu, hku, hheldu⟩ := uvmcopyPage_failed hwft hcopy.noHeld hnonewt holdt
    hnewt hkU (Function.update_self ..) hne hpage
  have hrootu := hroott.trans hku.roots
  have htabu : IsTable ownu new := ⟨np, Or.inl ((hrootu np new).1.mpr hsp.root)⟩
  obtain ⟨u₂, own₂, hun₂, hu⟩ := uvmunmap_spec hwfu htabu 0 k (by omega)
  have hslots := uvmunmap_slots (R := IsTable own₁) hwfu htabu ⟨np, Or.inl hsp.root⟩ (by omega) hun₂
  rw [Nat.zero_mul] at hun₂
  obtain ⟨ft₂, hft₂⟩ := uvmunmap_withFrames ft hun₂
  cases hun.symm.trans hft₂
  -- the child is freed
  have hkeeps : Keeps (fun r _ => r = new) own₁ own₂ s₁ u₂ :=
    (hcopy.keeps.trans hku fun r w ht => ht.elim id False.elim).trans hu.keeps
      fun r w ht => ht.elim And.left And.left
  have hwf₂ : Wf own₂ (Function.update lim₁ new 0) u₂ := by
    have hwf := hu.wf.setLim (r := new) (n := 0) (Nat.zero_le _) fun w _ hw => ?_
    · rwa [Function.update_idem] at hwf
    · by_cases hwk : w < k
      · exact hu.pte_in w ⟨Nat.zero_le w, by omega⟩
      · exact hu.wf.pte_above ((hu.isTable new).mpr htabu)
          (by rw [Function.update_self]; omega) hw
  have hheld₂ : NoHeld own₂ := by
    intro x q a hx
    rcases hu.owner x with he | ⟨-, he⟩
    · exact hheldu x q a (he.symm.trans hx)
    · cases he.symm.trans hx
  have hsz : (u₂.procs np).sz = 0 := (hkeeps.procs.sz np).trans hsp.sz
  have hset₂ := hset.resize (n := 0) hsp.root hkeeps.procs hkeeps.roots hheld₂ (Nat.zero_le _) hwf₂
  rw [← hsz, withSize_self] at hset₂
  have hroot₂ : own₂ new = .root np := (hkeeps.roots np new).1.mpr hsp.root
  obtain ⟨u₃, own₃, hfree₃, hset₃, hpf⟩ := freeproc_spec hset₂ hroot₂
  obtain ⟨ft₃, hft₃⟩ := freeproc_withFrames ft₂ hsz hfree₃
  have hframes := freeproc_frames hfree
  cases hfree.symm.trans hft₃
  have hident : ∀ q, q ≠ np → (u₃.procs q).ident = (s.procs q).ident := fun q hq => by
    rw [hpf.others q hq, hkeeps.procs.ident, hsp.others q hq]
  refine ⟨⟨?_, fun q => ?_, hframes⟩, ?_⟩
  · change flatMem u₃ p = flatMem s p
    refine flatMem_apply_congr h (ident_pagetable (hident p hpn))
      (ident_sz (hident p hpn)) fun r v hr hv => ?_
    have hr₁ : own₁ r = .root p := (hsp.roots p r).mpr (Or.inl hr)
    have hrn : r ≠ new := by
      rintro rfl
      cases hsp.root.symm.trans hr₁
      exact hpn rfl
    rw [hpf.flat p r v ((hkeeps.roots p r).1.mpr hr₁) hpn hv,
      hkeeps.flat r v ⟨p, Or.inl hr₁⟩ hv hrn, hsp.ext.flat h.wf ⟨p, Or.inl hr⟩ hv]
  · by_cases hq : q = np
    · rw [hq, freeProc_some hsp.free]
      exact hpf.state
    · exact ident_state (hident q hq)
  · have htab₂ : ∀ n, Lost (IsTable own₂) u₂ n ↔ Lost (IsTable own₁) u₂ n := fun n => by
      unfold Lost
      simp only [hkeeps.roots.isTable]
    have hend := fun n => freeproc_lost hset₂ hroot₂ hsz hset₃ hpf hfree₃ n
    change SlotsNamed u₃ ↔ _
    rw [hset₃.slotsNamed_iff]
    by_cases hst : Starves t old new k
    · -- the slot that the turn has taken is nobody's
      refine iff_of_false (fun hno => ?_) fun hboth => hboth.2 hst
      obtain ⟨-, n, hn, hproc⟩ := hstarve hst
      refine hno n ((hend n).mpr ⟨(htab₂ n).mpr ((hslots.lost n).mpr hn), ?_⟩)
      rw [hslots.slot n hn]
      exact fun hp => by cases (show (u.swapSpace n).proc = none from hproc).symm.trans hp
    · -- what was lost before the fork is lost until the child is freed
      have hslots' : SlotsKept (IsTable own₁) (withFrames u ft) u₂ := ⟨hslots.lost, hslots.slot⟩
      obtain ⟨hlost, hslot⟩ := (hkept.trans (hclean hst)).trans hslots'
      have hstart : ∀ n, Lost (IsTable own₂) u₂ n ↔ Lost (IsTable own) s n := fun n =>
        (htab₂ n).trans ((hlost n).trans (hsp.lost_iff hset n))
      have hproc : ∀ n, Lost (IsTable own) s n → (u₂.swapSpace n).proc = (s.swapSpace n).proc := fun n hn => by
        rw [hslot n ((hsp.lost_iff hset n).mpr hn), hsp.ext.swapSpace]
      rw [h.slotsAccounted_iff, hsp.free, and_iff_left hst]
      constructor
      · intro hno n hn
        refine ⟨np, rfl, ?_⟩
        by_contra hown
        exact hno n ((hend n).mpr ⟨(hstart n).mpr hn, fun hp => hown ((hproc n hn).symm.trans hp)⟩)
      · intro hown n hn
        obtain ⟨hn, hne⟩ := (hend n).mp hn
        obtain ⟨x, hx, hp⟩ := hown n ((hstart n).mp hn)
        cases hx
        exact hne ((hproc n ((hstart n).mp hn)).trans hp)

end Stopped

/-- The copy of some page starves, when the pages before it have been copied. -/
def LosesSlot (s : Kernel) (p : ProcId) : Prop :=
  ∃ np s₁ old new k t, allocproc s = .ok (some np, s₁) ∧ (s₁.procs p).pagetable = some old ∧
    (s₁.procs np).pagetable = some new ∧ k < npages (s₁.procs p).sz ∧
    uvmcopyLoop old new np k 0 s₁ = .ok (true, t) ∧ Starves t old new k

/-- A `kfork` that fails leaves the memory, the processes and the frames as it should, and loses a
slot just when the copy of a page starves. -/
theorem kfork_failed (h : Coherent s) (hp : (s.procs p).state ≠ .unused)
    (hrun : kfork s p = .ok (none, s')) :
    (flatMem s' p = flatMem s p ∧ (∀ q, (s'.procs q).state = (s.procs q).state) ∧
      ∀ np, freeProc s = some np → ∀ i, (s'.frameTable i).used = true →
        (s'.frameTable i).proc ≠ some np) ∧ (SlotsNamed s' ↔ SlotsAccounted s ∧ ¬ LosesSlot s p) := by
  obtain ⟨own, lim, h⟩ := h
  obtain ⟨old, hold⟩ := h.exists_root hp
  obtain ⟨⟨res, s₁⟩, h₁, hrun⟩ := bind_eq_ok.mp hrun
  obtain ⟨hnone, hsome⟩ := allocproc_spec h h₁
  cases res with
  | none =>
      cases hrun
      have hno : ¬ LosesSlot s p := by
        rintro ⟨np, s₂, -, -, -, -, h₂, -⟩
        cases h₁.symm.trans h₂
      rw [and_iff_left hno]
      rcases hnone rfl with ⟨hfull, rfl⟩ | ⟨np, own', lim', hset, hns⟩
      · refine ⟨⟨rfl, fun _ => rfl, fun np hnp i hi hpi => ?_⟩, ?_⟩
        · exact h.frame_live hi hpi (freeProc_some hnp)
        · refine forall_congr' fun n => imp_congr_right fun _ => imp_congr_right fun _ => ⟨Or.inl, ?_⟩
          rintro (hn | ⟨x, hx, -⟩)
          · exact hn
          · cases hfull.symm.trans hx
      · exact hns.undone h hset hold
  | some np =>
      obtain ⟨own₁, lim₁, new, hset, hsp⟩ := hsome np rfl
      have hpn : p ≠ np := freeProc_ne h hold hsp.free
      have hpt₁ := hset.wf.pages.pagetable ((hsp.roots p old).mpr (Or.inl hold))
      have hptn := hset.wf.pages.pagetable hsp.root
      have hszp : (s₁.procs p).sz = (s.procs p).sz := ident_sz (hsp.others p hpn)
      simp only [hpt₁, hptn] at hrun
      obtain ⟨⟨ok, s₂⟩, h₂, hrun⟩ := bind_eq_ok.mp hrun
      cases ok with
      | true => cases hrun
      | false =>
          obtain ⟨s₃, h₃, hrun⟩ := bind_eq_ok.mp hrun
          cases hrun
          rw [uvmcopy, hszp] at h₂
          obtain ⟨k, t, t', hk, hloop, hpage, hun⟩ := uvmcopyLoop_stops _ 0 s₁ s₂ h₂
          rw [Nat.zero_add] at hpage hun
          obtain ⟨⟨hmem, hprocs, hframes⟩, hslots⟩ := stopped_undone h hold hset hsp hk hloop hpage
            hun h₃
          -- the copy stops at one page only
          have hloses : LosesSlot s p ↔ Starves t old new k := by
            refine ⟨?_, fun hst => ⟨np, s₁, old, new, k, t, h₁, hpt₁, hptn, by rwa [hszp], hloop, hst⟩⟩
            rintro ⟨np', s₁', old', new', j, t₂, hal, hold', hnew', hj, hloop', hst⟩
            cases h₁.symm.trans hal
            cases hpt₁.symm.trans hold'
            cases hptn.symm.trans hnew'
            rw [hszp] at hj
            rcases Nat.lt_trichotomy j k with hjk | rfl | hkj
            · obtain ⟨s₄, h₄⟩ := uvmcopyLoop_turn hjk hloop' hloop
              obtain ⟨t₃, h₅⟩ := starves_stops h hold hset hsp hj hloop' hst
              rw [Nat.zero_add] at h₄
              cases h₄.symm.trans h₅
            · cases hloop.symm.trans hloop'
              exact hst
            · obtain ⟨s₄, h₄⟩ := uvmcopyLoop_turn hkj hloop hloop'
              rw [Nat.zero_add] at h₄
              cases h₄.symm.trans hpage
          rw [hloses]
          refine ⟨⟨hmem, hprocs, fun x hx i _ => ?_⟩, hslots⟩
          cases hsp.free.symm.trans hx
          exact hframes i

/-- The kernel after a run of the first process, which has 33 pages or will have them. -/
def scarceAfter (ops : List KernelOp) : Kernel :=
  stateAfter (run kernelStep ops (scarceFirst 42)) (scarceFirst 42)

theorem scarceAfter_coherent {ops : List KernelOp} (hm : Meets kernelStep KernelOp.Supplied ops (scarceFirst 42))
    (hrun : (run kernelStep ops (scarceFirst 42)).toOption.isSome = true) : Coherent (scarceAfter ops) := by
  obtain ⟨hcoh, -⟩ := scarceFirst_exact (n := 42)
    (scarceKernel_fresh (by decide) (by decide)) (by decide +kernel)
  obtain ⟨rs, hrun⟩ : ∃ rs, run kernelStep ops (scarceFirst 42) = .ok (rs, scarceAfter ops) :=
    eq_ok_stateAfter (scarceFirst 42) hrun
  exact run_invariant (fun o s r s' ho hI hs => kernelStep_coherent hI ho hs) _ _ _ _ hm hcoh hrun

/-- The first process has 33 pages, the second of them swapped out, and four pages are left. -/
def pressedKernel : Kernel := scarceAfter [.grow firstProc (33 * 4096), .fault firstProc 0]

theorem pressedKernel_coherent : Coherent pressedKernel :=
  scarceAfter_coherent (by decide +kernel) (by decide +kernel)

/-- The page table of the child that it will not have. -/
def childRoot : Nat :=
  (((stateAfter (allocproc pressedKernel) pressedKernel).procs secondProc).pagetable).getD 0

/-- The first process has 33 pages, the first of them swapped out, and four pages are left. -/
def starvedKernel : Kernel := scarceAfter [.grow firstProc (33 * 4096)]

end Xv6.Vm
