import Xv6.Lib.Count
import Xv6.Vm.Kill

/-!
# Vm — Resident

Whether `resident_pages` counts the pages that a process has in memory.

An eviction, a fault and a shrink change the counter together with the entries.  `uvmalloc` and
`uvmcopy` enter pages without counting them.

* `gap s p r`: what the counter of `p` says beyond the valid entries of its table `r`.
* `kallocUser_gap`, `vmfault_gap`, `uvmdealloc_gap`: the operations that keep every gap.
* `Beside`: what a function that works on the table of a new process leaves alone.
* `resident_accurate`: the counter is right in every run in which no eager `sbrk` enters a page and
  no process with a page in memory forks.
-/

namespace Xv6.Vm
open Xv6.Lib
open Xv6.Raid (Page zeroPage PGSIZE BLOCKS_PER_PAGE MAX_SWAP)

variable {own own' : Nat → Owner} {lim lim' : Nat → Nat} {s s' : Kernel} {p q np : ProcId}
  {r v pa va : Nat}

/-! ### The counter and the entries -/

/-- The number of valid entries among the first `n` of table `r`. -/
def validPages (s : Kernel) (r n : Nat) : Nat := Nat.count (fun v => (s.pte r v).has PTE_V = true) n

/-- `resident_pages` is the number of the pages that each process has in memory. -/
def Accurate (s : Kernel) : Prop :=
  ∀ p r, (s.procs p).pagetable = some r →
    (s.procs p).residentPages = validPages s r (npages (s.procs p).sz)

instance decidableAccurate (s : Kernel) : Decidable (Accurate s) :=
  inferInstanceAs (Decidable (∀ p, ∀ r ∈ (s.procs p).pagetable,
    (s.procs p).residentPages = validPages s r (npages (s.procs p).sz)))

/-- What the counter of `p` says beyond the valid entries of table `r`. -/
def gap (s : Kernel) (p : ProcId) (r : Nat) : Int :=
  (s.procs p).residentPages - validPages s r UPAGES

theorem validPages_congr {n : Nat} (h : ∀ v, v < n → s'.pte r v = s.pte r v) :
    validPages s' r n = validPages s r n :=
  count_congr fun v hv => by rw [h v hv]

theorem gap_congr (hres : (s'.procs p).residentPages = (s.procs p).residentPages)
    (hpte : ∀ v, v < UPAGES → s'.pte r v = s.pte r v) : gap s' p r = gap s p r := by
  rw [gap, gap, hres, validPages_congr hpte]

/-- The pages of a process are below its size. -/
theorem Settled.validPages_eq (h : Settled own lim s) (hr : own r = .root p) :
    validPages s r (npages (s.procs p).sz) = validPages s r UPAGES := by
  refine (count_eq_of_false (npages_le (h.sz_le p)) fun v hv hlt hval => ?_).symm
  have hzero := h.wf.pte_above ⟨p, Or.inl hr⟩ (by rw [h.sized p r hr]; exact hv) hlt
  rw [hzero] at hval
  cases hval

theorem Settled.accurate_iff (h : Settled own lim s) :
    Accurate s ↔ ∀ p r, own r = .root p → gap s p r = 0 := by
  constructor
  · intro ha p r hr
    have := ha p r (h.wf.pages.pagetable hr)
    rw [h.validPages_eq hr] at this
    rw [gap, this, sub_self]
  · intro hg p r hr
    have hroot := h.wf.pages.own_root hr
    have := hg p r hroot
    rw [gap] at this
    rw [h.validPages_eq hroot]
    omega

/-! ### `kalloc_user` -/

/-- It changes no entry and no counter, or it evicts a page. -/
theorem kallocUser_effect {res : Option Nat} (h : Wf own lim s) (hvict : VictimOk own s p)
    (hrun : kallocUser s p va = .ok (res, s')) :
    (s'.tables = s.tables ∧ s'.procs = s.procs ∧ s'.swapSpace = s.swapSpace) ∨
      ∃ i ft hand q r slot raid, s' = evictFrame s p va i ft hand q r slot raid ∧
        slot < MAX_SWAP ∧ (s.swapSpace slot).used = false ∧ own r = .root q ∧ (ft i).va / PGSIZE < UPAGES ∧
        Resident (s.pte r ((ft i).va / PGSIZE)) (ft i).pa := by
  cases hff : freeFrame s.frameTable with
  | some i =>
      cases hfree : s.freelist with
      | nil =>
          cases hrun.symm.trans (kallocUser_null hff hfree)
          exact Or.inl ⟨rfl, rfl, rfl⟩
      | cons pa rest =>
          cases hrun.symm.trans (kallocUser_free hff hfree)
          exact Or.inl ⟨rfl, rfl, rfl⟩
  | none =>
      obtain ⟨i, ft, hand, q, r, hpick, -, hq, hroot, huser⟩ := h.victim hvict hff
      cases hfs : freeSlot s with
      | none =>
          cases hrun.symm.trans (kallocUser_full hff hpick hfs)
          exact Or.inl ⟨rfl, rfl, rfl⟩
      | some slot =>
          obtain ⟨hslot, hunused⟩ := freeSlot_some hfs
          obtain ⟨raid, hwrite, -, -⟩ := raidWrite_slot h.raid hslot (s.mem (ft i).pa)
          obtain ⟨hr, hvu, hres⟩ := (h.pages.user (r, (ft i).va / PGSIZE) (ft i).pa).mp huser
          have hwalk := walk_resident h.pages hr rfl hres hvu
          cases hrun.symm.trans (kallocUser_evict hff hpick hfs hq
            ((h.pages.root q r).mp hroot) hwalk hres.valid h.kend_pos
            (h.pages.range _ (by simp [huser])) hwrite)
          exact Or.inr ⟨i, ft, hand, q, r, slot, raid, rfl, hslot, hunused, hroot, hvu, hres⟩

theorem evictFrame_resident (s : Kernel) (p : ProcId) (va : Nat) (i : Fin MAX_FRAMES)
    (ft : FrameTable) (hand : Fin MAX_FRAMES) (q : ProcId) (r slot : Nat) (raid : Raid.State)
    (x : ProcId) : ((evictFrame s p va i ft hand q r slot raid).procs x).residentPages =
      if x = q then (s.procs x).residentPages - 1 else (s.procs x).residentPages := by
  have hcredit : ∀ y, ((creditWrite s p (swapLatency s.swapHead (slot * BLOCKS_PER_PAGE))).procs
      y).residentPages = (s.procs y).residentPages := by
    intro y
    by_cases hy : y = p
    · subst hy
      simp [creditWrite, setProc]
    · simp [creditWrite, setProc, hy]
  by_cases hx : x = q
  · subst hx
    simp [evictFrame, countEviction, setProc, hcredit]
  · simp [evictFrame, countEviction, setProc, hx, hcredit]

/-- The victim's entry is no longer valid, and its process has one page less. -/
theorem kallocUser_gap {res : Option Nat} (h : Wf own lim s) (hvict : VictimOk own s p)
    (hrun : kallocUser s p va = .ok (res, s')) (hr : own r = .root q) : gap s' q r = gap s q r := by
  rcases kallocUser_effect h hvict hrun with ⟨htables, hprocs, -⟩ |
    ⟨i, ft, hand, x, t, slot, raid, rfl, hslot, -, ht, hvu, hres⟩
  · exact gap_congr (by rw [hprocs]) fun v _ => by rw [Kernel.pte, Kernel.pte, htables]
  · set w := (ft i).va / PGSIZE with hw
    have hpte : ∀ a b, (evictFrame s p va i ft hand x t slot raid).pte a b =
        if a = t ∧ b = w then swapOutPte slot (s.pte t w) else s.pte a b := pte_setPte s t w _
    by_cases hrt : r = t
    · subst hrt
      have hqx : q = x := Owner.root.inj (hr.symm.trans ht)
      subst hqx
      have hcount : validPages s r UPAGES =
          validPages (evictFrame s p va i ft hand q r slot raid) r UPAGES + 1 := by
        refine count_add_one hvu ?_ hres.valid fun b hb => ?_
        · rw [hpte, if_pos ⟨rfl, rfl⟩]
          simp [(swapOutPte_swapped (hslot.trans_le (by decide)) _).not_valid]
        · rw [hpte, if_neg fun he => hb he.2]
      rw [gap, gap, evictFrame_resident, if_pos rfl, hcount]
      push_cast
      omega
    · have hqx : q ≠ x := by
        rintro rfl
        exact hrt (h.pages.root_unique ht hr)
      refine gap_congr ?_ fun b _ => by rw [hpte, if_neg fun he => hrt he.1]
      rw [evictFrame_resident, if_neg hqx]

/-! ### Functions on page tables -/

/-- No process has changed, and no table outside `R`. -/
structure OnTables (R : Nat → Prop) (s s' : Kernel) : Prop where
  procs : s'.procs = s.procs
  tables : ∀ x, ¬ R x → s'.tables x = s.tables x

variable {R : Nat → Prop}

theorem OnTables.refl (R : Nat → Prop) (s : Kernel) : OnTables R s s := ⟨rfl, fun _ _ => rfl⟩

theorem OnTables.trans {s₁ : Kernel} (h : OnTables R s s₁) (h' : OnTables R s₁ s') :
    OnTables R s s' :=
  ⟨h'.procs.trans h.procs, fun x hx => (h'.tables x hx).trans (h.tables x hx)⟩

theorem onTables_setTable (hr : R r) (s : Kernel) (t : PageTable) : OnTables R s (setTable s r t) := by
  refine ⟨rfl, fun x hx => Function.update_of_ne ?_ ..⟩
  rintro rfl
  exact hx hr

theorem kfree_onTables (h : kfree s pa = .ok s') : OnTables R s s' := by
  unfold kfree at h
  split at h
  · cases h
  · cases h
    exact ⟨rfl, fun _ _ => rfl⟩

theorem kalloc_onTables (s : Kernel) : OnTables R s (kalloc s).2 := by
  unfold kalloc
  split
  · exact ⟨rfl, fun _ _ => rfl⟩
  · exact ⟨rfl, fun _ _ => rfl⟩

theorem walkL1_onTables (hr : R r) (s : Kernel) (k : Nat) : OnTables R s (walkL1 s r k).2 := by
  have hk := kalloc_onTables (R := R) s
  unfold walkL1
  split
  · exact .refl R s
  · split
    · next s₁ h₁ =>
        rw [h₁] at hk
        exact hk
    · next pa s₁ h₁ =>
        rw [h₁] at hk
        exact hk.trans (onTables_setTable hr ..)

theorem walkL0_onTables (hr : R r) (s : Kernel) (k : Nat) : OnTables R s (walkL0 s r k).2 := by
  have hk := kalloc_onTables (R := R) s
  unfold walkL0
  split
  · exact .refl R s
  · split
    · next s₁ h₁ =>
        rw [h₁] at hk
        exact hk
    · next pa s₁ h₁ =>
        rw [h₁] at hk
        exact hk.trans (onTables_setTable hr ..)

theorem walkAlloc_onTables {x : Bool × Kernel} (hr : R r) (h : walkAlloc s r va = .ok x) :
    OnTables R s x.2 := by
  have h₁ := walkL1_onTables hr s (va / 2 ^ 30)
  unfold walkAlloc at h
  split at h
  · cases h
  · split at h
    · next s₁ he =>
        cases h
        rwa [he] at h₁
    · next s₁ he =>
        cases h
        rw [he] at h₁
        exact h₁.trans (walkL0_onTables hr ..)

theorem mappagesLoop_onTables {perm : Pte} (hr : R r) :
    ∀ (n : Nat) (s : Kernel) (a pa : Nat) (x : Bool × Kernel),
      mappagesLoop r perm n s a pa = .ok x → OnTables R s x.2 := by
  intro n
  induction n with
  | zero =>
      intro s a pa x h
      cases h
      exact .refl R s
  | succ n ih =>
      intro s a pa x h
      obtain ⟨⟨found, s₁⟩, h₁, h⟩ := bind_eq_ok.mp h
      have h₁' : OnTables R s s₁ := walkAlloc_onTables hr h₁
      simp only at h
      split at h
      · cases h
        exact h₁'
      · split at h
        · cases h
        · exact (h₁'.trans (onTables_setTable hr ..)).trans (ih _ _ _ x h)

theorem mappages_onTables {perm : Pte} {size : Nat} {x : Bool × Kernel} (hr : R r)
    (h : mappages s r va size pa perm = .ok x) : OnTables R s x.2 := by
  unfold mappages at h
  split at h
  · cases h
  · split at h
    · cases h
    · split at h
      · cases h
      · exact mappagesLoop_onTables hr _ _ _ _ _ h

theorem uvmunmapPage_onTables {doFree : Bool} {a : Nat} (hr : R r)
    (h : uvmunmapPage s r doFree a = .ok s') : OnTables R s s' := by
  obtain ⟨e, -, h⟩ := bind_eq_ok.mp h
  cases e with
  | none =>
      cases h
      exact .refl R s
  | some e =>
      simp only at h
      split at h
      · cases h
        have h₀ : OnTables R s (swapFree s (swapIdx e)) := ⟨rfl, fun _ _ => rfl⟩
        exact h₀.trans (onTables_setTable hr ..)
      · split at h
        · cases h
          exact .refl R s
        · split at h
          · obtain ⟨s₁, h₁, h⟩ := bind_eq_ok.mp h
            cases h
            have h₀ : OnTables R s { s with frameTable := dropFrame s.frameTable (pte2Pa e) } :=
              ⟨rfl, fun _ _ => rfl⟩
            exact (h₀.trans (kfree_onTables h₁)).trans (onTables_setTable hr ..)
          · cases h
            exact onTables_setTable hr ..

/-- A loop whose body works on the tables in `R`. -/
theorem foldlM_onTables {β : Type} {f : Kernel → β → Except String Kernel}
    (hf : ∀ s x s', f s x = .ok s' → OnTables R s s') (l : List β) (s s' : Kernel)
    (h : l.foldlM f s = .ok s') : OnTables R s s' :=
  foldlM_invariant (I := fun t => OnTables R s t) (fun t x t' ht hx => ht.trans (hf t x t' hx)) l s s'
    (.refl R s) h

theorem uvmunmap_onTables {n : Nat} {doFree : Bool} (hr : R r)
    (h : uvmunmap s r va n doFree = .ok s') : OnTables R s s' := by
  unfold uvmunmap at h
  split at h
  · cases h
  · exact foldlM_onTables (fun _ _ _ hx => uvmunmapPage_onTables hr hx) _ _ _ h

/-! ### `vmfault` -/

/-- A page of `p` is entered and counted. -/
theorem gap_enter {e : Pte} (h : Wf own lim s) (hr : own r = .root p) (hv : v < UPAGES)
    (hold : (s.pte r v).has PTE_V = false) (hnew : e.has PTE_V = true)
    (hpte : ∀ a b, s'.pte a b = if a = r ∧ b = v then e else s.pte a b)
    (hres : ∀ x, (s'.procs x).residentPages =
      if x = p then (s.procs x).residentPages + 1 else (s.procs x).residentPages)
    {t : Nat} (ht : own t = .root q) : gap s' q t = gap s q t := by
  by_cases htr : t = r
  · subst htr
    have hqp : q = p := Owner.root.inj (ht.symm.trans hr)
    subst hqp
    have hcount : validPages s' t UPAGES = validPages s t UPAGES + 1 := by
      refine count_add_one hv (by simp [hold]) ?_ fun b hb => ?_
      · rw [hpte, if_pos ⟨rfl, rfl⟩]
        exact hnew
      · rw [hpte, if_neg fun he => hb he.2]
    rw [gap, gap, hres, if_pos rfl, hcount]
    push_cast
    omega
  · have hqp : q ≠ p := by
      rintro rfl
      exact htr (h.pages.root_unique hr ht)
    refine gap_congr ?_ fun b _ => by rw [hpte, if_neg fun he => htr he.1]
    rw [hres, if_neg hqp]

theorem setProc_resident {n : Int} {x : Proc} (hx : x.residentPages = n) (s : Kernel) (p y : ProcId) :
    ((setProc s p x).procs y).residentPages = if y = p then n else (s.procs y).residentPages := by
  by_cases hy : y = p
  · subst hy
    simpa [setProc] using hx
  · simp [setProc, hy]

theorem swapRead_same {slot : Nat} (h : swapRead s slot pa p = .ok s') :
    s'.tables = s.tables ∧ ∀ y, (s'.procs y).residentPages = (s.procs y).residentPages := by
  obtain ⟨page, -, h⟩ := bind_eq_ok.mp h
  cases h
  refine ⟨rfl, fun y => ?_⟩
  rw [creditRead, setProc_resident rfl]
  split
  · next hy =>
      subst hy
      rfl
  · rfl

section Serve

variable (h : Wf own lim s) (hr : own r = .root p) (hheld : NoHeld own) (hnew : NoNew own)
  (hv : v < lim r)

include h hr hheld hnew hv

/-- A page is swapped in. -/
theorem serveFault_swapIn_gap {x : Nat × Kernel} {t : Nat}
    (hsw : (s.pte r v).has PTE_SWAPPED = true) (hrun : serveFault s p r v = .ok x)
    (ht : own t = .root q) : gap x.2 q t = gap s q t := by
  have htab := h.pages.table r ⟨p, Or.inl hr⟩
  have hvu : v < UPAGES := hv.trans_le htab.lim_le
  have hswap : Swapped (s.pte r v) (swapIdx (s.pte r v)) := htab.swapped_of hvu hsw
  have hvict := h.victimOk hheld hnew p
  obtain ⟨res, s₁, hk, -, hok⟩ := kallocUser_spec h (page_mod v) hvict
  have hgap := kallocUser_gap h hvict hk ht
  simp only [serveFault, if_pos hsw, hk, ok_bind] at hrun
  cases res with
  | none =>
      cases hrun
      exact hgap
  | some mem =>
      have hal := hok mem rfl
      have hpte : s₁.pte r v = s.pte r v := hal.pte r v fun _ hx => hx.not_Swapped hswap
      obtain ⟨s₂, h₂, hrun⟩ := bind_eq_ok.mp hrun
      cases hrun
      obtain ⟨htables, hres⟩ := swapRead_same h₂
      have hphys : PhysOk mem := h.pages.physOk hal.own_ne_kernel
      refine Eq.trans (gap_enter (e := swapInPte mem (s₂.pte r v)) hal.wf
        ((hal.keeps.roots p r).1.mpr hr) hvu (by rw [hpte]; exact hswap.not_valid)
        (swapInPte_resident hphys _).valid (fun a b => ?_) (fun y => ?_)
        ((hal.keeps.roots q t).1.mpr ht)) hgap
      · have hset := pte_setPte (swapFree s₂ (swapIdx (s.pte r v))) r v (swapInPte mem (s₂.pte r v)) a b
        rw [show (swapFree s₂ (swapIdx (s.pte r v))).pte a b = s₁.pte a b from
          congrFun (congrArg PageTable.pte (congrFun htables a)) b] at hset
        exact hset
      · refine (setProc_resident rfl ..).trans ?_
        change (if y = p then (s₂.procs p).residentPages + 1 else (s₂.procs y).residentPages) = _
        rw [hres, hres]
        split
        · next hy => rw [hy]
        · rfl

/-- A page is entered that had no entry. -/
theorem serveFault_lazy_gap {x : Nat × Kernel} {t : Nat}
    (hsw : (s.pte r v).has PTE_SWAPPED = false) (hval : (s.pte r v).has PTE_V = false)
    (hrun : serveFault s p r v = .ok x) (ht : own t = .root q) : gap x.2 q t = gap s q t := by
  have htab := h.pages.table r ⟨p, Or.inl hr⟩
  have hvu : v < UPAGES := hv.trans_le htab.lim_le
  have hzero : s.pte r v = 0 := htab.zero_of_not hvu hval hsw
  have hvict := h.victimOk hheld hnew p
  obtain ⟨res, s₁, hk, -, hok⟩ := kallocUser_spec h (page_mod v) hvict
  have hgap := kallocUser_gap h hvict hk ht
  simp only [serveFault, hsw, hval, Bool.false_eq_true, if_false, Bool.not_false, if_true, hk,
    ok_bind] at hrun
  cases res with
  | none =>
      cases hrun
      exact hgap
  | some mem =>
      have hal := hok mem rfl
      have hpte : s₁.pte r v = s.pte r v := hal.pte r v fun _ hx => hx.not_zero hzero
      cases hrun
      refine Eq.trans (gap_enter (e := pa2Pte mem ||| PTE_V ||| PTE_R ||| PTE_W ||| PTE_U) hal.wf
        ((hal.keeps.roots p r).1.mpr hr) hvu (by rw [hpte]; exact hval) ?_ (fun a b => ?_) (fun y => ?_)
        ((hal.keeps.roots q t).1.mpr ht)) hgap
      · have hphys : PhysOk mem := h.pages.physOk hal.own_ne_kernel
        have hentry : pa2Pte mem ||| PTE_V ||| PTE_R ||| PTE_W ||| PTE_U = mapPte mem lazyPerm := by
          simp only [mapPte, lazyPerm]
          ac_rfl
        rw [hentry]
        exact (mapPte_resident hphys ⟨by decide, by decide⟩).valid
      · exact pte_setPte (setPage s₁ mem zeroPage) r v _ a b
      · refine (setProc_resident rfl ..).trans ?_
        change (if y = p then (s₁.procs p).residentPages + 1 else (s₁.procs y).residentPages) = _
        split
        · next hy => rw [hy]
        · rfl

omit h hr hheld hnew hv in
/-- Only a reference bit may change. -/
theorem serveFault_valid_gap {x : Nat × Kernel} {t : Nat}
    (hsw : (s.pte r v).has PTE_SWAPPED = false) (hval : (s.pte r v).has PTE_V = true)
    (hrun : serveFault s p r v = .ok x) : gap x.2 q t = gap s q t := by
  simp only [serveFault, hsw, hval, Bool.false_eq_true, if_false, Bool.not_true] at hrun
  split at hrun
  · cases hrun
    rfl
  · cases hrun
    rfl

theorem serveFault_gap {x : Nat × Kernel} {t : Nat} (hrun : serveFault s p r v = .ok x)
    (ht : own t = .root q) : gap x.2 q t = gap s q t := by
  cases hsw : (s.pte r v).has PTE_SWAPPED with
  | true => exact serveFault_swapIn_gap h hr hheld hnew hv hsw hrun ht
  | false =>
      cases hval : (s.pte r v).has PTE_V with
      | false => exact serveFault_lazy_gap h hr hheld hnew hv hsw hval hrun ht
      | true => exact serveFault_valid_gap hsw hval hrun

end Serve

/-- **`vmfault`** counts the page that it enters, and an eviction counts the page it takes. -/
theorem vmfault_gap {x : Nat × Kernel} {t : Nat} (h : Settled own lim s) (hr : own r = .root p)
    (hrun : vmfault s p r va = .ok x) (ht : own t = .root q) : gap x.2 q t = gap s q t := by
  rw [vmfault_eq] at hrun
  split at hrun
  · cases hrun
    rfl
  · next hlt =>
      have hva : va / PGSIZE * PGSIZE < (s.procs p).sz := Nat.not_le.mp hlt
      have hmax : va / PGSIZE * PGSIZE < MAXVA := by
        have := h.sz_lt p
        simp only [MAXVA]
        omega
      have hv : va / PGSIZE < lim r := by
        rw [h.sized p r hr, ← page_div (va / PGSIZE)]
        exact div_lt_npages hva
      obtain ⟨found, s₁, own₁, hw, hwf₁, hk₁, -, -⟩ := walkAlloc_spec h.wf ⟨p, Or.inl hr⟩ hmax
      have hon : OnTables (fun _ => True) s s₁ := walkAlloc_onTables trivial hw
      have hgap : gap s₁ q t = gap s q t := gap_congr (by rw [hon.procs]) fun b _ => hk₁.pte t b
      rw [hw, ok_bind] at hrun
      cases found with
      | false =>
          cases hrun
          exact hgap
      | true =>
          refine Eq.trans ?_ hgap
          exact serveFault_gap hwf₁ ((hk₁.roots p r).1.mpr hr) (hk₁.noHeld h.noHeld)
            (h.noNew.of_roots hk₁.roots) hv hrun ((hk₁.roots q t).1.mpr ht)

/-! ### Growing and shrinking -/

/-- The loop of `uvmdealloc` takes the valid entries off the counter of `p`. -/
theorem countUnmapped_resident {n : Nat} (h : Pages own lim s) (hr : IsTable own r) (p : ProcId)
    (v : Nat) (hle : v + n ≤ UPAGES) (hrun : countUnmapped s p r (v * PGSIZE) n = .ok s') (y : ProcId) :
    (s'.procs y).residentPages = (s.procs y).residentPages -
      if y = p then (validPages s r (v + n) - validPages s r v : Int) else 0 := by
  induction n generalizing s' with
  | zero =>
      cases hrun
      simp
  | succ n ih =>
      obtain ⟨s₁, h₁, hc₁⟩ := countUnmapped_spec h hr p v (n := n) (by omega)
      have ih₁ := ih (by omega) h₁
      have hlt : (v + n) * PGSIZE < MAXVA := by
        simp only [UPAGES, TRAPFRAME, TRAMPOLINE, MAXVA, PGSIZE] at *
        omega
      have hsucc : validPages s r (v + (n + 1)) = validPages s r (v + n) +
          if (s.pte r (v + n)).has PTE_V = true then 1 else 0 := Nat.count_succ ..
      unfold countUnmapped at hrun h₁
      rw [List.range_succ, List.foldlM_append, h₁, ok_bind, List.foldlM_cons,
        show v * PGSIZE + n * PGSIZE = (v + n) * PGSIZE from (Nat.add_mul ..).symm,
        walk_congr hc₁.tables] at hrun
      have hlast : (s'.procs y).residentPages = (s₁.procs y).residentPages -
          if y = p ∧ (s.pte r (v + n)).has PTE_V = true then 1 else 0 := by
        rcases walk_eq (h.table r hr) hlt with hw | ⟨hw, h0⟩
        · rw [page_div] at hw
          simp only [hw, ok_bind] at hrun
          split at hrun
          · next hval =>
              cases hrun
              rw [setProc_resident rfl]
              by_cases hy : y = p
              · rw [if_pos hy, if_pos ⟨hy, hval⟩, hy]
              · rw [if_neg hy, if_neg fun he => hy he.1, sub_zero]
          · next hval =>
              cases hrun
              rw [if_neg fun he => hval he.2, sub_zero]
        · rw [page_div] at h0
          simp only [hw, ok_bind] at hrun
          cases hrun
          have hinvalid : ¬ (y = p ∧ (s.pte r (v + n)).has PTE_V = true) := by
            rintro ⟨-, hval⟩
            rw [h0] at hval
            cases hval
          rw [if_neg hinvalid, sub_zero]
      rw [hlast, ih₁, hsucc]
      by_cases hy : y = p
      · simp only [hy, if_true, true_and]
        split
        · push_cast
          omega
        · push_cast
          omega
      · simp only [hy, if_false, false_and, sub_zero]

/-- **`uvmdealloc`** takes off the counter the pages that it unmaps. -/
theorem uvmdealloc_gap {oldsz newsz t : Nat} {x : Nat × Kernel} (h : Wf own lim s)
    (hr : own r = .root p) (hold : oldsz ≤ TRAPFRAME)
    (hrun : uvmdealloc s p r oldsz newsz = .ok x) (ht : own t = .root q) : gap x.2 q t = gap s q t := by
  have htab : IsTable own r := ⟨p, Or.inl hr⟩
  unfold uvmdealloc at hrun
  split at hrun
  · cases hrun
    rfl
  · next hge =>
      have hnew : newsz ≤ TRAPFRAME := by omega
      have hmono : npages newsz ≤ npages oldsz := npages_mono (by omega)
      have hle : npages newsz + (npages oldsz - npages newsz) ≤ UPAGES := by
        have := npages_le hold
        omega
      rw [pgRoundUp_eq hold, pgRoundUp_eq hnew] at hrun
      split at hrun
      · have hn : (npages oldsz * PGSIZE - npages newsz * PGSIZE) / PGSIZE =
            npages oldsz - npages newsz := by
          rw [← Nat.sub_mul, Nat.mul_div_cancel _ (by decide)]
        rw [hn] at hrun
        obtain ⟨s₁, h₁, hc⟩ := countUnmapped_spec h.pages htab p (npages newsz) hle
        obtain ⟨s₂, own₂, h₂, hu⟩ := uvmunmap_spec (hc.wf h) htab (npages newsz) _ hle
        have hon : OnTables (fun _ => True) s₁ s₂ := uvmunmap_onTables trivial h₂
        simp only [h₁, h₂, ok_bind] at hrun
        cases hrun
        change gap s₂ q t = gap s q t
        have hpte₁ : ∀ a b, s₁.pte a b = s.pte a b := pte_of_tables hc.tables
        have hres := countUnmapped_resident h.pages htab p (npages newsz) hle h₁ q
        rw [Nat.add_sub_cancel' hmono] at hres hu
        by_cases htr : t = r
        · subst htr
          have hqp : q = p := Owner.root.inj (ht.symm.trans hr)
          subst hqp
          have hcount : validPages s₂ t UPAGES + validPages s t (npages oldsz) =
              validPages s t UPAGES + validPages s t (npages newsz) := by
            refine count_clear hmono (npages_le hold) (fun b hb hlt hval => ?_) fun b hb => ?_
            · rw [hu.pte_in b ⟨hb, hlt⟩] at hval
              cases hval
            · rw [hu.pte_out t b fun he => hb he.2, hpte₁]
          rw [if_pos rfl] at hres
          rw [gap, gap, hon.procs, hres]
          omega
        · have hqp : q ≠ p := by
            rintro rfl
            exact htr (h.pages.root_unique hr ht)
          refine gap_congr ?_ fun b _ => ?_
          · rw [hon.procs, hres, if_neg hqp, sub_zero]
          · rw [hu.pte_out t b fun he => htr he.1, hpte₁]
      · cases hrun
        rfl

/-- The kernel is coherent, with the same tables, and no counter is further off. -/
structure Counted (own own' : Nat → Owner) (s s' : Kernel) : Prop where
  settled : ∃ lim', Settled own' lim' s'
  roots : SameRoots own own'
  gap : ∀ q t, own t = .root q → gap s' q t = gap s q t

theorem Counted.refl (h : Settled own lim s) : Counted own own s s :=
  ⟨⟨lim, h⟩, .refl own, fun _ _ _ => rfl⟩

/-- The result is a null pointer, or -1. -/
def failed {α : Type} : Except String (Option α × Kernel) → Bool
  | .ok (none, _) => true
  | _ => false

theorem failed_iff {α : Type} {x : Except String (Option α × Kernel)} :
    failed x = true ↔ ∃ s', x = .ok (none, s') := by
  constructor
  · intro h
    unfold failed at h
    split at h
    · exact ⟨_, rfl⟩
    · cases h
  · rintro ⟨s', rfl⟩
    rfl

/-- An eager `sbrk` by `n` enters no page: it is no growth, or refused, or stays in the last page, or
the first allocation fails. -/
def EntersNone (s : Kernel) (p : ProcId) (n : Int) : Prop :=
  n ≤ 0 ∨ TRAPFRAME < addInt (s.procs p).sz n ∨ npages (addInt (s.procs p).sz n) ≤ npages (s.procs p).sz ∨
    failed (kallocUser s p (pgRoundUp (s.procs p).sz)) = true

instance decidableEntersNone (s : Kernel) (p : ProcId) (n : Int) : Decidable (EntersNone s p n) :=
  inferInstanceAs (Decidable (_ ∨ _))

theorem withSize_gap (s : Kernel) (p : ProcId) (n : Nat) (q : ProcId) (t : Nat) :
    gap (withSize s p n) q t = gap s q t := by
  refine gap_congr ?_ fun _ _ => rfl
  refine (setProc_resident rfl ..).trans ?_
  split
  · next hq => rw [hq]
  · rfl

section Grow

variable {n : Int} (h : Settled own lim s) (hr : own r = .root p)

include h hr

/-- A shrink. -/
theorem growproc_shrink_counted {x : Bool × Kernel} (hlo : -2 ^ 31 ≤ n) (hneg : n < 0)
    (hrun : growproc s p r n = .ok x) : ∃ own', Counted own own' s x.2 := by
  obtain ⟨s', own', lim', hg, -, -, -, hset, hres⟩ := growproc_shrink h hr hlo hneg
  cases hrun.symm.trans hg
  refine ⟨own', ⟨lim', hset⟩, hres.roots, fun q t ht => ?_⟩
  simp only [growproc, if_neg (by omega : ¬ n > 0), if_pos hneg] at hrun
  obtain ⟨⟨sz, s₁⟩, h₁, hrun⟩ := bind_eq_ok.mp hrun
  cases hrun
  exact (withSize_gap s₁ p sz q t).trans (uvmdealloc_gap h.wf hr (h.sz_le p) h₁ ht)

/-- A change of the size alone. -/
theorem withSize_counted {m : Nat} (hm : m ≤ TRAPFRAME) (hle : (s.procs p).sz ≤ m) :
    Counted own own s (withSize s p m) := by
  obtain ⟨lim', hset, -⟩ := h.setSize hr hm hle
  exact ⟨⟨lim', hset⟩, .refl own, fun q t _ => withSize_gap s p m q t⟩

/-- A growth that enters no page. -/
theorem growproc_grow_counted {x : Bool × Kernel} (hpos : 0 < n) (hhi : n < 2 ^ 31)
    (hnone : EntersNone s p n) (hrun : growproc s p r n = .ok x) : ∃ own', Counted own own' s x.2 := by
  have hsz := h.sz_le p
  have hszlt := h.sz_lt p
  have hadd : addInt (s.procs p).sz n = ((s.procs p).sz + n).toNat := by
    rw [addInt_eq (by omega) (by omega)]
  simp only [growproc, if_pos hpos] at hrun
  split at hrun
  · cases hrun
    exact ⟨own, .refl h⟩
  · next hbig =>
      have hge : ¬ addInt (s.procs p).sz n < (s.procs p).sz := by omega
      have hbase : pgRoundUp (s.procs p).sz = npages (s.procs p).sz * PGSIZE := pgRoundUp_eq hsz
      simp only [uvmalloc, if_neg hge] at hrun
      have hne : addInt (s.procs p).sz n ≠ 0 := by omega
      cases hturns : (addInt (s.procs p).sz n - pgRoundUp (s.procs p).sz + (PGSIZE - 1)) / PGSIZE with
      | zero =>
          rw [hturns] at hrun
          simp only [uvmallocLoop, ok_bind, pure_eq_ok, if_true, if_neg hne] at hrun
          cases hrun
          exact ⟨own, withSize_counted h hr (by omega) (by omega)⟩
      | succ m =>
          have hk : ∃ s₁, kallocUser s p (pgRoundUp (s.procs p).sz) = .ok (none, s₁) := by
            rcases hnone with hle | hlt | hpages | hk
            · omega
            · omega
            · rw [hbase] at hturns
              simp only [npages, PGSIZE] at hpages hturns
              omega
            · exact failed_iff.mp hk
          obtain ⟨s₁, hk⟩ := hk
          have hvict := h.wf.victimOk h.noHeld h.noNew p
          have hmod : pgRoundUp (s.procs p).sz % PGSIZE = 0 := by
            rw [hbase]
            exact page_mod _
          obtain ⟨res, s₂, hk', hfail, -⟩ := kallocUser_spec h.wf hmod hvict
          cases hk.symm.trans hk'
          have hf := hfail rfl
          rw [hturns] at hrun
          simp only [uvmallocLoop, hk, ok_bind, uvmdealloc, if_pos (le_refl _), pure_eq_ok,
            Bool.false_eq_true, if_false, if_true] at hrun
          cases hrun
          exact ⟨own, ⟨lim, h.of_keeps hf.wf hf.keeps h.noHeld⟩, .refl own,
            fun q t ht => kallocUser_gap h.wf hvict hk ht⟩

/-- **`sys_sbrk`**, unless it enters a page at once. -/
theorem sysSbrk_counted {eager : Bool} {x : Option Nat × Kernel} (hlo : -2 ^ 31 ≤ n)
    (hhi : n < 2 ^ 31) (hnone : eager = true → EntersNone s p n)
    (hrun : sysSbrk s p r n eager = .ok x) : ∃ own', Counted own own' s x.2 := by
  have hsz := h.sz_le p
  have hszlt := h.sz_lt p
  unfold sysSbrk at hrun
  split at hrun
  · next heager =>
      obtain ⟨⟨done, s₁⟩, h₁, hrun⟩ := bind_eq_ok.mp hrun
      have hx : x.2 = s₁ := by
        simp only at hrun
        split at hrun <;> cases hrun <;> rfl
      rw [hx]
      rcases lt_trichotomy n 0 with hneg | hzero | hpos
      · exact growproc_shrink_counted h hr hlo hneg h₁
      · subst hzero
        simp only [growproc, lt_irrefl, if_false] at h₁
        cases h₁
        exact ⟨own, .refl h⟩
      · refine growproc_grow_counted h hr hpos hhi (hnone (heager.resolve_right ?_)) h₁
        omega
  · next heager =>
      have hn : 0 ≤ n := by
        by_contra hneg
        exact heager (Or.inr (by omega))
      have hadd : addInt (s.procs p).sz n = ((s.procs p).sz + n).toNat := by
        rw [addInt_eq (by omega) (by omega)]
      dsimp only at hrun
      split at hrun
      · cases hrun
        exact ⟨own, .refl h⟩
      · split at hrun
        · cases hrun
          exact ⟨own, .refl h⟩
        · next hbig =>
            cases hrun
            exact ⟨own, withSize_counted h hr (by omega) (by omega)⟩

end Grow

/-! ### Making and freeing a process -/

theorem freewalkEntry0_onTables {k : Nat} (hr : R r) (h : freewalkEntry0 r s k = .ok s') :
    OnTables R s s' := by
  unfold freewalkEntry0 at h
  split at h
  · cases h
    exact .refl R s
  · obtain ⟨s₁, h₁, h⟩ := bind_eq_ok.mp h
    cases h
    unfold freewalkL0 at h₁
    split at h₁
    · cases h₁
    · exact (kfree_onTables h₁).trans (onTables_setTable hr ..)

theorem freewalkEntry1_onTables {k : Nat} (hr : R r) (h : freewalkEntry1 r s k = .ok s') :
    OnTables R s s' := by
  unfold freewalkEntry1 at h
  split at h
  · cases h
    exact .refl R s
  · obtain ⟨s₁, h₁, h⟩ := bind_eq_ok.mp h
    cases h
    obtain ⟨s₂, h₂, h₁⟩ := bind_eq_ok.mp h₁
    have h₂' : OnTables R s s₂ :=
      foldlM_onTables (fun _ _ _ hx => freewalkEntry0_onTables hr hx) _ _ _ h₂
    exact (h₂'.trans (kfree_onTables h₁)).trans (onTables_setTable hr ..)

theorem uvmfree_onTables {sz : Nat} (hr : R r) (h : uvmfree s r sz = .ok s') : OnTables R s s' := by
  have hwalk : ∀ s₁, freewalk s₁ r = .ok s' → OnTables R s₁ s' := by
    intro s₁ h
    obtain ⟨s₂, h₂, h⟩ := bind_eq_ok.mp h
    have h₂' : OnTables R s₁ s₂ :=
      foldlM_onTables (fun _ _ _ hx => freewalkEntry1_onTables hr hx) _ _ _ h₂
    exact h₂'.trans (kfree_onTables h)
  unfold uvmfree at h
  split at h
  · obtain ⟨s₁, h₁, h⟩ := bind_eq_ok.mp h
    exact (uvmunmap_onTables hr h₁).trans (hwalk s₁ h)
  · rw [pure_eq_ok, ok_bind] at h
    exact hwalk s h

theorem procFreepagetable_onTables {sz : Nat} (hr : R r) (h : procFreepagetable s r sz = .ok s') :
    OnTables R s s' := by
  obtain ⟨s₁, h₁, h⟩ := bind_eq_ok.mp h
  obtain ⟨s₂, h₂, h⟩ := bind_eq_ok.mp h
  exact ((uvmunmap_onTables hr h₁).trans (uvmunmap_onTables hr h₂)).trans (uvmfree_onTables hr h)

/-- The new table is a page that was free. -/
theorem procPagetable_onTables {x : Option Nat × Kernel} (hfree : ∀ y ∈ s.freelist, R y)
    (h : procPagetable s p = .ok x) : OnTables R s x.2 ∧ ∀ r, x.1 = some r → R r := by
  cases hlist : s.freelist with
  | nil =>
      simp only [procPagetable, uvmcreate_nil hlist] at h
      cases h
      exact ⟨⟨rfl, fun _ _ => rfl⟩, fun r hr => by cases hr⟩
  | cons r rest =>
      have hr : R r := hfree r (by simp [hlist])
      have h₀ : OnTables R s (takeRoot s r rest) := by
        refine ⟨rfl, fun x hx => Function.update_of_ne ?_ ..⟩
        rintro rfl
        exact hx hr
      simp only [procPagetable, uvmcreate_cons hlist] at h
      obtain ⟨⟨ok, s₂⟩, h₂, h⟩ := bind_eq_ok.mp h
      have ht₂ : OnTables R s s₂ := h₀.trans (mappages_onTables hr h₂)
      simp only at h
      split at h
      · obtain ⟨s₃, h₃, h⟩ := bind_eq_ok.mp h
        cases h
        exact ⟨ht₂.trans (uvmfree_onTables hr h₃), fun r hr => by cases hr⟩
      · obtain ⟨⟨ok', s₃⟩, h₃, h⟩ := bind_eq_ok.mp h
        have ht₃ : OnTables R s s₃ := ht₂.trans (mappages_onTables hr h₃)
        simp only at h
        split at h
        · obtain ⟨s₄, h₄, h⟩ := bind_eq_ok.mp h
          obtain ⟨s₅, h₅, h⟩ := bind_eq_ok.mp h
          cases h
          exact ⟨(ht₃.trans (uvmunmap_onTables hr h₄)).trans (uvmfree_onTables hr h₅),
            fun r hr => by cases hr⟩
        · cases h
          exact ⟨ht₃, fun r' hr' => by cases hr'; exact hr⟩

/-- No other process than `np` has changed, nor the counter of `np`, nor a table outside `R`. -/
structure Beside (R : Nat → Prop) (np : ProcId) (s s' : Kernel) : Prop where
  others : ∀ q, q ≠ np → s'.procs q = s.procs q
  resident : (s'.procs np).residentPages = (s.procs np).residentPages
  tables : ∀ x, ¬ R x → s'.tables x = s.tables x

theorem OnTables.beside (h : OnTables R s s') : Beside R np s s' :=
  ⟨fun q _ => congrFun h.procs q, by rw [h.procs], h.tables⟩

theorem Beside.trans {s₁ : Kernel} (h : Beside R np s s₁) (h' : Beside R np s₁ s') :
    Beside R np s s' :=
  ⟨fun q hq => (h'.others q hq).trans (h.others q hq), h'.resident.trans h.resident,
    fun x hx => (h'.tables x hx).trans (h.tables x hx)⟩

theorem beside_setProc {x : Proc} (hx : x.residentPages = (s.procs np).residentPages) :
    Beside R np s (setProc s np x) := by
  refine ⟨fun q hq => Function.update_of_ne hq .., ?_, fun _ _ => rfl⟩
  rw [show (setProc s np x).procs np = x from Function.update_self ..]
  exact hx

theorem resetProc_beside (s : Kernel) (np : ProcId) : Beside R np s (resetProc s np) := by
  refine ⟨fun q hq => resetProc_other s hq, ?_, fun _ _ => rfl⟩
  simp [resetProc, setProc]

theorem freeTrapframe_beside (h : freeTrapframe s np = .ok s') :
    Beside R np s s' ∧ (s'.procs np).pagetable = (s.procs np).pagetable := by
  unfold freeTrapframe at h
  split at h
  · cases h
    exact ⟨beside_setProc rfl, by simp [setProc]⟩
  · obtain ⟨s₁, h₁, h⟩ := bind_eq_ok.mp h
    have h₁' : OnTables R s s₁ := kfree_onTables h₁
    cases h
    exact ⟨h₁'.beside.trans (beside_setProc rfl), by simp [setProc, h₁'.procs]⟩

/-- `freeproc` works on the table of the process alone, which it then has no more. -/
theorem freeproc_beside (hr : ∀ r, (s.procs np).pagetable = some r → R r)
    (h : freeproc s np = .ok s') : Beside R np s s' ∧ (s'.procs np).pagetable = none := by
  have hreset : ∀ s₂, Beside R np s s₂ → Beside R np s (resetProc s₂ np) ∧
      ((resetProc s₂ np).procs np).pagetable = none := by
    intro s₂ hb
    exact ⟨hb.trans (resetProc_beside s₂ np), by simp [resetProc, setProc]⟩
  obtain ⟨s₁, h₁, h⟩ := bind_eq_ok.mp h
  obtain ⟨hb₁, hpt⟩ := freeTrapframe_beside (R := R) h₁
  split at h
  · cases h
    exact hreset s₁ hb₁
  · next r hsome =>
      obtain ⟨s₂, h₂, h⟩ := bind_eq_ok.mp h
      cases h
      have h₂' : OnTables R s₁ s₂ := procFreepagetable_onTables (hr r (hpt.symm.trans hsome)) h₂
      exact hreset s₂ (hb₁.trans h₂'.beside)

/-- **`allocproc`**: the new process starts from 0. -/
theorem allocproc_beside {res : Option ProcId} (hfree : ∀ y ∈ s.freelist, R y)
    (hnp : freeProc s = some np) (hpt : (s.procs np).pagetable = none)
    (h : allocproc s = .ok (res, s')) :
    Beside R np (startProc s np) s' ∧
      (res = some np ∨ res = none ∧ (s'.procs np).pagetable = none) ∧
      ∀ r, (s'.procs np).pagetable = some r → R r := by
  have hfail : ∀ s₁, Beside R np (startProc s np) s₁ → (s₁.procs np).pagetable = none →
      freeproc s₁ np = .ok s' → res = none → Beside R np (startProc s np) s' ∧
        (res = some np ∨ res = none ∧ (s'.procs np).pagetable = none) ∧
        ∀ r, (s'.procs np).pagetable = some r → R r := by
    intro s₁ hb hnone hrun hres
    obtain ⟨hb', hnone'⟩ := freeproc_beside (R := R) (fun r hr => by cases hnone.symm.trans hr) hrun
    exact ⟨hb.trans hb', Or.inr ⟨hres, hnone'⟩, fun r hr => by cases hnone'.symm.trans hr⟩
  have hstart : ((startProc s np).procs np).pagetable = none := by
    simpa [startProc, setProc] using hpt
  simp only [allocproc, hnp] at h
  cases hlist : s.freelist with
  | nil =>
      rw [kalloc_nil (s := startProc s np) hlist] at h
      obtain ⟨s₁, h₁, h⟩ := bind_eq_ok.mp h
      cases h
      refine hfail _ ?_ ?_ h₁ rfl
      · exact ⟨fun q hq => Function.update_of_ne hq .., by simp [setProc], fun _ _ => rfl⟩
      · simpa [setProc] using hstart
  | cons pa rest =>
      rw [kalloc_cons (s := startProc s np) hlist] at h
      obtain ⟨⟨table, s₂⟩, h₂, h⟩ := bind_eq_ok.mp h
      have h₁ : Beside R np (startProc s np) (withTrapframe s np pa rest) := by
        refine ⟨fun q hq => ?_, ?_, fun _ _ => rfl⟩
        · exact Function.update_of_ne hq ..
        · simp [withTrapframe, setProc]
      obtain ⟨ht, hnew⟩ := procPagetable_onTables (s := withTrapframe s np pa rest)
        (fun y hy => hfree y (by rw [hlist]; exact List.mem_cons_of_mem _ hy)) h₂
      have h₂' : Beside R np (startProc s np)
          (setProc s₂ np { s₂.procs np with pagetable := table }) :=
        (h₁.trans ht.beside).trans (beside_setProc rfl)
      simp only at h
      split at h
      · next hnone =>
          obtain ⟨s₃, h₃, h⟩ := bind_eq_ok.mp h
          cases h
          exact hfail _ h₂' (by simpa [setProc] using hnone) h₃ rfl
      · cases h
        refine ⟨h₂', Or.inl rfl, fun r hr => hnew r ?_⟩
        simpa [setProc] using hr

/-! ### `kfork` of a process without a page in memory -/

theorem kalloc_tables (s : Kernel) : (kalloc s).2.tables = s.tables := by
  unfold kalloc
  split
  · rfl
  · rfl

theorem walkL1_pte (s : Kernel) (r k v : Nat) : (walkL1 s r k).2.pte r v = s.pte r v := by
  have hk := kalloc_tables s
  unfold walkL1
  split
  · rfl
  · split
    · next s₁ he =>
        rw [he] at hk
        rw [Kernel.pte, hk]
        rfl
    · next pa s₁ he =>
        rw [he] at hk
        simp only [Kernel.pte, setTable, Function.update_self]
        rw [hk]

theorem walkL0_pte (s : Kernel) (r k v : Nat) :
    (walkL0 s r k).2.pte r v = s.pte r v ∨ (walkL0 s r k).2.pte r v = 0 := by
  have hk := kalloc_tables s
  unfold walkL0
  split
  · exact Or.inl rfl
  · split
    · next s₁ he =>
        rw [he] at hk
        rw [Kernel.pte, hk]
        exact Or.inl rfl
    · next pa s₁ he =>
        rw [he] at hk
        simp only [Kernel.pte, setTable, Function.update_self]
        split
        · exact Or.inr rfl
        · rw [hk]
          exact Or.inl rfl

/-- `walk` enters no page: it may clear the entries of a new table. -/
theorem walkAlloc_invalid {x : Bool × Kernel} (h : walkAlloc s r va = .ok x)
    (hv : (s.pte r v).has PTE_V = false) : (x.2.pte r v).has PTE_V = false := by
  have h₁ := walkL1_pte s r (va / 2 ^ 30) v
  unfold walkAlloc at h
  split at h
  · cases h
  · split at h
    · next s₁ he =>
        cases h
        rw [he] at h₁
        rwa [h₁]
    · next s₁ he =>
        cases h
        rw [he] at h₁
        rcases walkL0_pte s₁ r (va / 2 ^ 21) v with h₂ | h₂
        · rwa [h₂, h₁]
        · rw [h₂]
          rfl

/-- A page that is not in memory is copied to an entry that is not valid. -/
theorem uvmcopyPage_absent {old new : Nat} {x : Bool × Kernel} (hnew : R new) (hold : ¬ R old)
    (hv : (s.pte old v).has PTE_V = false) (h : uvmcopyPage s old new np v = .ok x) :
    OnTables R s x.2 ∧
      ∀ w, (s.pte new w).has PTE_V = false → (x.2.pte new w).has PTE_V = false := by
  obtain ⟨e, he, h⟩ := bind_eq_ok.mp h
  cases e with
  | none =>
      cases h
      exact ⟨.refl R s, fun _ hw => hw⟩
  | some e =>
      have hee : e = s.pte old v := by
        unfold walk at he
        split at he
        · cases he
        · split at he
          · cases he
            rw [Kernel.pte, Nat.mul_div_cancel v (by decide)]
          · cases he
      subst hee
      simp only at h
      split at h
      · cases hfind : swapAlloc s with
        | mk res s₁ =>
            have hsame : s₁.procs = s.procs ∧ s₁.tables = s.tables := by
              unfold swapAlloc at hfind
              split at hfind <;> cases hfind <;> exact ⟨rfl, rfl⟩
            rw [hfind] at h
            cases res with
            | none =>
                cases h
                exact ⟨⟨hsame.1, fun _ _ => by rw [hsame.2]⟩, fun w hw => by rwa [Kernel.pte, hsame.2]⟩
            | some newslot =>
                obtain ⟨raid, -, h⟩ := bind_eq_ok.mp h
                obtain ⟨⟨found, s₂⟩, h₂, h⟩ := bind_eq_ok.mp h
                have hon := walkAlloc_onTables (R := R) hnew h₂
                have hon₂ : OnTables R s s₂ :=
                  ⟨hon.procs.trans hsame.1, fun y hy => by rw [hon.tables y hy]; exact congrFun hsame.2 y⟩
                have hinv : ∀ w, (s.pte new w).has PTE_V = false → (s₂.pte new w).has PTE_V = false := by
                  intro w hw
                  refine walkAlloc_invalid h₂ ?_
                  change (s₁.pte new w).has PTE_V = false
                  rwa [Kernel.pte, hsame.2]
                simp only at h
                split at h
                · cases h
                  exact ⟨hon₂, hinv⟩
                · cases h
                  refine ⟨hon₂.trans (onTables_setTable hnew ..), fun w hw => ?_⟩
                  rw [pte_setPte]
                  split
                  · have hov : s₂.pte old v = s.pte old v := by rw [Kernel.pte, hon₂.tables old hold]; rfl
                    rw [has_V, swapCopyPte_flag _ (by decide), ← has_V, hov, hv]
                    rfl
                  · exact hinv w hw
      · rw [hv] at h
        cases h
        exact ⟨.refl R s, fun _ hw => hw⟩

/-- The loop of `uvmcopy` when no page is in memory. -/
theorem uvmcopyLoop_absent {old new : Nat} (hnew : R new) (hold : ¬ R old) :
    ∀ (n v : Nat) (s s' : Kernel) (ok : Bool),
      (∀ w, v ≤ w → w < v + n → (s.pte old w).has PTE_V = false) →
      uvmcopyLoop old new np n v s = .ok (ok, s') → OnTables R s s' ∧
        (ok = true → ∀ w, (s.pte new w).has PTE_V = false → (s'.pte new w).has PTE_V = false) := by
  intro n
  induction n with
  | zero =>
      intro v s s' ok _ h
      cases h
      exact ⟨.refl R s, fun _ _ hw => hw⟩
  | succ n ih =>
      intro v s s' ok hall h
      obtain ⟨⟨b, s₁⟩, h₁, h⟩ := bind_eq_ok.mp h
      obtain ⟨hon₁, hinv₁⟩ := uvmcopyPage_absent hnew hold (hall v le_rfl (by omega)) h₁
      simp only at h
      split at h
      · have hpte : ∀ w, s₁.pte old w = s.pte old w := fun w => by
          rw [Kernel.pte, hon₁.tables old hold]
          rfl
        obtain ⟨hon₂, hinv₂⟩ := ih (v + 1) s₁ s' ok
          (fun w hw hlt => by rw [hpte]; exact hall w (by omega) (by omega)) h
        exact ⟨hon₁.trans hon₂, fun hok w hw => hinv₂ hok w (hinv₁ w hw)⟩
      · obtain ⟨s₂, h₂, h⟩ := bind_eq_ok.mp h
        cases h
        exact ⟨hon₁.trans (uvmunmap_onTables hnew h₂), fun hok => by cases hok⟩

/-- `kfork` by `p` enters no page: `p` has none in memory, or no process can be made. -/
def ForksNone (s : Kernel) (p : ProcId) : Prop :=
  (∀ r ∈ (s.procs p).pagetable, ∀ v, v < npages (s.procs p).sz → (s.pte r v).has PTE_V = false) ∨
    failed (allocproc s) = true

instance decidableForksNone (s : Kernel) (p : ProcId) : Decidable (ForksNone s p) :=
  inferInstanceAs (Decidable (_ ∨ _))

/-- A page that is no process's table. -/
def NoRoot (own : Nat → Owner) (x : Nat) : Prop := ∀ q, own x ≠ .root q

section Fork

variable {old : Nat} (h : Settled own lim s) (hold : own old = .root p)

include h

/-- The counters are right when only `np` has changed, and what it has entered is not valid. -/
theorem accurate_of_beside (ha : Accurate s) (hnp : freeProc s = some np)
    (hb : Beside (NoRoot own) np (startProc s np) s')
    (hself : ∀ r, (s'.procs np).pagetable = some r →
      validPages s' r (npages (s'.procs np).sz) = 0) : Accurate s' := by
  intro q r hr
  by_cases hq : q = np
  · subst hq
    rw [hself r hr, hb.resident]
    simp [startProc, setProc]
  · have hproc : s'.procs q = s.procs q := by
      rw [hb.others q hq]
      exact Function.update_of_ne hq ..
    rw [hproc] at hr ⊢
    have hroot := h.wf.pages.own_root hr
    rw [ha q r hr]
    refine congrArg _ (validPages_congr fun v _ => ?_).symm
    rw [Kernel.pte, hb.tables r fun hnot => hnot q hroot]
    rfl

include hold

/-- **`kfork`**, when it enters no page. -/
theorem kfork_accurate {res : Option Int} (ha : Accurate s) (hnone : ForksNone s p)
    (hrun : kfork s p = .ok (res, s')) : Coherent s' ∧ Accurate s' := by
  have hpt := h.wf.pages.pagetable hold
  obtain ⟨hfailed, hmade⟩ := kfork_spec h hold hrun
  cases hnp : freeProc s with
  | none =>
      have hs : s' = s := kfork_none hrun hnp
      exact ⟨hs ▸ ⟨own, lim, h⟩, hs ▸ ha⟩
  | some np =>
      have hunused := freeProc_some hnp
      obtain ⟨⟨res₁, s₁⟩, h₁, hrest⟩ := bind_eq_ok.mp hrun
      have hR : ∀ y ∈ s.freelist, NoRoot own y := by
        intro y hy q hq
        rw [(h.wf.pages.free () y).mpr hy] at hq
        cases hq
      obtain ⟨hb₁, hres, hnew⟩ := allocproc_beside hR hnp ((h.live np).mp hunused) h₁
      obtain ⟨hspec, hspawned⟩ := allocproc_spec h h₁
      cases res₁ with
      | none =>
          cases hrest
          rcases hres with hres | ⟨-, hpt'⟩
          · cases hres
          refine ⟨?_, accurate_of_beside h ha hnp hb₁ fun r hr => by cases hpt'.symm.trans hr⟩
          rcases hspec rfl with ⟨-, rfl⟩ | ⟨np', own', lim', hset, -⟩
          · exact ⟨own, lim, h⟩
          · exact ⟨own', lim', hset⟩
      | some np' =>
          rcases hres with hres | ⟨hres, -⟩
          swap
          · cases hres
          cases hres
          obtain ⟨own₁, lim₁, new, hset, hsp⟩ := hspawned np rfl
          have hpn : p ≠ np := freeProc_ne h hold hnp
          have hptn := hset.wf.pages.pagetable hsp.root
          have hproc : s₁.procs p = s.procs p := by
            rw [hb₁.others p hpn]
            exact Function.update_of_ne hpn ..
          have hold₁ : ¬ NoRoot own old := fun hnot => hnot p hold
          have habsent : ∀ v, v < npages (s.procs p).sz → (s.pte old v).has PTE_V = false := by
            rcases hnone with hall | hfail
            · exact hall old hpt
            · obtain ⟨s₂, h₂⟩ := failed_iff.mp hfail
              cases h₁.symm.trans h₂
          have hpte₁ : ∀ v, s₁.pte old v = s.pte old v := fun v => by
            rw [Kernel.pte, hb₁.tables old hold₁]
            rfl
          simp only [hproc, hpt, hptn] at hrest
          obtain ⟨⟨ok, s₂⟩, h₂, hrest⟩ := bind_eq_ok.mp hrest
          obtain ⟨hon, hinv⟩ := uvmcopyLoop_absent (R := NoRoot own) (hnew new hptn) hold₁ _ _ _ _ _
            (fun w _ hw => by rw [hpte₁]; exact habsent w (by unfold npages; omega)) h₂
          have hb₂ := hb₁.trans hon.beside
          cases ok with
          | false =>
              obtain ⟨s₃, h₃, hrest⟩ := bind_eq_ok.mp hrest
              cases hrest
              have hpt₂ : (s₂.procs np).pagetable = some new := by rw [hon.procs, hptn]
              obtain ⟨hb₃, hpt₃⟩ := freeproc_beside (R := NoRoot own) (fun r hr => by
                cases hpt₂.symm.trans hr
                exact hnew new hptn) h₃
              refine ⟨?_, accurate_of_beside h ha hnp (hb₂.trans hb₃) fun r hr => by
                cases hpt₃.symm.trans hr⟩
              rcases hfailed rfl with hs | hfail
              · exact hs ▸ ⟨own, lim, h⟩
              · exact hfail.settled (Or.inl habsent)
          | true =>
              cases hrest
              obtain ⟨np', own', lim', new', hset', hf, -⟩ := hmade _ rfl
              cases hnp.symm.trans hf.free
              refine ⟨⟨own', lim', hset'⟩, accurate_of_beside h ha hnp
                (hb₂.trans (beside_setProc rfl)) fun r hr => ?_⟩
              have hrn : r = new := by
                have : (s₂.procs np).pagetable = some new := by rw [hon.procs, hptn]
                simpa [startChild, setProc, this, eq_comm] using hr
              subst hrn
              refine (count_eq_of_false (Nat.zero_le _) fun v _ hv hval => ?_).trans (Nat.count_zero _)
              have hvu : v < UPAGES := hv.trans_le (npages_le (hset'.sz_le np))
              have := hinv rfl v (by rw [hsp.pte v hvu]; rfl)
              rw [show (startChild s₂ p np).pte r v = s₂.pte r v from rfl, this] at hval
              cases hval

end Fork

/-! ### Runs -/

inductive PageOp where
  | fault (p : ProcId) (va : Nat)
  | sbrk (p : ProcId) (n : Int32) (eager : Bool)
  | fork (p : ProcId)

def PageOp.proc : PageOp → ProcId
  | .fault p _ => p
  | .sbrk p _ _ => p
  | .fork p => p

inductive PageResult where
  | page (pa : Nat)
  | oldSize (sz : Option Nat)
  | child (pid : Option Int)
  deriving DecidableEq

/-- An operation of a process with page table `r`. -/
def pageOp (r : Nat) : PageOp → Kernel → Except String (PageResult × Kernel)
  | .fault p va, s => do
    let (pa, s) ← vmfault s p r va
    return (.page pa, s)
  | .sbrk p n eager, s => do
    let (sz, s) ← sysSbrk s p r n.toInt eager
    return (.oldSize sz, s)
  | .fork p, s => do
    let (pid, s) ← kfork s p
    return (.child pid, s)

def pageStep (o : PageOp) (s : Kernel) : Except String (PageResult × Kernel) :=
  match (s.procs o.proc).pagetable with
  | none => .error "no process"
  | some r => pageOp r o s

/-- The operation enters no page that it does not count. -/
def PageOp.Counts (o : PageOp) (s : Kernel) : Prop :=
  match o with
  | .fault _ _ => True
  | .sbrk p n eager => eager = true → EntersNone s p n.toInt
  | .fork p => ForksNone s p

instance PageOp.decidableCounts (o : PageOp) (s : Kernel) : Decidable (o.Counts s) :=
  match o with
  | .fault _ _ => isTrue trivial
  | .sbrk p n eager => inferInstanceAs (Decidable (eager = true → EntersNone s p n.toInt))
  | .fork p => decidableForksNone s p

theorem Counted.accurate (h : Settled own lim s) (ha : Accurate s) (hc : Counted own own' s s') :
    Coherent s' ∧ Accurate s' := by
  obtain ⟨lim', hset⟩ := hc.settled
  refine ⟨⟨own', lim', hset⟩, hset.accurate_iff.mpr fun q t ht => ?_⟩
  have ht' := (hc.roots q t).1.mp ht
  rw [hc.gap q t ht']
  exact h.accurate_iff.mp ha q t ht'

/-- **One operation** keeps the counters right. -/
theorem pageStep_accurate {o : PageOp} {res : PageResult} (h : Coherent s ∧ Accurate s)
    (ho : o.Counts s) (hstep : pageStep o s = .ok (res, s')) : Coherent s' ∧ Accurate s' := by
  obtain ⟨⟨own, lim, h⟩, ha⟩ := h
  unfold pageStep at hstep
  split at hstep
  · cases hstep
  · next r hpt =>
      have hr := h.wf.pages.own_root hpt
      cases o with
      | fault p va =>
          obtain ⟨x, hx, hstep⟩ := bind_eq_ok.mp hstep
          cases hstep
          obtain ⟨own', hset, hk⟩ := vmfault_keeps h hr hx
          exact Counted.accurate h ha ⟨⟨lim, hset⟩, hk.roots, fun q t ht => vmfault_gap h hr hx ht⟩
      | sbrk p n eager =>
          obtain ⟨x, hx, hstep⟩ := bind_eq_ok.mp hstep
          cases hstep
          obtain ⟨own', hc⟩ := sysSbrk_counted h hr (Int32.le_toInt n) (Int32.toInt_lt n) ho hx
          exact hc.accurate h ha
      | fork p =>
          obtain ⟨x, hx, hstep⟩ := bind_eq_ok.mp hstep
          cases hstep
          exact kfork_accurate h hr ha ho hx

/-- **`resident_pages` counts the pages in memory** in every state of a run that enters no page
without counting it. -/
theorem resident_accurate {ops : List PageOp} {rs : List PageResult} (h : Coherent s)
    (ha : Accurate s) (hm : Meets pageStep PageOp.Counts ops s)
    (hrun : run pageStep ops s = .ok (rs, s')) (hlive : (s'.procs p).state ≠ .unused) :
    ∃ r, (s'.procs p).pagetable = some r ∧
      (s'.procs p).residentPages = validPages s' r (npages (s'.procs p).sz) ∧
      0 ≤ (s'.procs p).residentPages := by
  obtain ⟨⟨own, lim, h'⟩, ha'⟩ := run_invariant
    (fun o s r s' ho hI hs => pageStep_accurate hI ho hs) ops s rs s' hm ⟨h, ha⟩ hrun
  obtain ⟨r, hr⟩ := h'.exists_root hlive
  have hpt := h'.wf.pages.pagetable hr
  have := ha' p r hpt
  exact ⟨r, hpt, this, by omega⟩

theorem firstKernel_accurate : Coherent firstKernel ∧ Accurate firstKernel := by
  obtain ⟨own, lim, h, -⟩ := firstKernel_listed
  exact ⟨⟨own, lim, h⟩, by decide +kernel⟩

/-- A process grows, forks before it has touched a page, and shrinks again. -/
def lazyRun : List PageOp :=
  [.sbrk firstProc (2 * 4096) false, .fork firstProc, .fault firstProc 0, .fault secondProc 4096,
    .fault firstProc 4096, .sbrk firstProc (-4096) false]

theorem resident_accurate_lazy : ∃ rs s', Meets pageStep PageOp.Counts lazyRun firstKernel ∧
    run pageStep lazyRun firstKernel = .ok (rs, s') ∧ (s'.procs secondProc).state ≠ .unused ∧
    ∃ r, (s'.procs secondProc).pagetable = some r ∧
      (s'.procs secondProc).residentPages = validPages s' r (npages (s'.procs secondProc).sz) ∧
      0 ≤ (s'.procs secondProc).residentPages := by
  obtain ⟨hcoh, hacc⟩ := firstKernel_accurate
  have hm : Meets pageStep PageOp.Counts lazyRun firstKernel := by decide +kernel
  have hsome : (run pageStep lazyRun firstKernel).toOption.map
      (fun x => (x.2.procs secondProc).state) = some .runnable := by decide +kernel
  obtain ⟨⟨rs, s'⟩, hrun, hstate⟩ := Option.map_eq_some_iff.mp hsome
  have hrun := eq_ok_of_toOption hrun
  have hlive : (s'.procs secondProc).state ≠ .unused := by
    rw [hstate]
    decide
  exact ⟨rs, s', hm, hrun, hlive, resident_accurate hcoh hacc hm hrun hlive⟩

example : (run pageStep lazyRun firstKernel).toOption.map (fun x =>
    ((x.2.procs firstProc).residentPages, (x.2.procs secondProc).residentPages)) = some (1, 1) := by
  decide +kernel

/-- An eager `sbrk` by a page and back: the page is taken off the counter, but was never added. -/
theorem eager_sbrk_uncounted : ∃ rs s', Coherent firstKernel ∧ Accurate firstKernel ∧
    run pageStep [.sbrk firstProc 4096 true, .sbrk firstProc (-4096) true] firstKernel =
      .ok (rs, s') ∧
    (s'.procs firstProc).state ≠ .unused ∧ (s'.procs firstProc).residentPages = -1 ∧
    ¬ Accurate s' := by
  obtain ⟨hcoh, hacc⟩ := firstKernel_accurate
  have hsome : (run pageStep [.sbrk firstProc 4096 true, .sbrk firstProc (-4096) true]
      firstKernel).toOption.map (fun x => ((x.2.procs firstProc).state,
        (x.2.procs firstProc).residentPages, decide (Accurate x.2))) =
      some (.runnable, -1, false) := by decide +kernel
  obtain ⟨⟨rs, s'⟩, hrun, hx⟩ := Option.map_eq_some_iff.mp hsome
  simp only [Prod.mk.injEq, decide_eq_false_iff_not] at hx
  refine ⟨rs, s', hcoh, hacc, eq_ok_of_toOption hrun, ?_, hx.2.1, hx.2.2⟩
  rw [hx.1]
  decide

end Xv6.Vm
