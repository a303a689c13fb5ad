import Xv6.Vm.Grow

/-!
# Vm — Fault

`vmfault`: the page at the faulting address becomes resident, with the contents and permissions
that flat memory gives it.

* `Wf.fill`: a held page takes the place of an entry that maps no page, with that entry's contents.
* `vmfault_swapIn`, `vmfault_lazy`, `vmfault_valid`: the three ways in which `vmfault` serves a
  page below the size.
* `vmfault_spec`: whichever it is, no page of flat memory changes.
-/

namespace Xv6.Vm
open Xv6.Lib
open Xv6.Raid (Page zeroPage PGSIZE BLOCKS_PER_PAGE MAX_SWAP Healthy)

variable {own own' : Nat → Owner} {lim : Nat → Nat} {s s' : Kernel} {p q : ProcId}
  {r v pa va : Nat}

/-! ### Filling an entry -/

/-- The held page `pa` with contents `page` is entered as page `v` of table `r`, whose contents
and permissions were these before. -/
theorem Wf.fill {e : Pte} {page : Page} (h : Wf own lim s) (hr : OwnsTable own p r)
    (hv : v < lim r) (hpa : own pa = .held p (v * PGSIZE))
    (hold : ∀ x, ¬ Resident (s.pte r v) x) (hl0 : HasL0 s r v) (he : Resident e pa)
    (hflat : flat s r v = (page, e.perm)) (hprocs : SameProcs s s')
    (ht : s'.tables = (setPte s r v e).tables) (hfree : s'.freelist = s.freelist)
    (hft : s'.frameTable = s.frameTable) (hraid : s'.raid = s.raid)
    (hmem : s'.mem = Function.update s.mem pa page)
    (hsw : ∀ n, (∀ m, Swapped (s.pte r v) m → n ≠ m) → s'.swapSpace n = s.swapSpace n)
    (hnull : s'.nullAllocs = s.nullAllocs) (hfull : s'.swapFulls = s.swapFulls) :
    Wf (Function.update own pa (.user r v)) lim s' ∧
      Keeps noPage own (Function.update own pa (.user r v)) s s' ∧ Resident (s'.pte r v) pa := by
  have hvu : v < UPAGES := hv.trans_le (h.pages.table r hr.isTable).lim_le
  have hshift : Shift own (Function.update own pa (.user r v)) :=
    shift_update (by simp [hpa, Movable]) trivial
  have hpte : ∀ r' v', s'.pte r' v' = if r' = r ∧ v' = v then e else s.pte r' v' := fun r' v' => by
    rw [pte_of_tables ht, pte_setPte]
  have hself : s'.pte r v = e := by rw [hpte, if_pos ⟨rfl, rfl⟩]
  refine ⟨⟨?_, ?_, ?_, hraid ▸ h.raid, hprocs.kend ▸ h.kend_pos⟩, ⟨hprocs, hshift.roots,
    fun x => hshift.eq_iff (by simp [Movable]) x, fun r' v' hr' hv' _ => ?_, hnull.ge, hfull.ge,
    fun _ _ htr x hx => ?_⟩, hself ▸ he⟩
  · exact h.pages.map hr.isTable hvu hprocs ht hold hpa he hv hl0 hfree
  · rw [hft]
    exact h.frames.map hpa hr (page_div v)
  · exact h.slots.unswap hshift ht (fun _ => he.not_Swapped) hsw hr.isTable hvu
  · by_cases hk : r' = r ∧ v' = v
    · obtain ⟨rfl, rfl⟩ := hk
      rw [hflat, flat_resident (hself ▸ he), hself, hmem, Function.update_self]
    · refine flat_congr (by rw [hpte, if_neg hk]) (fun x hx => ?_) (fun _ _ => by rw [hraid])
        (h.pages.userEntry hr' hv')
      have hne : x ≠ pa := by
        rintro rfl
        cases hpa.symm.trans (h.pages.own_user hr' hv' hx)
      rw [hmem, Function.update_of_ne hne]
  · rw [hft]
    by_cases hxp : x = pa
    · exact htr x (Or.inr ⟨p, _, hxp ▸ hpa⟩)
    · exact htr x (by rwa [Function.update_of_ne hxp] at hx)

/-! ### The page is served -/

/-- After `vmfault` by `p` at page `v` of table `r` has returned `res`. -/
structure Faulted (own own' : Nat → Owner) (lim : Nat → Nat) (s s' : Kernel) (r v res : Nat) :
    Prop where
  wf : Wf own' lim s'
  keeps : Keeps noPage own own' s s'
  noHeld : NoHeld own'
  served : res ≠ 0 → Resident (s'.pte r v) res ∧ s'.swapFulls = s.swapFulls
  failed : res = 0 → s.nullAllocs < s'.nullAllocs ∨ s.swapFulls < s'.swapFulls

theorem Faulted.after {own₁ own₂ : Nat → Owner} {s₁ s₂ : Kernel} {res : Nat}
    (hk : Keeps noPage own own₁ s s₁) (hf : s₁.swapFulls = s.swapFulls)
    (h : Faulted own₁ own₂ lim s₁ s₂ r v res) : Faulted own own₂ lim s s₂ r v res := by
  refine ⟨h.wf, hk.trans h.keeps fun _ _ ht => ht.elim id id, h.noHeld, fun hres => hf ▸ h.served hres,
    fun hres => ?_⟩
  exact (h.failed hres).imp (hk.nulls.trans_lt ·) (hk.fulls.trans_lt ·)

theorem AllocFailed.faulted {s₁ : Kernel} (h : AllocFailed own lim s s₁) (hheld : NoHeld own) :
    Faulted own own lim s s₁ r v 0 :=
  ⟨h.wf, h.keeps, hheld, fun hne => absurd rfl hne, fun _ => h.failed⟩

/-- No page is held once the one held has been entered in a table. -/
theorem noHeld_fill (hheld : NoHeld own) {o : Owner} :
    NoHeld (Function.update (Function.update own pa o) pa (.user r v)) := by
  intro x q a hx
  by_cases hxp : x = pa
  · rw [hxp, Function.update_self] at hx
    cases hx
  · rw [Function.update_of_ne hxp, Function.update_of_ne hxp] at hx
    exact hheld x q a hx

/-- The page allocated for a fault is entered in the table. -/
theorem Allocated.faulted {e : Pte} {page : Page} {s₁ : Kernel} (h : Wf own lim s)
    (hal : Allocated own lim s s₁ p (v * PGSIZE) pa) (hr : OwnsTable own p r) (hheld : NoHeld own)
    (hv : v < lim r) (hold : ∀ x, ¬ Resident (s.pte r v) x) (hl0 : HasL0 s r v)
    (he : Resident e pa) (hflat : flat s r v = (page, e.perm)) (hprocs : SameProcs s₁ s')
    (ht : s'.tables = (setPte s₁ r v e).tables) (hfree : s'.freelist = s₁.freelist)
    (hft : s'.frameTable = s₁.frameTable) (hraid : s'.raid = s₁.raid)
    (hmem : s'.mem = Function.update s₁.mem pa page)
    (hsw : ∀ n, (∀ m, Swapped (s.pte r v) m → n ≠ m) → s'.swapSpace n = s₁.swapSpace n)
    (hnull : s'.nullAllocs = s₁.nullAllocs) (hfull : s'.swapFulls = s₁.swapFulls) :
    ∃ own', Faulted own own' lim s s' r v pa := by
  have hpte := hal.pte r v hold
  have hvu : v < UPAGES := hv.trans_le (h.pages.table r hr.isTable).lim_le
  have hr₁ := (hal.keeps.roots.owns p r).mpr hr
  obtain ⟨hwf, hk, hres⟩ := hal.wf.fill hr₁ hv (Function.update_self ..) (by rwa [hpte])
    (by rw [HasL0, hal.l0]; exact hl0) he ((hal.keeps.flat r v hr.isTable hvu id).trans hflat) hprocs
    ht hfree hft hraid hmem (by rwa [hpte]) hnull hfull
  have hpos : pa ≠ 0 := by
    have := (h.pages.range pa hal.own_ne_kernel).2.1
    have := h.kend_pos
    omega
  exact ⟨_, hwf, hal.keeps.trans hk fun _ _ ht => ht.elim id id, noHeld_fill hheld,
    fun _ => ⟨hres, hfull.trans hal.fulls⟩, fun h0 => absurd h0 hpos⟩

/-! ### The three ways -/

/-- The counters of `p` after a page has been swapped in. -/
def countSwapIn (s : Kernel) (p : ProcId) : Kernel :=
  setProc s p { s.procs p with
    pagesSwappedIn := (s.procs p).pagesSwappedIn + 1,
    residentPages := (s.procs p).residentPages + 1 }

/-- The counters of `p` after a page has been allocated lazily. -/
def countLazy (s : Kernel) (p : ProcId) : Kernel :=
  setProc s p { s.procs p with
    pageFaults := (s.procs p).pageFaults + 1,
    residentPages := (s.procs p).residentPages + 1 }

theorem countSwapIn_procs (s : Kernel) (p : ProcId) : SameProcs s (countSwapIn s p) :=
  sameProcs_setProc s p _ rfl

theorem countLazy_procs (s : Kernel) (p : ProcId) : SameProcs s (countLazy s p) :=
  sameProcs_setProc s p _ rfl

/-- What `vmfault` does once it has found the entry of page `v`. -/
def serveFault (s : Kernel) (p : ProcId) (r v : Nat) : Except String (Nat × Kernel) :=
  if (s.pte r v).has PTE_SWAPPED then do
    match ← kallocUser s p (v * PGSIZE) with
    | (none, s₁) => return (0, s₁)
    | (some mem, s₁) =>
      let s₂ ← swapRead s₁ (swapIdx (s.pte r v)) mem p
      let s₃ := swapFree s₂ (swapIdx (s.pte r v))
      return (mem, countSwapIn (setPte s₃ r v (swapInPte mem (s₃.pte r v))) p)
  else if !(s.pte r v).has PTE_V then do
    match ← kallocUser s p (v * PGSIZE) with
    | (none, s₁) => return (0, s₁)
    | (some mem, s₁) =>
      let s₂ := setPage s₁ mem zeroPage
      return (mem,
        countLazy (setPte s₂ r v (pa2Pte mem ||| PTE_V ||| PTE_R ||| PTE_W ||| PTE_U)) p)
  else
    match (List.finRange MAX_FRAMES).find? fun i => (s.frameTable i).used &&
        (s.frameTable i).proc == some p && (s.frameTable i).va == v * PGSIZE with
    | none => return (pte2Pa (s.pte r v), s)
    | some i => return (pte2Pa (s.pte r v), setFrame s i { s.frameTable i with refBit := true })

/-- The state after `swap_read` has read `page`. -/
def readSlot (s : Kernel) (slot pa : Nat) (p : ProcId) (page : Page) : Kernel :=
  creditRead (setPage { s with swapHead := slot * BLOCKS_PER_PAGE } pa page) p
    (swapLatency s.swapHead (slot * BLOCKS_PER_PAGE))

theorem swapRead_eq {slot : Nat} (h : Healthy s.raid) (hslot : slot < MAX_SWAP)
    (hblk : (s.swapSpace slot).diskBlock = slot * BLOCKS_PER_PAGE) (pa : Nat) (p : ProcId) :
    swapRead s slot pa p = .ok (readSlot s slot pa p (slotPage s.raid slot)) := by
  simp only [swapRead, hblk, raidRead_slot h hslot (s.mem pa), ok_bind]
  rfl

theorem readSlot_procs (s : Kernel) (slot pa : Nat) (p : ProcId) (page : Page) :
    SameProcs s (readSlot s slot pa p page) := by
  have h := sameProcs_setProc s p { s.procs p with
    diskReads := (s.procs p).diskReads + 1,
    totalDiskLatency := (s.procs p).totalDiskLatency +
      swapLatency s.swapHead (slot * BLOCKS_PER_PAGE),
    diskOps := (s.procs p).diskOps + 1 } rfl
  exact ⟨rfl, rfl, rfl, rfl, h.ident⟩

theorem vmfault_eq (s : Kernel) (p : ProcId) (r va : Nat) : vmfault s p r va =
    if va / PGSIZE * PGSIZE ≥ (s.procs p).sz then .ok (0, s)
    else (walkAlloc s r (va / PGSIZE * PGSIZE)) >>= fun x =>
      if !x.1 then .ok (0, x.2) else serveFault x.2 p r (va / PGSIZE) := by
  unfold vmfault serveFault pgRoundDown
  simp only [page_div]
  rfl

section Serve

variable (h : Wf own lim s) (hr : OwnsTable own p r) (hheld : NoHeld own) (hnew : NoNew own)
  (hv : v < lim r) (hl0 : HasL0 s r v)

include h hr hheld hnew hv hl0

theorem serveFault_swapIn (hsw : (s.pte r v).has PTE_SWAPPED = true) :
    ∃ res s' own', serveFault s p r v = .ok (res, s') ∧ Faulted own own' lim s s' r v res := by
  have htab := h.pages.table r hr.isTable
  have hvu : v < UPAGES := hv.trans_le htab.lim_le
  have hswap : Swapped (s.pte r v) (swapIdx (s.pte r v)) := htab.swapped_of hvu hsw
  have hold : ∀ x, ¬ Resident (s.pte r v) x := fun _ hx => hx.not_Swapped hswap
  obtain ⟨res, s₁, hk, hfail, hok⟩ := kallocUser_spec h (page_mod v) (h.victimOk hheld hnew p)
  simp only [serveFault, if_pos hsw, hk, ok_bind]
  cases res with
  | none => exact ⟨0, s₁, own, rfl, (hfail rfl).faulted hheld⟩
  | some pa =>
      have hal := hok pa rfl
      have hpte : s₁.pte r v = s.pte r v := hal.pte r v hold
      have hslot := hal.wf.slots.ok r v (swapIdx (s.pte r v))
        ((hal.keeps.roots.isTable r).mpr hr.isTable) hvu (hpte.symm ▸ hswap)
      have hread := swapRead_eq hal.wf.raid hslot.lt hslot.block pa p
      have hflat : flat s r v =
          (slotPage s₁.raid (swapIdx (s.pte r v)), (swapInPte pa (s.pte r v)).perm) := by
        rw [← hal.keeps.flat r v hr.isTable hvu id, flat_swapped (hpte.symm ▸ hswap), hpte,
          swapInPte_perm]
      have hphys : PhysOk pa := h.pages.physOk hal.own_ne_kernel
      simp only [hread, ok_bind]
      let s₂ := readSlot s₁ (swapIdx (s.pte r v)) pa p (slotPage s₁.raid (swapIdx (s.pte r v)))
      let s₃ := setPte (swapFree s₂ (swapIdx (s.pte r v))) r v (swapInPte pa (s₁.pte r v))
      have hprocs : SameProcs s₁ (countSwapIn s₃ p) := by
        have h₂ : SameProcs s₁ s₂ := readSlot_procs ..
        have h₃ : SameProcs s₂ s₃ := ⟨rfl, rfl, rfl, rfl, fun _ => rfl⟩
        exact (h₂.trans h₃).trans (countSwapIn_procs s₃ p)
      have htables : (countSwapIn s₃ p).tables =
          (setPte s₁ r v (swapInPte pa (s.pte r v))).tables := by
        rw [← hpte]
        rfl
      obtain ⟨own', hf⟩ := hal.faulted h hr hheld hv hold hl0 (swapInPte_resident hphys _) hflat
        hprocs htables rfl rfl rfl rfl (fun n hn => Function.update_of_ne (hn _ hswap) ..) rfl rfl
      exact ⟨pa, _, own', rfl, hf⟩

theorem serveFault_lazy (hsw : (s.pte r v).has PTE_SWAPPED = false)
    (hval : (s.pte r v).has PTE_V = false) :
    ∃ res s' own', serveFault s p r v = .ok (res, s') ∧ Faulted own own' lim s s' r v res := by
  have htab := h.pages.table r hr.isTable
  have hvu : v < UPAGES := hv.trans_le htab.lim_le
  have hzero : s.pte r v = 0 := htab.zero_of_not hvu hval hsw
  have hold : ∀ x, ¬ Resident (s.pte r v) x := fun _ hx => hx.not_zero hzero
  obtain ⟨res, s₁, hk, hfail, hok⟩ := kallocUser_spec h (page_mod v) (h.victimOk hheld hnew p)
  simp only [serveFault, hsw, hval, Bool.false_eq_true, if_false, Bool.not_false, if_true, hk,
    ok_bind]
  cases res with
  | none => exact ⟨0, s₁, own, rfl, (hfail rfl).faulted hheld⟩
  | some pa =>
      have hal := hok pa rfl
      have hentry : pa2Pte pa ||| PTE_V ||| PTE_R ||| PTE_W ||| PTE_U = mapPte pa lazyPerm := by
        simp only [mapPte, lazyPerm]
        ac_rfl
      have hphys : PhysOk pa := h.pages.physOk hal.own_ne_kernel
      have hflat : flat s r v = (zeroPage, (mapPte pa lazyPerm).perm) := by
        rw [flat_zero hzero, mapPte_perm]
        rfl
      let s₂ := setPte (setPage s₁ pa zeroPage) r v (mapPte pa lazyPerm)
      have hprocs : SameProcs s₁ (countLazy s₂ p) := by
        refine SameProcs.trans ?_ (countLazy_procs s₂ p)
        exact ⟨rfl, rfl, rfl, rfl, fun _ => rfl⟩
      obtain ⟨own', hf⟩ := hal.faulted h hr hheld hv hold hl0
        (mapPte_resident hphys ⟨by decide, by decide⟩) hflat hprocs rfl rfl rfl rfl rfl
        (fun _ _ => rfl) rfl rfl
      exact ⟨pa, _, own', by simp only [hentry]; rfl, hf⟩

omit hnew hl0 in
theorem serveFault_valid (hsw : (s.pte r v).has PTE_SWAPPED = false)
    (hval : (s.pte r v).has PTE_V = true) :
    ∃ res s' own', serveFault s p r v = .ok (res, s') ∧ Faulted own own' lim s s' r v res := by
  have htab := h.pages.table r hr.isTable
  have hvu : v < UPAGES := hv.trans_le htab.lim_le
  have hres : Resident (s.pte r v) (pte2Pa (s.pte r v)) := htab.resident_of hvu hval
  have hown := h.pages.own_user hr.isTable hvu hres
  have hpos : pte2Pa (s.pte r v) ≠ 0 := by
    have := (h.pages.range _ (by simp [hown] : own (pte2Pa (s.pte r v)) ≠ .kernel)).2.1
    have := h.kend_pos
    omega
  simp only [serveFault, hsw, hval, Bool.false_eq_true, if_false, Bool.not_true, pure_eq_ok]
  split
  · exact ⟨_, s, own, rfl, h, Keeps.refl own s, hheld, fun _ => ⟨hres, rfl⟩, fun h0 => absurd h0 hpos⟩
  · next i _ =>
      -- only a reference bit changes
      have hsame : SameEntries s.frameTable
          (Function.update s.frameTable i { s.frameTable i with refBit := true }) := by
        intro j
        by_cases hj : j = i
        · subst hj
          exact ⟨true, by rw [Function.update_self]⟩
        · exact ⟨(s.frameTable j).refBit, by rw [Function.update_of_ne hj]⟩
      refine ⟨_, _, own, rfl, ?_, ⟨⟨rfl, rfl, rfl, rfl, fun _ => rfl⟩, .refl own, fun _ => Iff.rfl,
        fun _ _ _ _ _ => rfl, le_rfl, le_rfl, fun _ _ ht x hx => ?_⟩, hheld,
        fun _ => ⟨hres, rfl⟩, fun h0 => absurd h0 hpos⟩
      · refine h.congr ⟨rfl, rfl, rfl, rfl, fun _ => rfl⟩ rfl rfl rfl (fun j hj => ?_) h.raid
        obtain ⟨hu, hp, hva, hpa⟩ := hsame.fields j
        exact ⟨hu ▸ hj, hp, hva, hpa⟩
      · obtain ⟨j, hj, hjx⟩ := ht x hx
        obtain ⟨hu, -, -, hpa⟩ := hsame.fields j
        exact ⟨j, hu.trans hj, hpa.trans hjx⟩

theorem serveFault_spec :
    ∃ res s' own', serveFault s p r v = .ok (res, s') ∧ Faulted own own' lim s s' r v res := by
  cases hsw : (s.pte r v).has PTE_SWAPPED with
  | true => exact serveFault_swapIn h hr hheld hnew hv hl0 hsw
  | false =>
      cases hval : (s.pte r v).has PTE_V with
      | false => exact serveFault_lazy h hr hheld hnew hv hl0 hsw hval
      | true => exact serveFault_valid h hr hheld hv hsw hval

end Serve

/-! ### `vmfault` -/

theorem WalkKeeps.noHeld (hk : WalkKeeps own own' s s' r) (hheld : NoHeld own) : NoHeld own' :=
  fun x q a hx => hheld x q a (hk.held hx)

/-- **`vmfault`** at an address of a page below the size. -/
theorem vmfault_spec (h : Settled own lim s) (hr : own r = .root p)
    (hva : va / PGSIZE * PGSIZE < (s.procs p).sz) :
    ∃ res s' own', vmfault s p r va = .ok (res, s') ∧ Settled own' lim s' ∧
      Faulted own own' lim s s' r (va / PGSIZE) res := by
  have hown : OwnsTable own p r := Or.inl hr
  have hlt : va / PGSIZE * PGSIZE < MAXVA := by
    have := h.sz_lt p
    simp only [MAXVA]
    omega
  have hv : va / PGSIZE < lim r := by
    rw [h.sized p r hr, ← page_div (va / PGSIZE)]
    exact div_lt_npages hva
  rw [vmfault_eq, if_neg (by omega)]
  obtain ⟨found, s₁, own₁, hw, hwf₁, hk₁, hfound, hnot⟩ := walkAlloc_spec h.wf hown.isTable hlt
  rw [hw, ok_bind]
  cases found with
  | false =>
      have hnull := hnot rfl
      have hkeeps := hk₁.keeps h.wf (by omega)
      have hheld₁ := hk₁.noHeld h.noHeld
      exact ⟨0, s₁, own₁, rfl, h.of_keeps hwf₁ hkeeps hheld₁, hwf₁, hkeeps, hheld₁,
        fun hne => absurd rfl hne, fun _ => Or.inl (by omega)⟩
  | true =>
      obtain ⟨hnull, hl0⟩ := hfound rfl
      rw [page_div] at hl0
      have hkeeps := hk₁.keeps h.wf hnull.ge
      obtain ⟨res, s₂, own₂, hrun, hf⟩ := serveFault_spec hwf₁ ((hk₁.roots.owns p r).mpr hown)
        (hk₁.noHeld h.noHeld) (h.noNew.of_roots hk₁.roots) hv hl0
      have hf' := hf.after hkeeps hk₁.swapFulls
      exact ⟨res, s₂, own₂, hrun, h.of_keeps hf'.wf hf'.keeps hf'.noHeld, hf'⟩

/-- Above the size it fails. -/
theorem vmfault_above (s : Kernel) (p : ProcId) (r : Nat)
    (hva : (s.procs p).sz ≤ va / PGSIZE * PGSIZE) : vmfault s p r va = .ok (0, s) := by
  rw [vmfault_eq, if_pos hva]

end Xv6.Vm
