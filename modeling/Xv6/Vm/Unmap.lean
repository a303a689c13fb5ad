import Xv6.Vm.Evict

/-!
# Vm — Unmap

`uvmunmap` and `uvmdealloc`: pages of user memory are given back.

* `uvmunmapPage_spec`: one turn of the loop frees the page or the slot behind one entry.
* `uvmunmap_spec`: a range of pages, by induction on its length.
* `uvmdealloc_spec`: the pages between two sizes.
-/

namespace Xv6.Vm
open Xv6.Lib
open Xv6.Raid (Page zeroPage PGSIZE BLOCKS_PER_PAGE MAX_SWAP Healthy)

variable {own own' : Nat → Owner} {lim : Nat → Nat} {s s' : Kernel} {p q : ProcId}
  {r v pa va : Nat}

/-! ### The frame table -/

/-- The loop of `uvmunmap` over the frame table forgets the entry about `pa`, and no other. -/
theorem dropFrame_spec {ft : FrameTable} (h : Frames own ft) (pa : Nat) :
    (∀ i, (dropFrame ft pa i).used = true → dropFrame ft pa i = ft i ∧ (ft i).pa ≠ pa) ∧
      ∀ i, (ft i).used = true → (ft i).pa ≠ pa → dropFrame ft pa i = ft i := by
  cases hi : (List.finRange MAX_FRAMES).find? fun i => (ft i).used && (ft i).pa == pa with
  | some i =>
      simp only [dropFrame, hi]
      have hfound := List.find?_some hi
      simp only [Bool.and_eq_true, beq_iff_eq] at hfound
      refine ⟨fun j hj => ?_, fun j hj hne => ?_⟩
      · have hji : j ≠ i := by
          rintro rfl
          simp at hj
        rw [Function.update_of_ne hji] at hj ⊢
        exact ⟨rfl, fun he => hji (h.inj j i hj hfound.1 (he.trans hfound.2.symm))⟩
      · have hji : j ≠ i := by
          rintro rfl
          exact hne hfound.2
        rw [Function.update_of_ne hji]
  | none =>
      simp only [dropFrame, hi]
      refine ⟨fun j hj => ⟨trivial, fun he => ?_⟩, fun _ _ _ => trivial⟩
      have := List.find?_eq_none.mp hi j (List.mem_finRange j)
      simp [hj, he] at this

/-! ### One page -/

/-- The pages in `V` of table `r` have been unmapped and given back. -/
structure Unmapped (V : Nat → Prop) (own own' : Nat → Owner) (lim : Nat → Nat) (s s' : Kernel)
    (r : Nat) : Prop where
  wf : Wf own' lim s'
  keeps : Keeps (fun r' v' => r' = r ∧ V v') own own' s s'
  owner : ∀ x, own' x = own x ∨ ((∃ v, V v ∧ own x = .user r v) ∧ own' x = .free)
  pte_in : ∀ v, V v → s'.pte r v = 0
  pte_out : ∀ r' v', ¬ (r' = r ∧ V v') → s'.pte r' v' = s.pte r' v'
  l1 : ∀ r', (s'.tables r').l1 = (s.tables r').l1
  l0 : ∀ r', (s'.tables r').l0 = (s.tables r').l0
  nulls : s'.nullAllocs = s.nullAllocs
  fulls : s'.swapFulls = s.swapFulls

/-- Nothing to do for an entry that is already empty. -/
theorem unmapped_empty (h : Wf own lim s) (h0 : s.pte r v = 0) :
    Unmapped (· = v) own own lim s s r := by
  refine ⟨h, (Keeps.refl own s).weaken fun _ _ hf => hf.elim, fun _ => Or.inl rfl,
    fun w hw => hw ▸ h0, fun _ _ _ => rfl, fun _ => rfl, fun _ => rfl, rfl, rfl⟩

theorem unmapped_swapped {slot : Nat} (h : Wf own lim s) (hr : IsTable own r) (hv : v < UPAGES)
    (hsw : Swapped (s.pte r v) slot) :
    Unmapped (· = v) own own lim s (setPte (swapFree s slot) r v 0) r := by
  have hpte : ∀ r' v', (setPte (swapFree s slot) r v 0).pte r' v' =
      if r' = r ∧ v' = v then 0 else s.pte r' v' := fun r' v' => pte_setPte ..
  have hzero : ∀ n, ¬ Swapped (0 : Pte) n := fun n hn => hn.not_zero rfl
  have hzero' : ∀ x, ¬ Resident (0 : Pte) x := fun x hx => hx.not_zero rfl
  have hnres : ∀ x, ¬ Resident (s.pte r v) x := fun x hx => hx.not_Swapped hsw
  have hpages : Pages own lim (setPte (swapFree s slot) r v 0) :=
    h.pages.entry hv ⟨rfl, rfl, rfl, rfl, fun _ => rfl⟩ rfl hnres hzero' (Or.inl rfl)
      (fun hne => absurd rfl hne) (fun hne => absurd rfl hne) rfl
  have hslots : Slots own (setPte (swapFree s slot) r v 0) := by
    refine h.slots.unswap (Shift.refl own) rfl hzero (fun n hn => ?_) hr hv
    exact Function.update_of_ne (hn slot hsw) ..
  refine ⟨⟨hpages, h.frames, hslots, h.raid, h.kend_pos⟩,
    ⟨⟨rfl, rfl, rfl, rfl, fun _ => rfl⟩, .refl own, fun _ => Iff.rfl, fun r' v' hr' hv' hne => ?_,
      le_rfl, le_rfl, fun _ _ ht => ht⟩, fun _ => Or.inl rfl, fun w hw => ?_,
    fun r' v' hne => ?_, fun r' => setPte_l1 .., fun r' => setPte_l0 .., rfl, rfl⟩
  · exact flat_congr (by rw [hpte, if_neg hne]) (fun _ _ => rfl) (fun _ _ => rfl)
      (h.pages.userEntry hr' hv')
  · rw [hpte, if_pos ⟨rfl, hw⟩]
  · rw [hpte, if_neg hne]

/-- The state after a resident page has been unmapped and freed. -/
def dropPage (s : Kernel) (r v pa : Nat) : Kernel :=
  setPte { setPage s pa (fun _ => 1) with
    frameTable := dropFrame s.frameTable pa, freelist := pa :: s.freelist } r v 0

theorem unmapped_resident (h : Wf own lim s) (hr : IsTable own r) (hv : v < UPAGES)
    (hres : Resident (s.pte r v) pa) :
    Unmapped (· = v) own (Function.update own pa .free) lim s (dropPage s r v pa) r := by
  have hpa := h.pages.own_user hr hv hres
  have hmov : Movable (own pa) := by simp [hpa, Movable]
  have hshift : Shift own (Function.update own pa .free) := shift_update hmov trivial
  obtain ⟨hdrop, hkeep⟩ := dropFrame_spec h.frames pa
  have hpte : ∀ r' v', (dropPage s r v pa).pte r' v' =
      if r' = r ∧ v' = v then 0 else s.pte r' v' := fun r' v' => pte_setPte ..
  have hpages : Pages (Function.update own pa .free) lim (dropPage s r v pa) :=
    h.pages.drop hr hv ⟨rfl, rfl, rfl, rfl, fun _ => rfl⟩ rfl hres rfl rfl
  have hframes : Frames (Function.update own pa .free) (dropFrame s.frameTable pa) := by
    refine Frames.free (h.frames.sub fun i hi => ?_) hmov fun i hi => ?_
    · obtain ⟨he, -⟩ := hdrop i hi
      rw [he] at hi ⊢
      exact ⟨hi, rfl, rfl, rfl⟩
    · obtain ⟨he, hne⟩ := hdrop i hi
      rwa [he]
  have hslots : Slots (Function.update own pa .free) (dropPage s r v pa) :=
    h.slots.unswap hshift rfl (fun n hn => hn.not_zero rfl) (fun _ _ => rfl) hr hv
  refine ⟨⟨hpages, hframes, hslots, h.raid, h.kend_pos⟩,
    ⟨⟨rfl, rfl, rfl, rfl, fun _ => rfl⟩, hshift.roots, fun x => hshift.eq_iff (by simp [Movable]) x,
      fun r' v' hr' hv' hne => ?_, le_rfl, le_rfl, fun _ _ ht x hx => ?_⟩, fun x => ?_,
    fun w hw => ?_, fun r' v' hne => ?_, fun r' => setPte_l1 .., fun r' => setPte_l0 .., rfl, rfl⟩
  · refine flat_congr (by rw [hpte, if_neg hne]) (fun x hx => ?_) (fun _ _ => rfl)
      (h.pages.userEntry hr' hv')
    have hxp : x ≠ pa := by
      rintro rfl
      cases hpa.symm.trans (h.pages.own_user hr' hv' hx)
      exact hne ⟨rfl, rfl⟩
    simp [dropPage, setPte, setTable, setPage, hxp]
  · have hxp : x ≠ pa := by
      rintro rfl
      simp at hx
    rw [Function.update_of_ne hxp] at hx
    obtain ⟨i, hi, hix⟩ := ht x hx
    have hsame : (dropPage s r v pa).frameTable i = s.frameTable i := hkeep i hi (by rwa [hix])
    exact ⟨i, by rw [hsame, hi], by rw [hsame, hix]⟩
  · by_cases hxp : x = pa
    · subst hxp
      exact Or.inr ⟨⟨v, rfl, hpa⟩, Function.update_self ..⟩
    · exact Or.inl (Function.update_of_ne hxp ..)
  · rw [hpte, if_pos ⟨rfl, hw⟩]
  · rw [hpte, if_neg hne]

/-- **One turn** of the loop of `uvmunmap`. -/
theorem uvmunmapPage_spec (h : Wf own lim s) (hr : IsTable own r) (hv : v < UPAGES) :
    ∃ s' own', uvmunmapPage s r true (v * PGSIZE) = .ok s' ∧ Unmapped (· = v) own own' lim s s' r := by
  have hdiv : v * PGSIZE / PGSIZE = v := Nat.mul_div_cancel v (by decide)
  have hlt : v * PGSIZE < MAXVA := by
    simp only [UPAGES, TRAPFRAME, TRAMPOLINE, MAXVA, PGSIZE] at *
    omega
  rcases walk_eq (h.pages.table r hr) hlt with hw | ⟨hw, h0⟩
  · rw [hdiv] at hw
    rcases h.pages.userEntry hr hv with h0 | ⟨pa, hres⟩ | ⟨slot, hsw⟩
    · refine ⟨s, own, ?_, unmapped_empty h h0⟩
      rw [h0] at hw
      simp only [uvmunmapPage, hw, ok_bind]
      rfl
    · refine ⟨_, _, ?_, unmapped_resident h hr hv hres⟩
      have hpa := h.pages.own_user hr hv hres
      have hfree : kfree { s with frameTable := dropFrame s.frameTable pa } pa = .ok _ :=
        kfree_eq (h.pages.range pa (by simp [hpa]))
      simp only [uvmunmapPage, hw, ok_bind, hres.not_swapped, hres.valid, hres.pa_eq, hfree, hdiv]
      rfl
    · refine ⟨_, _, ?_, unmapped_swapped h hr hv hsw⟩
      simp only [uvmunmapPage, hw, ok_bind, hsw.swapped, hsw.slot_eq, hdiv]
      rfl
  · rw [hdiv] at h0
    exact ⟨s, own, by simp only [uvmunmapPage, hw, ok_bind]; rfl, unmapped_empty h h0⟩

/-! ### A range of pages -/

theorem Unmapped.trans {V V' W : Nat → Prop} {o₁ o₂ o₃ : Nat → Owner} {s₁ s₂ s₃ : Kernel}
    (h : Unmapped V o₁ o₂ lim s₁ s₂ r) (h' : Unmapped V' o₂ o₃ lim s₂ s₃ r)
    (hW : ∀ v, W v ↔ V v ∨ V' v) : Unmapped W o₁ o₃ lim s₁ s₃ r := by
  refine ⟨h'.wf, h.keeps.trans h'.keeps fun r' v' ht => ?_, fun x => ?_, fun v hv => ?_,
    fun r' v' hne => ?_, fun r' => (h'.l1 r').trans (h.l1 r'), fun r' => (h'.l0 r').trans (h.l0 r'),
    h'.nulls.trans h.nulls, h'.fulls.trans h.fulls⟩
  · exact ht.elim (fun ht => ⟨ht.1, (hW v').mpr (Or.inl ht.2)⟩)
      fun ht => ⟨ht.1, (hW v').mpr (Or.inr ht.2)⟩
  · rcases h'.owner x with he' | ⟨⟨v, hv, hu⟩, hf⟩
    · rcases h.owner x with he | ⟨⟨v, hv, hu⟩, hf⟩
      · exact Or.inl (he'.trans he)
      · exact Or.inr ⟨⟨v, (hW v).mpr (Or.inl hv), hu⟩, he'.trans hf⟩
    · rcases h.owner x with he | ⟨-, hf'⟩
      · exact Or.inr ⟨⟨v, (hW v).mpr (Or.inr hv), he ▸ hu⟩, hf⟩
      · cases hf'.symm.trans hu
  · by_cases hV' : V' v
    · exact h'.pte_in v hV'
    · rw [h'.pte_out r v fun he => hV' he.2]
      exact h.pte_in v (((hW v).mp hv).resolve_right hV')
  · rw [h'.pte_out r' v' fun he => hne ⟨he.1, (hW v').mpr (Or.inr he.2)⟩,
      h.pte_out r' v' fun he => hne ⟨he.1, (hW v').mpr (Or.inl he.2)⟩]

theorem Unmapped.isTable {V : Nat → Prop} (h : Unmapped V own own' lim s s' r) (r' : Nat) :
    IsTable own' r' ↔ IsTable own r' := h.keeps.roots.isTable r'

theorem unmapped_none (h : Wf own lim s) (r : Nat) {V : Nat → Prop} (hV : ∀ v, ¬ V v) :
    Unmapped V own own lim s s r :=
  ⟨h, (Keeps.refl own s).weaken fun _ _ hf => hf.elim, fun _ => Or.inl rfl,
    fun v hv => absurd hv (hV v), fun _ _ _ => rfl, fun _ => rfl, fun _ => rfl, rfl, rfl⟩

/-- **`uvmunmap`** of `n` pages of user memory, which are freed. -/
theorem uvmunmap_spec (h : Wf own lim s) (hr : IsTable own r) (v n : Nat) (hle : v + n ≤ UPAGES) :
    ∃ s' own', uvmunmap s r (v * PGSIZE) n true = .ok s' ∧
      Unmapped (fun w => v ≤ w ∧ w < v + n) own own' lim s s' r := by
  have halign : ¬ v * PGSIZE % PGSIZE ≠ 0 := by simp [Nat.mul_mod_left]
  simp only [uvmunmap, if_neg halign]
  induction n with
  | zero => exact ⟨s, own, rfl, unmapped_none h r fun w hw => by omega⟩
  | succ n ih =>
      obtain ⟨s₁, own₁, h₁, hu₁⟩ := ih (by omega)
      obtain ⟨s₂, own₂, h₂, hu₂⟩ := uvmunmapPage_spec hu₁.wf ((hu₁.isTable r).mpr hr)
        (v := v + n) (by omega)
      refine ⟨s₂, own₂, ?_, hu₁.trans hu₂ fun w => by omega⟩
      rw [List.range_succ, List.foldlM_append, h₁, ok_bind, List.foldlM_cons,
        show v * PGSIZE + n * PGSIZE = (v + n) * PGSIZE from (Nat.add_mul ..).symm, h₂]
      rfl

/-! ### Sizes -/

/-- The number of pages of a process of `sz` bytes. -/
def npages (sz : Nat) : Nat := (sz + (PGSIZE - 1)) / PGSIZE

theorem npages_mono {a b : Nat} (h : a ≤ b) : npages a ≤ npages b :=
  Nat.div_le_div_right (Nat.add_le_add_right h _)

theorem npages_le {sz : Nat} (h : sz ≤ TRAPFRAME) : npages sz ≤ UPAGES := by
  simp only [npages, UPAGES, TRAPFRAME, TRAMPOLINE, MAXVA, PGSIZE] at *
  omega

theorem pgRoundUp_eq {sz : Nat} (h : sz ≤ TRAPFRAME) : pgRoundUp sz = npages sz * PGSIZE := by
  have hlt : sz + (PGSIZE - 1) < 2 ^ 64 := by
    simp only [TRAPFRAME, TRAMPOLINE, MAXVA, PGSIZE] at *
    omega
  rw [pgRoundUp, Nat.mod_eq_of_lt hlt, npages]

/-- An address below the size lies on one of the pages. -/
theorem div_lt_npages {sz : Nat} (h : va < sz) : va / PGSIZE < npages sz := by
  simp only [npages, PGSIZE]
  omega

/-! ### `uvmdealloc` -/

/-- Only the counters of processes have changed. -/
def CountersOnly (s s' : Kernel) : Prop := SameProcs s s' ∧ s' = { s with procs := s'.procs }

theorem CountersOnly.refl (s : Kernel) : CountersOnly s s := ⟨.refl s, rfl⟩

theorem CountersOnly.trans {s₁ s₂ s₃ : Kernel} (h : CountersOnly s₁ s₂) (h' : CountersOnly s₂ s₃) :
    CountersOnly s₁ s₃ := by
  obtain ⟨hp, he⟩ := h
  obtain ⟨hp', he'⟩ := h'
  refine ⟨hp.trans hp', ?_⟩
  rw [he', he]

theorem countersOnly_setProc (s : Kernel) (p : ProcId) (x : Proc)
    (h : x.ident = (s.procs p).ident) : CountersOnly s (setProc s p x) :=
  ⟨sameProcs_setProc s p x h, rfl⟩

theorem CountersOnly.wf (hc : CountersOnly s s') (h : Wf own lim s) : Wf own lim s' := by
  obtain ⟨hp, he⟩ := hc
  refine h.congr hp ?_ ?_ ?_ (fun i hi => ?_) ?_
  all_goals rw [he] at *
  · exact ⟨hi, rfl, rfl, rfl⟩
  · exact h.raid

theorem CountersOnly.keeps (hc : CountersOnly s s') (own : Nat → Owner) :
    Keeps noPage own own s s' := by
  obtain ⟨hp, he⟩ := hc
  refine ⟨hp, .refl own, fun _ => Iff.rfl, fun r v _ _ _ => ?_, ?_, ?_, fun _ _ ht => ?_⟩
  all_goals rw [he]
  · rfl
  · exact ht

theorem CountersOnly.tables (hc : CountersOnly s s') : s'.tables = s.tables := by
  rw [hc.2]

theorem CountersOnly.unmapped (hc : CountersOnly s s') (h : Wf own lim s) (r : Nat) :
    Unmapped (fun _ => False) own own lim s s' r := by
  refine ⟨hc.wf h, (hc.keeps own).weaken fun _ _ hf => hf.elim, fun _ => Or.inl rfl,
    fun _ hf => hf.elim, fun r' v' _ => pte_of_tables hc.tables r' v', fun _ => by rw [hc.tables],
    fun _ => by rw [hc.tables], by rw [hc.2], by rw [hc.2]⟩

theorem countUnmapped_spec {n : Nat} (h : Pages own lim s) (hr : IsTable own r) (p : ProcId) (v : Nat)
    (hle : v + n ≤ UPAGES) :
    ∃ s', countUnmapped s p r (v * PGSIZE) n = .ok s' ∧ CountersOnly s s' := by
  unfold countUnmapped
  induction n with
  | zero => exact ⟨s, rfl, .refl s⟩
  | succ n ih =>
      obtain ⟨s₁, h₁, hc₁⟩ := ih (by omega)
      have hlt : (v + n) * PGSIZE < MAXVA := by
        simp only [UPAGES, TRAPFRAME, TRAMPOLINE, MAXVA, PGSIZE] at *
        omega
      have hwalk : ∃ e, walk s₁ r ((v + n) * PGSIZE) = .ok e := by
        rw [walk_congr hc₁.tables]
        rcases walk_eq (h.table r hr) hlt with hw | ⟨hw, -⟩
        · exact ⟨_, hw⟩
        · exact ⟨_, hw⟩
      obtain ⟨e, he⟩ := hwalk
      rw [List.range_succ, List.foldlM_append, h₁, ok_bind, List.foldlM_cons,
        show v * PGSIZE + n * PGSIZE = (v + n) * PGSIZE from (Nat.add_mul ..).symm]
      simp only [he, ok_bind, List.foldlM_nil]
      cases e with
      | none => exact ⟨s₁, rfl, hc₁⟩
      | some e =>
          by_cases hV : e.has PTE_V = true
          · let x := { s₁.procs p with residentPages := (s₁.procs p).residentPages - 1 }
            exact ⟨setProc s₁ p x, by simp only [hV]; rfl,
              hc₁.trans (countersOnly_setProc s₁ p x rfl)⟩
          · exact ⟨s₁, by simp [hV], hc₁⟩

/-- **`uvmdealloc`**: the pages between the two sizes are gone. -/
theorem uvmdealloc_spec {oldsz : Nat} (h : Wf own lim s) (hr : IsTable own r) (p : ProcId)
    (newsz : Nat) (hold : oldsz ≤ TRAPFRAME) :
    ∃ s' own', uvmdealloc s p r oldsz newsz = .ok (min oldsz newsz, s') ∧
      Unmapped (fun w => npages newsz ≤ w ∧ w < npages oldsz) own own' lim s s' r := by
  by_cases hge : newsz ≥ oldsz
  · refine ⟨s, own, by rw [uvmdealloc, if_pos hge, Nat.min_eq_left hge], ?_⟩
    have := npages_mono hge
    exact unmapped_none h r fun w hw => by omega
  · have hnew : newsz ≤ TRAPFRAME := by omega
    have hmono : npages newsz ≤ npages oldsz := npages_mono (by omega)
    have hmin : min oldsz newsz = newsz := by omega
    rw [uvmdealloc, if_neg hge, hmin, pgRoundUp_eq hold, pgRoundUp_eq hnew]
    by_cases hlt : npages newsz * PGSIZE < npages oldsz * PGSIZE
    · have hn : (npages oldsz * PGSIZE - npages newsz * PGSIZE) / PGSIZE =
          npages oldsz - npages newsz := by
        rw [← Nat.sub_mul, Nat.mul_div_cancel _ (by decide)]
      have hle : npages newsz + (npages oldsz - npages newsz) ≤ UPAGES := by
        have := npages_le hold
        omega
      obtain ⟨s₁, h₁, hc⟩ := countUnmapped_spec h.pages hr p (npages newsz) hle
      obtain ⟨s₂, own₂, h₂, hu⟩ := uvmunmap_spec (hc.wf h) hr (npages newsz) _ hle
      refine ⟨s₂, own₂, ?_, ?_⟩
      · rw [if_pos hlt]
        simp only [hn, h₁, h₂, ok_bind]
        rfl
      · refine (hc.unmapped h r).trans hu fun w => ?_
        rw [Nat.add_sub_cancel' hmono, false_or]
    · refine ⟨s, own, by rw [if_neg hlt], unmapped_none h r fun w hw => hlt ?_⟩
      exact Nat.mul_lt_mul_of_pos_right (by omega) (by decide)

end Xv6.Vm
