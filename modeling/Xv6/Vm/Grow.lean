import Xv6.Vm.Unmap

/-!
# Vm — Grow

`uvmalloc`, `growproc` and `sys_sbrk`.

* `uvmallocLoop_spec`: the loop of `uvmalloc`, by induction on the pages left.  A failure because
  swap is full undoes the pages already mapped.
* `growproc_spec`, `sysSbrk_spec`.

When `kalloc` returns 0 for a page table in the middle of `uvmalloc`, the page is freed with its
frame-table entry still in use; nothing is claimed about the state then, but that the call returns.
-/

namespace Xv6.Vm
open Xv6.Lib
open Xv6.Raid (Page zeroPage PGSIZE BLOCKS_PER_PAGE MAX_SWAP Healthy)

variable {own own' : Nat → Owner} {lim : Nat → Nat} {s s' : Kernel} {p q : ProcId}
  {r v pa va : Nat}

/-! ### Unmapping does not depend on the frame table -/

def withFrames (s : Kernel) (ft : FrameTable) : Kernel := { s with frameTable := ft }

theorem uvmunmapPage_withFrames {doFree : Bool} {a : Nat} (ft : FrameTable)
    (h : uvmunmapPage s r doFree a = .ok s') :
    ∃ ft', uvmunmapPage (withFrames s ft) r doFree a = .ok (withFrames s' ft') := by
  have hwalk : walk (withFrames s ft) r a = walk s r a := walk_congr rfl
  unfold uvmunmapPage at h ⊢
  rw [hwalk]
  cases hw : walk s r a with
  | error e => simp [hw] at h
  | ok o =>
      rw [hw, ok_bind] at h
      rw [ok_bind]
      cases o with
      | none =>
          cases h
          exact ⟨ft, rfl⟩
      | some e =>
          by_cases hs : e.has PTE_SWAPPED = true
          · simp only [hs, if_true, pure_eq_ok, Except.ok.injEq] at h ⊢
            exact ⟨ft, by rw [← h]; rfl⟩
          · by_cases hv : e.has PTE_V = true
            · simp only [hs, hv, Bool.not_true, Bool.false_eq_true, if_false] at h ⊢
              cases doFree with
              | false =>
                  simp only [Bool.false_eq_true, if_false, pure_eq_ok, Except.ok.injEq] at h ⊢
                  exact ⟨ft, by rw [← h]; rfl⟩
              | true =>
                  simp only [if_true, kfree] at h ⊢
                  by_cases hok : pte2Pa e % PGSIZE ≠ 0 ∨ pte2Pa e < s.kend ∨ pte2Pa e ≥ PHYSTOP
                  · simp [hok] at h
                  · rw [if_neg hok, ok_bind] at h
                    rw [if_neg (show ¬ (_ ∨ pte2Pa e < (withFrames s ft).kend ∨ _) from hok), ok_bind]
                    cases h
                    exact ⟨dropFrame ft (pte2Pa e), rfl⟩
            · simp only [hs, hv, Bool.not_false, Bool.false_eq_true, if_false, if_true, pure_eq_ok,
                Except.ok.injEq] at h ⊢
              exact ⟨ft, by rw [← h]⟩

theorem uvmunmap_withFrames {n : Nat} {doFree : Bool} (ft : FrameTable)
    (h : uvmunmap s r va n doFree = .ok s') :
    ∃ ft', uvmunmap (withFrames s ft) r va n doFree = .ok (withFrames s' ft') := by
  unfold uvmunmap at h ⊢
  split at h
  · cases h
  · next halign =>
      rw [if_neg halign]
      induction n generalizing s' with
      | zero =>
          cases h
          exact ⟨ft, rfl⟩
      | succ n ih =>
          rw [List.range_succ, List.foldlM_append] at h ⊢
          obtain ⟨s₁, h₁, h₂⟩ := bind_eq_ok.mp h
          obtain ⟨ft₁, hft₁⟩ := ih h₁
          rw [List.foldlM_cons] at h₂
          obtain ⟨s₂, h₃, h₄⟩ := bind_eq_ok.mp h₂
          cases h₄
          obtain ⟨ft₂, hft₂⟩ := uvmunmapPage_withFrames ft₁ h₃
          refine ⟨ft₂, ?_⟩
          rw [hft₁, ok_bind, List.foldlM_cons, hft₂]
          rfl

theorem countUnmapped_withFrames {n : Nat} (ft : FrameTable)
    (h : countUnmapped s p r va n = .ok s') :
    countUnmapped (withFrames s ft) p r va n = .ok (withFrames s' ft) := by
  unfold countUnmapped at h ⊢
  induction n generalizing s' with
  | zero =>
      cases h
      rfl
  | succ n ih =>
      rw [List.range_succ, List.foldlM_append] at h ⊢
      obtain ⟨s₁, h₁, h₂⟩ := bind_eq_ok.mp h
      rw [ih h₁, ok_bind, List.foldlM_cons]
      rw [List.foldlM_cons] at h₂
      obtain ⟨s₂, h₃, h₄⟩ := bind_eq_ok.mp h₂
      cases h₄
      rw [show walk (withFrames s₁ ft) r _ = walk s₁ r _ from walk_congr rfl]
      obtain ⟨o, ho, h₃⟩ := bind_eq_ok.mp h₃
      rw [ho, ok_bind]
      cases o with
      | none =>
          cases h₃
          rfl
      | some e =>
          by_cases hv : e.has PTE_V = true
          · simp only [hv, if_true, pure_eq_ok, Except.ok.injEq] at h₃ ⊢
            rw [← h₃]
            rfl
          · simp only [hv, Bool.false_eq_true, if_false, pure_eq_ok, Except.ok.injEq] at h₃ ⊢
            rw [← h₃]
            rfl

theorem uvmdealloc_withFrames {oldsz newsz n : Nat} (ft : FrameTable)
    (h : uvmdealloc s p r oldsz newsz = .ok (n, s')) :
    ∃ ft', uvmdealloc (withFrames s ft) p r oldsz newsz = .ok (n, withFrames s' ft') := by
  unfold uvmdealloc at h ⊢
  split at h
  · next hge =>
      cases h
      exact ⟨ft, by rw [if_pos hge]⟩
  · next hge =>
      rw [if_neg hge]
      split at h
      · next hlt =>
          rw [if_pos hlt]
          obtain ⟨s₁, h₁, h⟩ := bind_eq_ok.mp h
          obtain ⟨s₂, h₂, h⟩ := bind_eq_ok.mp h
          cases h
          obtain ⟨ft', hft'⟩ := uvmunmap_withFrames ft h₂
          exact ⟨ft', by simp only [countUnmapped_withFrames ft h₁, ok_bind, hft']; rfl⟩
      · next hlt =>
          cases h
          exact ⟨ft, by rw [if_neg hlt]⟩

/-! ### The bound of a table -/

/-- The bound of a table may be set to any number above which the table is empty. -/
theorem Wf.setLim {n : Nat} (h : Wf own lim s) (hn : n ≤ UPAGES)
    (hz : ∀ v, n ≤ v → v < UPAGES → s.pte r v = 0) : Wf own (Function.update lim r n) s := by
  refine ⟨⟨h.pages.range, h.pages.free, h.pages.nodup, h.pages.root, h.pages.trapframe, h.pages.l1,
    h.pages.l0, h.pages.user, fun r' hr' => ?_⟩, h.frames, h.slots, h.raid, h.kend_pos⟩
  have ht := h.pages.table r' hr'
  by_cases hrr : r' = r
  · subst hrr
    rw [Function.update_self]
    exact ⟨ht.l1_lt, ht.l0_l1, ht.pte_l0, ht.shape, hn, hz, ht.top⟩
  · rw [Function.update_of_ne hrr]
    exact ht

theorem Wf.pte_above (h : Wf own lim s) (hr : IsTable own r) (hv : lim r ≤ v) (hu : v < UPAGES) :
    s.pte r v = 0 := (h.pages.table r hr).above v hv hu

/-- A held page is given back, and its frame with it. -/
theorem Wf.release (h : Wf own lim s) (hpa : own pa = .held p va) :
    Wf (Function.update own pa .free) lim (withFrames
      { setPage s pa (fun _ => 1) with freelist := pa :: s.freelist }
      (dropFrame s.frameTable pa)) := by
  have hmov : Movable (own pa) := by simp [hpa, Movable]
  have hshift : Shift own (Function.update own pa .free) := shift_update hmov trivial
  obtain ⟨hfr, hnd⟩ := h.pages.free_cons (by simp [hpa] : own pa ≠ .free)
  obtain ⟨hdrop, -⟩ := dropFrame_spec h.frames pa
  refine ⟨h.pages.shift hshift ⟨rfl, rfl, rfl, rfl, fun _ => rfl⟩ (fun _ _ => rfl) (fun _ _ => rfl)
    hfr hnd ?_ h.pages.table, ?_, h.slots.mono hshift.roots (fun _ _ _ _ => rfl) rfl, h.raid,
    h.kend_pos⟩
  · exact h.pages.user.keep (by simp [hpa, ownUser]) (by simp [ownUser]) fun _ _ => Iff.rfl
  · refine Frames.free (h.frames.sub fun i hi => ?_) hmov fun i hi => ?_
    · obtain ⟨he, -⟩ := hdrop i hi
      change (dropFrame s.frameTable pa i).used = true at hi
      rw [show (withFrames _ (dropFrame s.frameTable pa)).frameTable i = s.frameTable i from he]
      rw [he] at hi
      exact ⟨hi, rfl, rfl, rfl⟩
    · obtain ⟨he, hne⟩ := hdrop i hi
      rwa [show (withFrames _ (dropFrame s.frameTable pa)).frameTable i = s.frameTable i from he]

/-! ### One page more -/

theorem page_mod (v : Nat) : v * PGSIZE % PGSIZE = 0 := Nat.mul_mod_left ..

theorem page_div (v : Nat) : v * PGSIZE / PGSIZE = v := Nat.mul_div_cancel v (by decide)

theorem NoNew.of_roots (h : NoNew own) (hr : SameRoots own own') : NoNew own' := fun x q hx =>
  h x q ((hr q x).2.mp hx)

/-- The page after the last one of table `r` has been added, with contents `page`. -/
structure PageAdded (own own' : Nat → Owner) (lim : Nat → Nat) (s s' : Kernel) (r v : Nat)
    (page : Page) (perm : Pte) : Prop where
  wf : Wf own' (Function.update lim r (v + 1)) s'
  keeps : Keeps (onePage r v) own own' s s'
  noHeld : NoHeld own'
  flat : flat s' r v = (page, perm.perm)
  nulls : s'.nullAllocs = s.nullAllocs
  fulls : s'.swapFulls = s.swapFulls

/-- The page just allocated is filled and mapped after the last page of its table. -/
theorem Allocated.mapPage {perm : Pte} {s₁ : Kernel}
    (hal : Allocated own lim s s₁ p (v * PGSIZE) pa) (hr : OwnsTable own p r) (hv : v < UPAGES)
    (hlim : lim r = v) (hheld : NoHeld own) (hperm : PermOk perm) (page : Page) :
    ∃ mapped s₂ own₂,
      mappages (setPage s₁ pa page) r (v * PGSIZE) PGSIZE pa perm = .ok (mapped, s₂) ∧
      (mapped = true → PageAdded own own₂ lim s s₂ r v page perm ∧
        s₂.frameTable = s₁.frameTable ∧ s₂.clockHand = s₁.clockHand) ∧
      (mapped = false → Wf own₂ (Function.update lim r (v + 1)) s₂ ∧
        own₂ pa = .held p (v * PGSIZE) ∧ SameRoots own own₂ ∧
        s₂.nullAllocs = s.nullAllocs + 1) := by
  let own₁ := Function.update own pa (.held p (v * PGSIZE))
  have hr₁ : OwnsTable own₁ p r := (hal.keeps.roots.owns p r).mpr hr
  -- the invariant does not see what the page is filled with
  have hwf₁ : Wf own₁ lim (setPage s₁ pa page) :=
    hal.wf.congr ⟨rfl, rfl, rfl, rfl, fun _ => rfl⟩ rfl rfl rfl (fun _ hi => ⟨hi, rfl, rfl, rfl⟩)
      hal.wf.raid
  have hwf₁' : Wf own₁ (Function.update lim r (v + 1)) (setPage s₁ pa page) :=
    hwf₁.setLim hv fun w hw hu => hwf₁.pte_above hr₁.isTable (by omega) hu
  have hzero : s₁.pte r v = 0 := hal.wf.pte_above hr₁.isTable hlim.le hv
  have hown : own₁ pa = .held p (v * PGSIZE) := Function.update_self ..
  obtain ⟨mapped, s₂, own₂, hm, htrue, hfalse⟩ := mappages_spec hwf₁' hr₁ hv
    (by rw [Function.update_self]; omega) hown hzero hperm
  refine ⟨mapped, s₂, own₂, hm, fun hmt => ?_, fun hmf => ?_⟩
  · have hmap := htrue hmt
    have hfill : Keeps noPage own₁ own₁ s₁ (setPage s₁ pa page) := by
      refine ⟨⟨rfl, rfl, rfl, rfl, fun _ => rfl⟩, .refl _, fun _ => Iff.rfl, fun r' v' hr' hv' _ => ?_,
        le_rfl, le_rfl, fun _ _ ht => ht⟩
      refine flat_congr rfl (fun x hx => ?_) (fun _ _ => rfl) (hal.wf.pages.userEntry hr' hv')
      have hne : x ≠ pa := by
        rintro rfl
        cases hown.symm.trans (hal.wf.pages.own_user hr' hv' hx)
      simp [setPage, hne]
    refine ⟨⟨hmap.wf, ?_, fun x q b hx => ?_, ?_, hmap.nulls.trans hal.nulls,
      hmap.fulls.trans hal.fulls⟩, hmap.frameTable, hmap.clockHand⟩
    · exact (hal.keeps.trans (hfill.trans hmap.keeps fun _ _ ht => ht.resolve_left id)
        fun _ _ ht => ht.resolve_left id)
    · obtain ⟨hne, hx'⟩ := hmap.held x q b hx
      exact hheld x q b ((Function.update_of_ne hne ..).symm.trans hx')
    · rw [hmap.flat]
      simp [setPage]
  · obtain ⟨hwf₂, hpa₂, hroots₂, hnull⟩ := hfalse hmf
    exact ⟨hwf₂, hpa₂, hal.keeps.roots.trans hroots₂, by rw [hnull]; exact congrArg (· + 1) hal.nulls⟩

/-- The body of the loop of `uvmalloc`. -/
theorem addPage_spec {perm : Pte} (h : Wf own lim s) (hr : OwnsTable own p r) (hv : v < UPAGES)
    (hlim : lim r = v) (hheld : NoHeld own) (hvict : VictimOk own s p) (hperm : PermOk perm) :
    ∃ res s₁, kallocUser s p (v * PGSIZE) = .ok (res, s₁) ∧ (res = none → AllocFailed own lim s s₁) ∧
      ∀ pa, res = some pa → ∃ mapped s₂ own₂,
        mappages (setPage s₁ pa zeroPage) r (v * PGSIZE) PGSIZE pa perm = .ok (mapped, s₂) ∧
        (mapped = true → PageAdded own own₂ lim s s₂ r v zeroPage perm) ∧
        (mapped = false → Wf own₂ (Function.update lim r (v + 1)) s₂ ∧
          own₂ pa = .held p (v * PGSIZE) ∧ SameRoots own own₂ ∧
          s₂.nullAllocs = s.nullAllocs + 1) := by
  obtain ⟨res, s₁, hk, hfail, hok⟩ := kallocUser_spec h (page_mod v) hvict
  refine ⟨res, s₁, hk, hfail, fun pa hpa => ?_⟩
  obtain ⟨mapped, s₂, own₂, hm, htrue, hfalse⟩ := (hok pa hpa).mapPage hr hv hlim hheld hperm zeroPage
  exact ⟨mapped, s₂, own₂, hm, fun hmt => (htrue hmt).1, hfalse⟩

/-! ### The loop of `uvmalloc` -/

theorem npages_page (v : Nat) : npages (v * PGSIZE) = v := by
  simp only [npages, PGSIZE]
  omega

theorem page_le_trapframe (h : v ≤ UPAGES) : v * PGSIZE ≤ TRAPFRAME := by
  simp only [UPAGES, TRAPFRAME, TRAMPOLINE, MAXVA, PGSIZE] at *
  omega

/-- Table `r` is empty again from page `b` on, after an allocation that found swap full. -/
structure Undone (own own' : Nat → Owner) (lim : Nat → Nat) (s s' : Kernel) (r b : Nat) : Prop where
  wf : Wf own' (Function.update lim r b) s'
  keeps : Keeps (fun r' w => r' = r ∧ b ≤ w) own own' s s'
  noHeld : NoHeld own'
  zero : ∀ w, b ≤ w → w < UPAGES → s'.pte r w = 0
  fulls : s.swapFulls < s'.swapFulls

/-- Pages `v` to `v + n` have been added to table `r`, full of zeros. -/
structure PagesAdded (own own' : Nat → Owner) (lim : Nat → Nat) (s s' : Kernel) (r v n : Nat)
    (perm : Pte) : Prop where
  wf : Wf own' (Function.update lim r (v + n)) s'
  keeps : Keeps (fun r' w => r' = r ∧ v ≤ w ∧ w < v + n) own own' s s'
  noHeld : NoHeld own'
  flat : ∀ w, v ≤ w → w < v + n → flat s' r w = (zeroPage, perm.perm)
  fulls : s'.swapFulls = s.swapFulls

theorem Unmapped.noHeld {V : Nat → Prop} (h : Unmapped V own own' lim s s' r) (hh : NoHeld own) :
    NoHeld own' := fun x q b hx => by
  rcases h.owner x with he | ⟨-, hf⟩
  · exact hh x q b (he ▸ hx)
  · cases hf.symm.trans hx

/-- The pages from `b` on are unmapped after a failure at page `v`. -/
theorem undo_spec {b : Nat} {s₁ : Kernel} (hf : AllocFailed own lim s s₁) (hr : IsTable own r)
    (hb : b ≤ v) (hv : v ≤ UPAGES) (hlim : lim r = v) (hheld : NoHeld own) (p : ProcId) :
    ∃ s' own', uvmdealloc s₁ p r (v * PGSIZE) (b * PGSIZE) = .ok (b * PGSIZE, s') ∧
      (s₁.swapFulls = s.swapFulls → s.nullAllocs < s'.nullAllocs) ∧
      (s.swapFulls < s₁.swapFulls → Undone own own' lim s s' r b) := by
  obtain ⟨s', own', hd, hu⟩ := uvmdealloc_spec hf.wf hr p (b * PGSIZE)
    (page_le_trapframe hv)
  have hmin : min (v * PGSIZE) (b * PGSIZE) = b * PGSIZE :=
    Nat.min_eq_right (Nat.mul_le_mul_right _ hb)
  rw [hmin] at hd
  rw [npages_page, npages_page] at hu
  have hzero : ∀ w, b ≤ w → w < UPAGES → s'.pte r w = 0 := by
    intro w hw hwu
    by_cases hwv : w < v
    · exact hu.pte_in w ⟨hw, hwv⟩
    · rw [hu.pte_out r w fun he => hwv he.2.2]
      exact hf.wf.pte_above hr (by omega) hwu
  refine ⟨s', own', hd, fun he => ?_, fun hlt => ⟨hu.wf.setLim (by omega) hzero, ?_,
    hu.noHeld hheld, hzero, by rw [hu.fulls]; exact hlt⟩⟩
  · rw [hu.nulls]
    exact hf.failed.resolve_right (by omega)
  · exact hf.keeps.trans hu.keeps fun r' w ht => ht.elim False.elim fun ht => ⟨ht.1, ht.2.1⟩

/-- When a page table could not be allocated, the page is freed but its frame is not.  The pages
from `b` on are unmapped as well; that the frame table is wrong by now does not stop the call. -/
theorem giveUp_spec (h : Wf own lim s) (hpa : own pa = .held p va) (hr : IsTable own r)
    (hv : v ≤ UPAGES) (b : Nat) :
    ∃ s₁ s₂, kfree s pa = .ok s₁ ∧
      uvmdealloc s₁ p r (v * PGSIZE) (b * PGSIZE) = .ok (min (v * PGSIZE) (b * PGSIZE), s₂) ∧
      s₂.nullAllocs = s.nullAllocs ∧ pa ∈ s₂.freelist := by
  have hmov : Movable (own pa) := by simp [hpa, Movable]
  have hr' : IsTable (Function.update own pa .free) r :=
    ((shift_update (b := .free) hmov trivial).roots.isTable r).mpr hr
  obtain ⟨s₂, own₂, hd, hu⟩ := uvmdealloc_spec (h.release hpa) hr' p (b * PGSIZE)
    (page_le_trapframe hv)
  obtain ⟨ft', hd'⟩ := uvmdealloc_withFrames s.frameTable hd
  have hfree : own₂ pa = .free := by
    rcases hu.owner pa with he | ⟨-, he⟩
    · rw [he, Function.update_self]
    · exact he
  exact ⟨_, _, kfree_eq (h.pages.range pa (by simp [hpa])), hd', hu.nulls,
    (hu.wf.pages.free () pa).mp hfree⟩

/-- **The loop of `uvmalloc`** with `n` pages left, from page `v` on; `b` is the first page it has
added. -/
theorem uvmallocLoop_spec {b : Nat} {x : Pte} (hperm : PermOk (PTE_R ||| PTE_U ||| x)) :
    ∀ (n v : Nat) (own : Nat → Owner) (lim : Nat → Nat) (s : Kernel), Wf own lim s →
      OwnsTable own p r → NoHeld own → NoNew own → lim r = v → b ≤ v → v + n ≤ UPAGES →
      ∃ done s' own', uvmallocLoop p r (b * PGSIZE) x n (v * PGSIZE) s = .ok (done, s') ∧
        s.nullAllocs ≤ s'.nullAllocs ∧
        (done = true → PagesAdded own own' lim s s' r v n (PTE_R ||| PTE_U ||| x)) ∧
        (done = false → s'.nullAllocs = s.nullAllocs → Undone own own' lim s s' r b) := by
  intro n
  induction n with
  | zero =>
      intro v own lim s h _ hheld _ hlim _ hle
      refine ⟨true, s, own, rfl, le_rfl, fun _ => ⟨?_, ?_, hheld, fun w hw hw' => by omega, rfl⟩,
        fun hf => by cases hf⟩
      · rwa [Nat.add_zero, ← hlim, Function.update_eq_self]
      · exact (Keeps.refl own s).weaken fun _ _ hf => hf.elim
  | succ n ih =>
      intro v own lim s h hr hheld hnew hlim hb hle
      obtain ⟨res, s₁, hk, hfail, hok⟩ := addPage_spec h hr (by omega : v < UPAGES) hlim hheld
        (h.victimOk hheld hnew p) hperm
      cases res with
      | none =>
          have hf := hfail rfl
          obtain ⟨s', own', hd, hnull, hundo⟩ := undo_spec hf hr.isTable hb (by omega) hlim hheld p
          refine ⟨false, s', own', by simp [uvmallocLoop, hk, hd], ?_, fun hf => (by cases hf),
            fun _ hn => ?_⟩
          · by_cases hfull : s.swapFulls < s₁.swapFulls
            · exact (hundo hfull).keeps.nulls
            · have := hf.keeps.fulls
              exact (hnull (by omega)).le
          · have hfull : s.swapFulls < s₁.swapFulls := by
              by_contra hnot
              have := hf.keeps.fulls
              have := hnull (by omega)
              omega
            exact hundo hfull
      | some pa =>
          obtain ⟨mapped, s₂, own₂, hm, htrue, hfalse⟩ := hok pa rfl
          cases mapped with
          | false =>
              obtain ⟨hwf₂, hpa₂, hroots₂, hnull₂⟩ := hfalse rfl
              obtain ⟨s₃, s₄, hfree, hd, hnull₄, -⟩ := giveUp_spec hwf₂ hpa₂
                ((hroots₂.isTable r).mpr hr.isTable) (by omega : v ≤ UPAGES) b
              refine ⟨false, s₄, own₂, ?_, by omega, fun hf => (by cases hf), fun _ hn => ?_⟩
              · simp only [uvmallocLoop, hk, ok_bind, hm, hfree]
                simp [hd]
              · omega
          | true =>
              have hadd := htrue rfl
              have hr₂ : OwnsTable own₂ p r := (hadd.keeps.roots.owns p r).mpr hr
              obtain ⟨done, s', own', hloop, hnulls, hdone, hundone⟩ := ih (v + 1) own₂
                (Function.update lim r (v + 1)) s₂ hadd.wf hr₂ hadd.noHeld
                (hnew.of_roots hadd.keeps.roots) (Function.update_self ..) (by omega) (by omega)
              have hrun : uvmallocLoop p r (b * PGSIZE) x (n + 1) (v * PGSIZE) s =
                  .ok (done, s') := by
                simp only [uvmallocLoop, hk, ok_bind, hm, if_true]
                rw [show v * PGSIZE + PGSIZE = (v + 1) * PGSIZE by simp only [PGSIZE]; omega, hloop]
              refine ⟨done, s', own', hrun, by rw [← hadd.nulls]; exact hnulls, fun hd => ?_,
                fun hd hn => ?_⟩
              · have hp := hdone hd
                have hwf' := hp.wf
                rw [Function.update_idem, Nat.add_right_comm, Nat.add_assoc] at hwf'
                refine ⟨hwf', hadd.keeps.trans hp.keeps fun r' w ht => ?_, hp.noHeld,
                  fun w hw hw' => ?_, hp.fulls.trans hadd.fulls⟩
                · rcases ht with ⟨rfl, rfl⟩ | ⟨rfl, h1, h2⟩
                  · exact ⟨rfl, by omega, by omega⟩
                  · exact ⟨rfl, by omega, by omega⟩
                · by_cases hwv : w = v
                  · subst hwv
                    rw [hp.keeps.flat r w hr₂.isTable (by omega) (by omega), hadd.flat]
                  · exact hp.flat w (by omega) (by omega)
              · have hud := hundone hd (by rw [hadd.nulls]; exact hn)
                have hwf' := hud.wf
                rw [Function.update_idem] at hwf'
                refine ⟨hwf', hadd.keeps.trans hud.keeps fun r' w ht => ?_, hud.noHeld, hud.zero,
                  by rw [← hadd.fulls]; exact hud.fulls⟩
                rcases ht with ⟨rfl, rfl⟩ | ht
                · exact ⟨rfl, hb⟩
                · exact ht

/-! ### `uvmalloc` for a process that grows -/

theorem permOk_grow : PermOk (PTE_R ||| PTE_U ||| PTE_W) := ⟨by decide, by decide⟩

/-- A page that has just been added is what a page without an entry stands for. -/
theorem perm_grow : (PTE_R ||| PTE_U ||| PTE_W).perm = lazyPerm := by decide

/-- **`uvmalloc`**, as `growproc` calls it: no page of flat memory changes, whether it succeeds or
not. -/
theorem uvmalloc_spec {oldsz newsz : Nat} (h : Wf own lim s) (hr : OwnsTable own p r)
    (hheld : NoHeld own) (hnew : NoNew own) (hlim : lim r = npages oldsz) (hlt : oldsz < newsz)
    (hle : newsz ≤ TRAPFRAME) :
    ∃ res s' own', uvmalloc s p r oldsz newsz PTE_W = .ok (res, s') ∧
      s.nullAllocs ≤ s'.nullAllocs ∧ (res = newsz ∨ res = 0) ∧
      (res = newsz → Wf own' (Function.update lim r (npages newsz)) s' ∧
        Keeps noPage own own' s s' ∧ NoHeld own' ∧ s'.swapFulls = s.swapFulls) ∧
      (res = 0 → s'.nullAllocs = s.nullAllocs → Wf own' lim s' ∧ Keeps noPage own own' s s' ∧
        NoHeld own' ∧ s.swapFulls < s'.swapFulls) := by
  have hmono : npages oldsz ≤ npages newsz := npages_mono (by omega)
  have hmax : npages newsz ≤ UPAGES := npages_le hle
  have hcount : (newsz - npages oldsz * PGSIZE + (PGSIZE - 1)) / PGSIZE =
      npages newsz - npages oldsz := by
    simp only [npages, PGSIZE] at *
    omega
  obtain ⟨done, s', own', hloop, hnulls, hdone, hundone⟩ := uvmallocLoop_spec (b := npages oldsz)
    permOk_grow (npages newsz - npages oldsz) (npages oldsz) own lim s h hr hheld hnew hlim le_rfl
    (by omega)
  have hrun : uvmalloc s p r oldsz newsz PTE_W = .ok (if done then newsz else 0, s') := by
    rw [uvmalloc, if_neg (by omega), pgRoundUp_eq (by omega)]
    simp only [hcount, hloop, ok_bind]
    rfl
  -- above the old bound there was no entry
  have hflat : ∀ w, npages oldsz ≤ w → w < UPAGES → flat s r w = (zeroPage, lazyPerm) :=
    fun w hw hu => flat_zero (h.pte_above hr.isTable (by omega) hu)
  refine ⟨_, s', own', hrun, hnulls, ?_, fun hres => ?_, fun hres hn => ?_⟩
  · cases done
    · exact Or.inr rfl
    · exact Or.inl rfl
  · cases done with
    | false => simp at hres; omega
    | true =>
        have hp := hdone rfl
        have hwf := hp.wf
        rw [Nat.add_sub_cancel' hmono] at hwf
        refine ⟨hwf, ⟨hp.keeps.procs, hp.keeps.roots, hp.keeps.kernel, fun r' w hr' hw _ => ?_,
          hp.keeps.nulls, hp.keeps.fulls, hp.keeps.tracked⟩, hp.noHeld, hp.fulls⟩
        by_cases hin : r' = r ∧ npages oldsz ≤ w ∧
            w < npages oldsz + (npages newsz - npages oldsz)
        · rw [hin.1, hp.flat w hin.2.1 hin.2.2, hflat w hin.2.1 hw, perm_grow]
        · exact hp.keeps.flat r' w hr' hw hin
  · cases done with
    | true => simp at hres; omega
    | false =>
        have hu := hundone rfl hn
        have hwf := hu.wf
        rw [← hlim, Function.update_eq_self] at hwf
        refine ⟨hwf, ⟨hu.keeps.procs, hu.keeps.roots, hu.keeps.kernel, fun r' w hr' hw _ => ?_,
          hu.keeps.nulls, hu.keeps.fulls, hu.keeps.tracked⟩, hu.noHeld, hu.fulls⟩
        by_cases hin : r' = r ∧ npages oldsz ≤ w
        · rw [hin.1, hflat w hin.2 hw, flat_zero (hu.zero w hin.2 hw)]
        · exact hu.keeps.flat r' w hr' hw hin

/-! ### Between operations -/

/-- The kernel between two operations: no allocation and no table is under way, and the pages of
a process lie below its size. -/
structure Settled (own : Nat → Owner) (lim : Nat → Nat) (s : Kernel) : Prop where
  wf : Wf own lim s
  noHeld : NoHeld own
  noNew : NoNew own
  sized : ∀ p r, own r = .root p → lim r = npages (s.procs p).sz
  sz_le : ∀ p, (s.procs p).sz ≤ TRAPFRAME
  live : ∀ p, (s.procs p).state = .unused ↔ (s.procs p).pagetable = none
  unused : ∀ p, (s.procs p).state = .unused → (s.procs p).trapframe = none ∧ (s.procs p).sz = 0

/-- The kernel with `p->sz = n`. -/
def withSize (s : Kernel) (p : ProcId) (n : Nat) : Kernel := setProc s p { s.procs p with sz := n }

/-- A change of the size of one process that goes with the bound of its table. -/
theorem Settled.resize {own₁ : Nat → Owner} {s₁ : Kernel} {n : Nat} (h : Settled own lim s)
    (hr : own r = .root p) (hk : SameProcs s s₁) (hroots : SameRoots own own₁) (hheld : NoHeld own₁)
    (hn : n ≤ TRAPFRAME) (hwf : Wf own₁ (Function.update lim r (npages n)) s₁) :
    Settled own₁ (Function.update lim r (npages n)) (withSize s₁ p n) := by
  have hpt : (s.procs p).pagetable = some r := h.wf.pages.pagetable hr
  have hfields : ∀ q, ((withSize s₁ p n).procs q).pagetable = (s₁.procs q).pagetable ∧
      ((withSize s₁ p n).procs q).trapframe = (s₁.procs q).trapframe ∧
      ((withSize s₁ p n).procs q).state = (s₁.procs q).state := by
    intro q
    by_cases hq : q = p
    · subst hq
      simp [withSize, setProc]
    · simp [withSize, setProc, hq]
  have hsz : ∀ q, q ≠ p → ((withSize s₁ p n).procs q).sz = (s.procs q).sz := by
    intro q hq
    simp [withSize, setProc, hq, hk.sz]
  have hszp : ((withSize s₁ p n).procs p).sz = n := by simp [withSize, setProc]
  refine ⟨?_, hheld, h.noNew.of_roots hroots, fun q r' hr' => ?_, fun q => ?_, fun q => ?_,
    fun q hq => ?_⟩
  · have hp := hwf.pages
    exact ⟨⟨hp.range, hp.free, hp.nodup, hp.root.congr fun q x => by rw [(hfields q).1],
      hp.trapframe.congr fun q x => by rw [(hfields q).2.1], hp.l1, hp.l0, hp.user, hp.table⟩,
      hwf.frames, ⟨hwf.slots.ok, hwf.slots.inj⟩, hwf.raid, hwf.kend_pos⟩
  · have hr₀ : own r' = .root q := (hroots q r').1.mp hr'
    by_cases hq : q = p
    · subst hq
      rw [h.wf.pages.root_unique hr hr₀, Function.update_self, hszp]
    · have hne : r' ≠ r := by
        rintro rfl
        rw [hr] at hr₀
        cases hr₀
        exact hq rfl
      rw [Function.update_of_ne hne, h.sized q r' hr₀, hsz q hq]
  · by_cases hq : q = p
    · rw [hq, hszp]
      exact hn
    · rw [hsz q hq]
      exact h.sz_le q
  · rw [(hfields q).1, (hfields q).2.2, hk.state, hk.pagetable]
    exact h.live q
  · rw [(hfields q).2.2, hk.state] at hq
    have hqp : q ≠ p := by
      rintro rfl
      rw [(h.live q).mp hq] at hpt
      cases hpt
    rw [(hfields q).2.1, hk.trapframe, hsz q hqp]
    exact h.unused q hq

/-- An operation that leaves the sizes alone. -/
theorem Settled.of_keeps {T : Nat → Nat → Prop} (h : Settled own lim s) (hwf : Wf own' lim s')
    (hk : Keeps T own own' s s') (hheld : NoHeld own') : Settled own' lim s' := by
  refine ⟨hwf, hheld, h.noNew.of_roots hk.roots, fun p r hr => ?_, fun p => ?_, fun p => ?_,
    fun p hp => ?_⟩
  · rw [hk.procs.sz]
    exact h.sized p r ((hk.roots p r).1.mp hr)
  · rw [hk.procs.sz]
    exact h.sz_le p
  · rw [hk.procs.state, hk.procs.pagetable]
    exact h.live p
  · rw [hk.procs.state] at hp
    rw [hk.procs.trapframe, hk.procs.sz]
    exact h.unused p hp

/-- A change of the processes that the invariant does not see. -/
theorem Settled.setProcs {f : ProcId → Proc} (h : Settled own lim s)
    (hpt : ∀ q, (f q).pagetable = (s.procs q).pagetable)
    (htf : ∀ q, (f q).trapframe = (s.procs q).trapframe) (hsz : ∀ q, (f q).sz = (s.procs q).sz)
    (hst : ∀ q, (f q).state = .unused ↔ (s.procs q).state = .unused) :
    Settled own lim { s with procs := f } := by
  have hp := h.wf.pages
  refine ⟨⟨⟨hp.range, hp.free, hp.nodup, hp.root.congr fun q x => by rw [hpt],
    hp.trapframe.congr fun q x => by rw [htf], hp.l1, hp.l0, hp.user, hp.table⟩, h.wf.frames,
    ⟨h.wf.slots.ok, h.wf.slots.inj⟩, h.wf.raid, h.wf.kend_pos⟩, h.noHeld, h.noNew, fun q r hr => ?_,
    fun q => ?_, fun q => ?_, fun q hq => ?_⟩
  · rw [hsz]
    exact h.sized q r hr
  · rw [hsz]
    exact h.sz_le q
  · rw [hst, hpt]
    exact h.live q
  · rw [htf, hsz]
    exact h.unused q ((hst q).mp hq)

/-- A process in use has a page table. -/
theorem Settled.exists_root (h : Settled own lim s) (hp : (s.procs p).state ≠ .unused) :
    ∃ r, own r = .root p := by
  obtain ⟨r, hr⟩ := Option.ne_none_iff_exists'.mp fun hn => hp ((h.live p).mpr hn)
  exact ⟨r, h.wf.pages.own_root hr⟩

/-! ### `growproc` and `sys_sbrk` -/

/-- The size after growing by `n`: a request to shrink below zero is not carried out. -/
def newSize (sz : Nat) (n : Int) : Nat := if 0 ≤ (sz : Int) + n then ((sz : Int) + n).toNat else sz

/-- Process `p` with table `r` has been given the size `n`: the pages below it are as before, the
others are gone, or not yet there. -/
structure Resized (own own' : Nat → Owner) (s s' : Kernel) (p : ProcId) (r n : Nat) : Prop where
  kend : s'.kend = s.kend
  roots : SameRoots own own'
  kernel : ∀ x, own' x = .kernel ↔ own x = .kernel
  sz : ∀ q, (s'.procs q).sz = if q = p then n else (s.procs q).sz
  pagetable : ∀ q, (s'.procs q).pagetable = (s.procs q).pagetable
  state : ∀ q, (s'.procs q).state = (s.procs q).state
  flat : ∀ r' v, IsTable own r' → v < UPAGES → flat s' r' v =
    if r' = r ∧ npages n ≤ v then (zeroPage, lazyPerm) else flat s r' v
  fulls : s.swapFulls ≤ s'.swapFulls
  tracked : s'.swapFulls = s.swapFulls → Tracked own s.frameTable → Tracked own' s'.frameTable

theorem resized_of_keeps {own₁ : Nat → Owner} {s₁ : Kernel} {n : Nat} {T : Nat → Nat → Prop}
    (hk : Keeps T own own₁ s s₁) (hnull : s₁.nullAllocs = s.nullAllocs)
    (hflat : ∀ r' v, IsTable own r' → v < UPAGES → flat s₁ r' v =
      if r' = r ∧ npages n ≤ v then (zeroPage, lazyPerm) else flat s r' v) :
    Resized own own₁ s (withSize s₁ p n) p r n := by
  refine ⟨hk.procs.kend, hk.roots, hk.kernel, fun q => ?_, fun q => ?_, fun q => ?_, hflat, hk.fulls,
    fun hf ht => hk.tracked hnull hf ht⟩
  · by_cases hq : q = p
    · simp [withSize, setProc, hq]
    · simp [withSize, setProc, hq, hk.procs.sz]
  · by_cases hq : q = p
    · subst hq
      simp [withSize, setProc, hk.procs.pagetable]
    · simp [withSize, setProc, hq, hk.procs.pagetable]
  · by_cases hq : q = p
    · subst hq
      simp [withSize, setProc, hk.procs.state]
    · simp [withSize, setProc, hq, hk.procs.state]

theorem withSize_self (s : Kernel) (p : ProcId) : withSize s p (s.procs p).sz = s := by
  simp [withSize, setProc]

theorem addInt_eq {a : Nat} {n : Int} (h₀ : 0 ≤ (a : Int) + n) (h : (a : Int) + n < 2 ^ 64) :
    addInt a n = ((a : Int) + n).toNat := by
  rw [addInt, Int.emod_eq_of_lt h₀ h]

theorem addInt_neg {a : Nat} {n : Int} (h₀ : (a : Int) + n < 0) (h : -2 ^ 63 ≤ (a : Int) + n) :
    2 ^ 63 ≤ addInt a n := by
  simp only [addInt]
  omega

theorem Settled.sz_lt (h : Settled own lim s) (p : ProcId) : (s.procs p).sz < 2 ^ 38 := by
  have hsz := h.sz_le p
  simp only [TRAPFRAME, TRAMPOLINE, MAXVA, PGSIZE] at hsz
  omega

/-- A size set without any other change: the pages above it must be empty already. -/
theorem Settled.setSize {n : Nat} (h : Settled own lim s) (hr : own r = .root p)
    (hn : n ≤ TRAPFRAME) (hle : (s.procs p).sz ≤ n) :
    ∃ lim', Settled own lim' (withSize s p n) ∧ Resized own own s (withSize s p n) p r n := by
  have htab : IsTable own r := ⟨p, Or.inl hr⟩
  have hzero : ∀ w, npages n ≤ w → w < UPAGES → s.pte r w = 0 := fun w hw hu =>
    h.wf.pte_above htab (by rw [h.sized p r hr]; exact (npages_mono hle).trans hw) hu
  refine ⟨_, h.resize hr (.refl s) (.refl own) h.noHeld hn (h.wf.setLim (npages_le hn) hzero),
    resized_of_keeps (Keeps.refl own s) rfl fun r' v hr' hv => ?_⟩
  by_cases hin : r' = r ∧ npages n ≤ v
  · rw [if_pos hin, hin.1]
    exact flat_zero (hzero v hin.2 hv)
  · rw [if_neg hin]

theorem growproc_shrink {n : Int} (h : Settled own lim s) (hr : own r = .root p)
    (hlo : -2 ^ 31 ≤ n) (hneg : n < 0) :
    ∃ s' own' lim', growproc s p r n = .ok (true, s') ∧ s'.nullAllocs = s.nullAllocs ∧
      s'.swapFulls = s.swapFulls ∧ newSize (s.procs p).sz n ≤ TRAPFRAME ∧ Settled own' lim' s' ∧
      Resized own own' s s' p r (newSize (s.procs p).sz n) := by
  have hsz := h.sz_le p
  have hszlt := h.sz_lt p
  have hlim := h.sized p r hr
  have htab : IsTable own r := ⟨p, Or.inl hr⟩
  obtain ⟨s₁, own₁, hd, hu⟩ := uvmdealloc_spec h.wf htab p (addInt (s.procs p).sz n) hsz
  have hnew : min (s.procs p).sz (addInt (s.procs p).sz n) = newSize (s.procs p).sz n := by
    by_cases h₀ : 0 ≤ ((s.procs p).sz : Int) + n
    · rw [addInt_eq h₀ (by omega), newSize, if_pos h₀]
      omega
    · have := addInt_neg (a := (s.procs p).sz) (n := n) (by omega) (by omega)
      rw [newSize, if_neg h₀]
      omega
  have hle : newSize (s.procs p).sz n ≤ (s.procs p).sz := by omega
  rw [hnew] at hd
  -- what has been unmapped is what lies above the new size
  have hV : ∀ w, npages (newSize (s.procs p).sz n) ≤ w → w < npages (s.procs p).sz →
      npages (addInt (s.procs p).sz n) ≤ w ∧ w < npages (s.procs p).sz := by
    intro w hw hw'
    rw [← hnew] at hw
    refine ⟨?_, hw'⟩
    rcases Nat.le_total (s.procs p).sz (addInt (s.procs p).sz n) with hc | hc
    · rw [Nat.min_eq_left hc] at hw
      omega
    · rwa [Nat.min_eq_right hc] at hw
  have hzero : ∀ w, npages (newSize (s.procs p).sz n) ≤ w → w < UPAGES → s₁.pte r w = 0 := by
    intro w hw hwu
    by_cases hin : w < npages (s.procs p).sz
    · exact hu.pte_in w (hV w hw hin)
    · rw [hu.pte_out r w fun he => hin he.2.2]
      exact h.wf.pte_above htab (by omega) hwu
  refine ⟨withSize s₁ p (newSize (s.procs p).sz n), own₁, _, ?_, hu.nulls, hu.fulls, by omega,
    h.resize hr hu.keeps.procs hu.keeps.roots (hu.noHeld h.noHeld) (by omega)
      (hu.wf.setLim (npages_le (by omega)) hzero),
    resized_of_keeps hu.keeps hu.nulls fun r' v hr' hv => ?_⟩
  · simp only [growproc, if_neg (by omega : ¬ n > 0), if_pos hneg, hd, ok_bind]
    rfl
  · by_cases hin : r' = r ∧ npages (newSize (s.procs p).sz n) ≤ v
    · rw [if_pos hin, hin.1]
      exact flat_zero (hzero v hin.2 hv)
    · rw [if_neg hin]
      refine hu.keeps.flat r' v hr' hv fun he => hin ⟨he.1, ?_⟩
      rw [← hnew]
      exact (npages_mono (Nat.min_le_right ..)).trans he.2.1

theorem growproc_grow {n : Int} (h : Settled own lim s) (hr : own r = .root p) (hpos : 0 < n)
    (hhi : n < 2 ^ 31) :
    ∃ done s', growproc s p r n = .ok (done, s') ∧ s.nullAllocs ≤ s'.nullAllocs ∧
      (s'.nullAllocs = s.nullAllocs → ∃ own' lim', Settled own' lim' s' ∧
        (done = true ↔ newSize (s.procs p).sz n ≤ TRAPFRAME ∧ s'.swapFulls = s.swapFulls) ∧
        (done = true → Resized own own' s s' p r (newSize (s.procs p).sz n)) ∧
        (done = false → Keeps noPage own own' s s')) := by
  have hszlt := h.sz_lt p
  have hown : OwnsTable own p r := Or.inl hr
  have hadd : addInt (s.procs p).sz n = newSize (s.procs p).sz n := by
    rw [addInt_eq (by omega) (by omega), newSize, if_pos (by omega)]
  by_cases hbig : addInt (s.procs p).sz n > TRAPFRAME
  · refine ⟨false, s, ?_, le_rfl, fun _ => ⟨own, lim, h, iff_of_false (by decide) fun hle => ?_,
      fun hf => (by cases hf), fun _ => Keeps.refl own s⟩⟩
    · simp only [growproc, if_pos hpos, if_pos hbig]
      rfl
    · omega
  · have hlt : (s.procs p).sz < addInt (s.procs p).sz n := by
      rw [addInt_eq (by omega) (by omega)]
      omega
    obtain ⟨res, s₁, own₁, hrun, hnulls, hcases, hok, hfail⟩ := uvmalloc_spec h.wf hown h.noHeld
      h.noNew (h.sized p r hr) hlt (by omega)
    rcases hcases with hres | hres
    · obtain ⟨hwf₁, hk₁, hheld₁, hfulls₁⟩ := hok hres
      refine ⟨true, withSize s₁ p (newSize (s.procs p).sz n), ?_, hnulls,
        fun hn => ⟨own₁, _, h.resize hr hk₁.procs hk₁.roots hheld₁ (by omega) (hadd ▸ hwf₁),
          iff_of_true rfl ⟨by omega, hfulls₁⟩, fun _ => resized_of_keeps hk₁ hn fun r' v hr' hv => ?_, fun hf => (by cases hf)⟩⟩
      · have hne : res ≠ 0 := by omega
        simp only [growproc, if_pos hpos, if_neg hbig, hrun, ok_bind, if_neg hne]
        rw [hres, hadd]
        rfl
      · by_cases hin : r' = r ∧ npages (newSize (s.procs p).sz n) ≤ v
        · rw [if_pos hin, hin.1]
          refine flat_zero (hwf₁.pte_above ((hk₁.roots.isTable r).mpr hown.isTable) ?_ hv)
          rw [Function.update_self, hadd]
          exact hin.2
        · rw [if_neg hin]
          exact hk₁.flat r' v hr' hv id
    · refine ⟨false, s₁, ?_, hnulls, fun hn => ?_⟩
      · simp only [growproc, if_pos hpos, if_neg hbig, hrun, ok_bind, if_pos hres]
        rfl
      · obtain ⟨hwf₁, hk₁, hheld₁, hfulls₁⟩ := hfail hres hn
        exact ⟨own₁, lim, h.of_keeps hwf₁ hk₁ hheld₁,
          iff_of_false (by decide) fun hf => hfulls₁.ne' hf.2, fun hf => (by cases hf), fun _ => hk₁⟩

/-- **`growproc`** by an `int`. -/
theorem growproc_spec {n : Int} (h : Settled own lim s) (hr : own r = .root p)
    (hlo : -2 ^ 31 ≤ n) (hhi : n < 2 ^ 31) :
    ∃ done s', growproc s p r n = .ok (done, s') ∧ s.nullAllocs ≤ s'.nullAllocs ∧
      (s'.nullAllocs = s.nullAllocs → ∃ own' lim', Settled own' lim' s' ∧
        (done = true ↔ newSize (s.procs p).sz n ≤ TRAPFRAME ∧ s'.swapFulls = s.swapFulls) ∧
        (done = true → Resized own own' s s' p r (newSize (s.procs p).sz n)) ∧
        (done = false → Keeps noPage own own' s s')) := by
  rcases lt_trichotomy n 0 with hneg | hzero | hpos
  · obtain ⟨s', own', lim', hrun, hnull, hfull, hle, hset, hres⟩ := growproc_shrink h hr hlo hneg
    exact ⟨true, s', hrun, hnull.ge, fun _ => ⟨own', lim', hset, iff_of_true rfl ⟨hle, hfull⟩,
      fun _ => hres, fun hf => (by cases hf)⟩⟩
  · subst hzero
    obtain ⟨lim', hset, hres⟩ := h.setSize hr (h.sz_le p) le_rfl
    rw [withSize_self] at hset hres
    have hsize : newSize (s.procs p).sz 0 = (s.procs p).sz := by simp [newSize]
    rw [hsize]
    exact ⟨true, s, by simp [growproc], le_rfl, fun _ => ⟨own, lim', hset,
      iff_of_true rfl ⟨h.sz_le p, rfl⟩, fun _ => hres, fun hf => (by cases hf)⟩⟩
  · exact growproc_grow h hr hpos hhi

/-- **`sys_sbrk`**: a success resizes the process, a failure changes nothing that can be seen. -/
theorem sysSbrk_spec {n : Int} (eager : Bool) (h : Settled own lim s) (hr : own r = .root p)
    (hlo : -2 ^ 31 ≤ n) (hhi : n < 2 ^ 31) :
    ∃ res s', sysSbrk s p r n eager = .ok (res, s') ∧ s.nullAllocs ≤ s'.nullAllocs ∧
      (res = none ∨ res = some (s.procs p).sz) ∧
      (s'.nullAllocs = s.nullAllocs → ∃ own' lim', Settled own' lim' s' ∧
        (res ≠ none ↔ newSize (s.procs p).sz n ≤ TRAPFRAME ∧ s'.swapFulls = s.swapFulls) ∧
        (res ≠ none → Resized own own' s s' p r (newSize (s.procs p).sz n)) ∧
        (res = none → Keeps noPage own own' s s')) := by
  have hszlt := h.sz_lt p
  by_cases heager : eager = true ∨ n < 0
  · obtain ⟨done, s', hrun, hnulls, hpost⟩ := growproc_spec h hr hlo hhi
    refine ⟨if done then some (s.procs p).sz else none, s', ?_, hnulls, ?_, fun hn => ?_⟩
    · simp only [sysSbrk, if_pos heager, hrun, ok_bind]
      cases done <;> rfl
    · cases done
      · exact Or.inl rfl
      · exact Or.inr rfl
    · obtain ⟨own', lim', hset, hiff, ht, hf⟩ := hpost hn
      refine ⟨own', lim', hset, Iff.trans ?_ hiff, fun hne => ht ?_, fun he => hf ?_⟩
      · cases done <;> simp
      · cases done
        · exact absurd rfl hne
        · rfl
      · cases done
        · rfl
        · cases he
  · -- lazily: only the size changes
    have hadd : addInt (s.procs p).sz n = newSize (s.procs p).sz n := by
      rw [addInt_eq (by omega) (by omega), newSize, if_pos (by omega)]
    have hge : ¬ addInt (s.procs p).sz n < (s.procs p).sz := by
      rw [addInt_eq (by omega) (by omega)]
      omega
    by_cases hbig : addInt (s.procs p).sz n > TRAPFRAME
    · refine ⟨none, s, ?_, le_rfl, Or.inl rfl, fun _ => ⟨own, lim, h, iff_of_false (by simp)
        fun hle => ?_, fun hf => absurd rfl hf, fun _ => Keeps.refl own s⟩⟩
      · simp only [sysSbrk, if_neg heager, if_neg hge, if_pos hbig]
        rfl
      · omega
    · obtain ⟨lim', hset, hres⟩ := h.setSize hr (n := newSize (s.procs p).sz n) (by omega)
        (by omega)
      refine ⟨some (s.procs p).sz, withSize s p (newSize (s.procs p).sz n), ?_, le_rfl, Or.inr rfl,
        fun _ => ⟨own, lim', hset, iff_of_true (by simp) ⟨by omega, rfl⟩, fun _ => hres,
          fun hf => (by cases hf)⟩⟩
      simp only [sysSbrk, if_neg heager, if_neg hge, if_neg hbig]
      rw [hadd]
      rfl

end Xv6.Vm
