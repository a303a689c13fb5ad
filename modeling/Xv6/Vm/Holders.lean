import Xv6.Vm.Lifecycle

/-!
# Vm — Holders

Who holds a physical page, and who holds a swap slot, over whole runs of the machine.

* `Holds`: the places where the kernel's data can name a physical page.
* `OneHolder`: every page between `end` and `PHYSTOP` is named in exactly one of them.
* `one_holder`: a run without failed allocations keeps this, and reaping a child frees its pages.
* `SlotsApart`: swapped entries name distinct slots, which are in use.
* `slots_apart`: a run in which `kalloc` does not return 0 keeps this, also when swap fills up.
-/

namespace Xv6.Vm
open Xv6.Lib
open Xv6.Raid (Page zeroPage PGSIZE BLOCKS_PER_PAGE MAX_SWAP Healthy)

variable {own own' : Nat → Owner} {lim : Nat → Nat} {s s' : Kernel} {p q np : ProcId}
  {r v pa va : Nat} {K : Nat → Prop}

/-! ### Holders of pages -/

/-- A place that can name a physical page: the free list, a page-table page of a process (by the
leading bits of its addresses), an entry of a user page, a trapframe, the rest of the kernel. -/
inductive Holder where
  | freelist
  | root (p : ProcId)
  | l1 (p : ProcId) (k : Nat)
  | l0 (p : ProcId) (k : Nat)
  | user (p : ProcId) (v : Nat)
  | trapframe (p : ProcId)
  | kernel
  deriving DecidableEq

/-- The process whose page it is. -/
def Holder.proc : Holder → Option ProcId
  | .freelist => none
  | .root p => some p
  | .l1 p _ => some p
  | .l0 p _ => some p
  | .user p _ => some p
  | .trapframe p => some p
  | .kernel => none

/-- The holder names page `pa`; `K` are the pages of the rest of the kernel. -/
def Holds (K : Nat → Prop) (s : Kernel) : Holder → Nat → Prop
  | .freelist, pa => pa ∈ s.freelist
  | .root p, pa => (s.procs p).pagetable = some pa
  | .l1 p k, pa => ∃ r, (s.procs p).pagetable = some r ∧ (s.tables r).l1 k = some pa
  | .l0 p k, pa => ∃ r, (s.procs p).pagetable = some r ∧ (s.tables r).l0 k = some pa
  | .user p v, pa => ResidentAt s p v pa
  | .trapframe p, pa => (s.procs p).trapframe = some pa
  | .kernel, pa => K pa

/-- A page that `kalloc` can manage. -/
def IsFrame (s : Kernel) (pa : Nat) : Prop := pa % PGSIZE = 0 ∧ s.kend ≤ pa ∧ pa < PHYSTOP

/-- Every page between `end` and `PHYSTOP` has one holder, and the free list has it once. -/
structure OneHolder (K : Nat → Prop) (s : Kernel) : Prop where
  nodup : s.freelist.Nodup
  one : ∀ pa, IsFrame s pa → ∃! x, Holds K s x pa

/-! ### Holders and owners -/

/-- Owner `o` is what the invariant calls the holder `x`. -/
def OwnedAs (own : Nat → Owner) : Holder → Owner → Prop
  | .freelist, o => o = .free
  | .root p, o => o = .root p
  | .l1 p k, o => ∃ r, own r = .root p ∧ o = .l1 r k
  | .l0 p k, o => ∃ r, own r = .root p ∧ o = .l0 r k
  | .user p v, o => ∃ r, own r = .root p ∧ o = .user r v
  | .trapframe p, o => o = .trapframe p
  | .kernel, o => o = .kernel

theorem OwnedAs.unique {x y : Holder} {o : Owner} (hx : OwnedAs own x o) (hy : OwnedAs own y o) :
    x = y := by
  have hroot : ∀ {r r' : Nat} {p q : ProcId}, own r = .root p → own r' = .root q → r = r' → p = q := by
    rintro r _ p q hp hq rfl
    cases hp.symm.trans hq
    rfl
  cases x <;> cases y <;> simp only [OwnedAs] at hx hy
  all_goals try obtain ⟨r, hr, rfl⟩ := hx
  all_goals try obtain ⟨r', hr', he⟩ := hy
  all_goals simp_all

section Owned

variable (h : Settled own lim s)

include h

theorem Settled.holds_iff (hK : K pa ↔ own pa = .kernel) (x : Holder) :
    Holds K s x pa ↔ OwnedAs own x (own pa) := by
  have hroot : ∀ r p, (s.procs p).pagetable = some r ↔ own r = .root p := fun r p =>
    (h.wf.pages.root p r).symm
  have htab : ∀ {r : Nat} {p : ProcId}, own r = .root p → IsTable own r := fun hr => ⟨_, Or.inl hr⟩
  cases x with
  | freelist => exact (h.wf.pages.free () pa).symm
  | root p => exact (h.wf.pages.root p pa).symm
  | l1 p k =>
      refine exists_congr fun r => ?_
      rw [hroot]
      refine and_congr_right fun hr => ?_
      exact (and_iff_right (htab hr)).symm.trans (h.wf.pages.l1 (r, k) pa).symm
  | l0 p k =>
      refine exists_congr fun r => ?_
      rw [hroot]
      refine and_congr_right fun hr => ?_
      exact (and_iff_right (htab hr)).symm.trans (h.wf.pages.l0 (r, k) pa).symm
  | user p v => exact residentAt_iff h
  | trapframe p => exact (h.wf.pages.trapframe p pa).symm
  | kernel => exact hK

/-- Apart from the rest of the kernel, the holders do not depend on `K`. -/
theorem Settled.holds_iff_of_ne {x : Holder} (hx : x ≠ .kernel) :
    Holds K s x pa ↔ OwnedAs own x (own pa) := by
  have hiff := h.holds_iff (K := fun y => own y = .kernel) (Iff.refl (own pa = .kernel)) x
  rw [← hiff]
  cases x with
  | kernel => exact absurd rfl hx
  | _ => exact Iff.rfl

/-- Every owner is some holder. -/
theorem Settled.exists_ownedAs (pa : Nat) : ∃ x, OwnedAs own x (own pa) := by
  have hroot : ∀ r, IsTable own r → ∃ p, own r = .root p := fun r ⟨p, hp⟩ =>
    ⟨p, hp.resolve_right (h.noNew r p)⟩
  cases ho : own pa with
  | kernel => exact ⟨.kernel, rfl⟩
  | free => exact ⟨.freelist, rfl⟩
  | root p => exact ⟨.root p, rfl⟩
  | newRoot p => exact absurd ho (h.noNew pa p)
  | l1 r k =>
      obtain ⟨p, hp⟩ := hroot r ((h.wf.pages.l1 (r, k) pa).mp ho).1
      exact ⟨.l1 p k, r, hp, rfl⟩
  | l0 r k =>
      obtain ⟨p, hp⟩ := hroot r ((h.wf.pages.l0 (r, k) pa).mp ho).1
      exact ⟨.l0 p k, r, hp, rfl⟩
  | trapframe p => exact ⟨.trapframe p, rfl⟩
  | user r v =>
      obtain ⟨p, hp⟩ := hroot r ((h.wf.pages.user (r, v) pa).mp ho).1
      exact ⟨.user p v, r, hp, rfl⟩
  | held p va => exact absurd ho (h.noHeld pa p va)

/-- Given the invariant, one holder means that `K` are the pages the invariant gives to the rest
of the kernel. -/
theorem Settled.oneHolder_iff :
    OneHolder K s ↔ ∀ pa, IsFrame s pa → (K pa ↔ own pa = .kernel) := by
  constructor
  · intro hone pa hpa
    obtain ⟨x, hx, hunique⟩ := hone.one pa hpa
    obtain ⟨y, hy⟩ := h.exists_ownedAs pa
    constructor
    · intro hk
      by_contra hne
      have hyk : y ≠ .kernel := by
        rintro rfl
        exact hne hy
      have h₁ := hunique y ((h.holds_iff_of_ne hyk).mpr hy)
      have h₂ := hunique .kernel hk
      exact hyk (h₁.trans h₂.symm)
    · intro hown
      by_cases hxk : x = .kernel
      · subst hxk
        exact hx
      · have hox := (h.holds_iff_of_ne hxk).mp hx
        rw [hown] at hox
        have hkernel : OwnedAs own .kernel .kernel := rfl
        exact absurd (hox.unique hkernel) hxk
  · intro hK
    refine ⟨h.wf.pages.nodup, fun pa hpa => ?_⟩
    obtain ⟨x, hx⟩ := h.exists_ownedAs pa
    refine ⟨x, (h.holds_iff (hK pa hpa) x).mpr hx, fun y hy => ?_⟩
    exact ((h.holds_iff (hK pa hpa) y).mp hy).unique hx

end Owned

/-! ### Reaping a child -/

/-- `p` has reaped a child, and every page the child held is free. -/
def Reaped (K : Nat → Prop) (s s' : Kernel) (p : ProcId) (addr : Nat) : Prop :=
  ∃ q s₁, (s.procs q).parent = some p ∧ (s.procs q).state = .zombie ∧
    copyStatus s p addr (s.procs q).xstate = .ok (true, s₁) ∧ freeproc s₁ q = .ok s' ∧
    ∀ x pa, x.proc = some q → Holds K s₁ x pa → pa ∈ s'.freelist

/-- The pages of a freed process are on the free list. -/
theorem ProcFreed.frees {x : Holder} (hf : ProcFreed own own' s s' q) (h : Settled own lim s)
    (h' : Settled own' lim s') (hx : x.proc = some q) (hpa : Holds K s x pa) :
    pa ∈ s'.freelist := by
  have hxk : x ≠ .kernel := by
    rintro rfl
    cases hx
  have hox : OwnedAs own x (own pa) := (h.holds_iff_of_ne hxk).mp hpa
  refine (h'.wf.pages.free () pa).mp ((hf.owner pa).resolve_left fun he => ?_)
  -- a page that has kept its owner belongs to a process that is still there
  have hgone : ∀ r, own' r ≠ .root q := fun r hr => ((hf.root q r).mp hr).2 rfl
  have htab : ∀ r, own r = .root q → ¬ IsTable own' r := by
    rintro r hr ⟨p, hp⟩
    have hp := hp.resolve_right (h'.noNew r p)
    obtain ⟨hp, hne⟩ := (hf.root p r).mp hp
    rw [hr] at hp
    cases hp
    exact hne rfl
  cases x with
  | freelist => cases hx
  | root p =>
      cases hx
      exact hgone pa (he.trans hox)
  | l1 p k =>
      cases hx
      obtain ⟨r, hr, ho⟩ := hox
      exact htab r hr ((h'.wf.pages.l1 (r, k) pa).mp (he.trans ho)).1
  | l0 p k =>
      cases hx
      obtain ⟨r, hr, ho⟩ := hox
      exact htab r hr ((h'.wf.pages.l0 (r, k) pa).mp (he.trans ho)).1
  | user p v =>
      cases hx
      obtain ⟨r, hr, ho⟩ := hox
      exact htab r hr ((h'.wf.pages.user (r, v) pa).mp (he.trans ho)).1
  | trapframe p =>
      cases hx
      have htf : (s'.procs q).trapframe = some pa := (h'.wf.pages.trapframe q pa).mp (he.trans hox)
      rw [(h'.unused q hf.state).1] at htf
      cases htf
  | kernel => exact hxk rfl

/-! ### Runs -/

/-- The invariant with the pages of the rest of the kernel fixed. -/
def Held (K : Nat → Prop) (kend : Nat) (s : Kernel) : Prop :=
  ∃ own lim, Settled own lim s ∧ s.kend = kend ∧ ∀ pa, IsFrame s pa → (K pa ↔ own pa = .kernel)

theorem held_iff : Held K s.kend s ↔ Coherent s ∧ OneHolder K s := by
  constructor
  · rintro ⟨own, lim, h, -, hK⟩
    exact ⟨⟨own, lim, h⟩, h.oneHolder_iff.mpr hK⟩
  · rintro ⟨⟨own, lim, h⟩, hone⟩
    exact ⟨own, lim, h, rfl, h.oneHolder_iff.mp hone⟩

theorem kernelStep_held {o : KernelOp} {res : KernelResult} {kend : Nat} (h : Held K kend s)
    (ho : o.Smooth s) (hstep : kernelStep o s = .ok (res, s')) : Held K kend s' := by
  obtain ⟨own, lim, h, rfl, hK⟩ := h
  obtain ⟨hnull, hfull⟩ := ho.2 res s' hstep
  obtain ⟨own', lim', hset, hs⟩ := kernelStep_spec h ho.1 hstep hnull
  have hs := hs hfull
  refine ⟨own', lim', hset, hs.kend, fun pa hpa => ?_⟩
  rw [hs.kernel]
  refine hK pa ?_
  rwa [IsFrame, hs.kend] at hpa

/-- **Every page has one holder** in every state of a run, and a child that is reaped gives back
all its pages. -/
theorem one_holder {ops : List KernelOp} {rs : List KernelResult} (h : Coherent s)
    (hone : OneHolder K s) (hm : Meets kernelStep KernelOp.Smooth ops s)
    (hrun : run kernelStep ops s = .ok (rs, s')) :
    OneHolder K s' ∧ ∀ p addr pid s'', (s'.procs p).state ≠ .unused →
      kwait s' p addr = .ok (.reaped pid, s'') → Reaped K s' s'' p addr := by
  obtain ⟨own', lim', hset', hkend, hK⟩ := run_invariant
    (fun o s r s' ho hI hs => kernelStep_held (K := K) hI ho hs) ops s rs s' hm
    (held_iff.mpr ⟨h, hone⟩) hrun
  refine ⟨hset'.oneHolder_iff.mpr hK, fun p addr pid s'' hp hwait => ?_⟩
  obtain ⟨q, s₁, own₁, r, own₂, hpar, hz, hcopy, hset₁, -, -, hfree, hset₂, hfreed⟩ :=
    kwait_reaped hset' hp hwait
  exact ⟨q, s₁, hpar, hz, hcopy, hfree, fun x pa hx hpa => hfreed.frees hset₁ hset₂ hx hpa⟩

/-- The pages of the rest of the kernel in `firstKernel`: none, `kalloc` has them all. -/
theorem firstKernel_oneHolder : ∃ K, OneHolder K firstKernel := by
  obtain ⟨own, lim, h, -⟩ := firstKernel_listed
  exact ⟨fun pa => own pa = .kernel, h.oneHolder_iff.mpr fun _ _ => Iff.rfl⟩

theorem one_holder_family : ∃ K rs s', OneHolder K firstKernel ∧
    Meets kernelStep KernelOp.Smooth familyRun firstKernel ∧
    run kernelStep familyRun firstKernel = .ok (rs, s') ∧ OneHolder K s' := by
  obtain ⟨own, lim, hset, -⟩ := firstKernel_listed
  obtain ⟨K, hone⟩ := firstKernel_oneHolder
  have hm : Meets kernelStep KernelOp.Smooth familyRun firstKernel := by decide +kernel
  have hok : ∃ x, run kernelStep familyRun firstKernel = .ok x :=
    ⟨_, eq_ok_getD ([], firstKernel) (by decide +kernel)⟩
  obtain ⟨⟨rs, s'⟩, hrun⟩ := hok
  exact ⟨K, rs, s', hone, hm, hrun, (one_holder ⟨own, lim, hset⟩ hone hm hrun).1⟩

/-! ### Holders of swap slots -/

/-- The entry of page `v` of process `p` is swapped out to `slot`. -/
def SwappedAt (s : Kernel) (p : ProcId) (v slot : Nat) : Prop :=
  ∃ r, (s.procs p).pagetable = some r ∧ (s.pte r v).has PTE_SWAPPED = true ∧
    swapIdx (s.pte r v) = slot

/-- Swapped entries name distinct slots, these are in use, and `swap_alloc` hands out none of
them. -/
structure SlotsApart (s : Kernel) : Prop where
  inj : ∀ p v p' v' slot, SwappedAt s p v slot → SwappedAt s p' v' slot → p = p' ∧ v = v'
  used : ∀ p v slot, SwappedAt s p v slot → slot < MAX_SWAP ∧ (s.swapSpace slot).used = true ∧
    (s.swapSpace slot).diskBlock = slot * BLOCKS_PER_PAGE
  fresh : ∀ slot s', swapAlloc s = (some slot, s') → ∀ p v, ¬ SwappedAt s p v slot

theorem swapAlloc_unused {slot : Nat} (h : swapAlloc s = (some slot, s')) :
    (s.swapSpace slot).used = false := by
  unfold swapAlloc at h
  split at h
  · next i hi =>
      cases h
      have := List.find?_some hi
      simpa using this
  · cases h

/-- A swapped entry is one of user memory. -/
theorem Settled.swappedAt {slot : Nat} (h : Settled own lim s) (hs : SwappedAt s p v slot) :
    ∃ r, own r = .root p ∧ v < UPAGES ∧ Swapped (s.pte r v) slot := by
  obtain ⟨r, hr, hsw, rfl⟩ := hs
  have hroot := h.wf.pages.own_root hr
  have htab := h.wf.pages.table r ⟨p, Or.inl hroot⟩
  have hv : v < UPAGES := by
    by_contra hge
    rcases htab.top v (by omega) with h0 | ⟨pa, hres, -⟩
    · rw [Kernel.pte, h0] at hsw
      cases hsw
    · exact absurd hsw (by rw [Kernel.pte, hres.not_swapped]; simp)
  exact ⟨r, hroot, hv, htab.swapped_of hv hsw⟩

theorem Settled.slotsApart (h : Settled own lim s) : SlotsApart s := by
  have hok : ∀ p v slot, SwappedAt s p v slot → ∃ r, own r = .root p ∧ v < UPAGES ∧
      Swapped (s.pte r v) slot ∧ SlotOk own (s.swapSpace slot) r slot := by
    intro p v slot hs
    obtain ⟨r, hr, hv, hsw⟩ := h.swappedAt hs
    exact ⟨r, hr, hv, hsw, h.wf.slots.ok r v slot ⟨p, Or.inl hr⟩ hv hsw⟩
  refine ⟨fun p v p' v' slot hs hs' => ?_, fun p v slot hs => ?_, fun slot s' halloc p v hs => ?_⟩
  · obtain ⟨r, hr, hv, hsw⟩ := h.swappedAt hs
    obtain ⟨r', hr', hv', hsw'⟩ := h.swappedAt hs'
    obtain ⟨rfl, rfl⟩ := h.wf.slots.inj r v r' v' slot ⟨p, Or.inl hr⟩ hv hsw ⟨p', Or.inl hr'⟩ hv' hsw'
    rw [hr] at hr'
    cases hr'
    exact ⟨rfl, rfl⟩
  · obtain ⟨r, -, -, -, hslot⟩ := hok p v slot hs
    exact ⟨hslot.lt, hslot.used, hslot.block⟩
  · obtain ⟨r, -, -, -, hslot⟩ := hok p v slot hs
    cases (swapAlloc_unused halloc).symm.trans hslot.used

/-- The process is there, and `kalloc` does not return 0 in the step. -/
def KernelOp.Supplied (o : KernelOp) (s : Kernel) : Prop :=
  (s.procs o.proc).state ≠ .unused ∧ ∀ res s', kernelStep o s = .ok (res, s') →
    s'.nullAllocs = s.nullAllocs

instance KernelOp.decidableSupplied (o : KernelOp) (s : Kernel) : Decidable (o.Supplied s) :=
  inferInstanceAs (Decidable (_ ∧ _))

theorem kernelStep_coherent {o : KernelOp} {res : KernelResult} (h : Coherent s)
    (ho : o.Supplied s) (hstep : kernelStep o s = .ok (res, s')) : Coherent s' := by
  obtain ⟨own, lim, h⟩ := h
  obtain ⟨own', lim', hset, -⟩ := kernelStep_spec h ho.1 hstep (ho.2 res s' hstep)
  exact ⟨own', lim', hset⟩

/-- **No two pages share a swap slot** in any state of a run. -/
theorem slots_apart {ops : List KernelOp} {rs : List KernelResult} (h : Coherent s)
    (hm : Meets kernelStep KernelOp.Supplied ops s)
    (hrun : run kernelStep ops s = .ok (rs, s')) : SlotsApart s' := by
  obtain ⟨own', lim', hset⟩ := run_invariant
    (fun o s r s' ho hI hs => kernelStep_coherent hI ho hs) ops s rs s' hm h hrun
  exact hset.slotsApart

/-- A process grows until its first page is swapped out, gives the other pages back, and forks: the
child gets a slot of its own. -/
def swappedForkRun : List KernelOp :=
  [.grow firstProc (33 * 4096), .grow firstProc (-32 * 4096), .fork firstProc]

/-- What is left of it. -/
def swappedForkKernel : Kernel := stateAfter (run kernelStep swappedForkRun firstKernel) firstKernel

/-- The slot of the first page of process `p`, if it is swapped out. -/
def firstSlot (s : Kernel) (p : ProcId) : Option Nat :=
  (s.procs p).pagetable.bind fun r =>
    if (s.pte r 0).has PTE_SWAPPED then some (swapIdx (s.pte r 0)) else none

theorem swappedAt_of_firstSlot {slot : Nat} (h : firstSlot s p = some slot) :
    SwappedAt s p 0 slot := by
  obtain ⟨r, hr, h⟩ := Option.bind_eq_some_iff.mp h
  split at h
  · next hsw =>
      cases h
      exact ⟨r, hr, hsw, rfl⟩
  · cases h

theorem slots_apart_forked : Meets kernelStep KernelOp.Supplied swappedForkRun firstKernel ∧
    (∃ rs, run kernelStep swappedForkRun firstKernel = .ok (rs, swappedForkKernel)) ∧
    SwappedAt swappedForkKernel firstProc 0 0 ∧ SwappedAt swappedForkKernel secondProc 0 1 ∧
    SlotsApart swappedForkKernel := by
  obtain ⟨own, lim, hset, -⟩ := firstKernel_listed
  have hm : Meets kernelStep KernelOp.Supplied swappedForkRun firstKernel := by decide +kernel
  obtain ⟨rs, hrun⟩ : ∃ rs, run kernelStep swappedForkRun firstKernel = .ok (rs, swappedForkKernel) :=
    eq_ok_stateAfter firstKernel (by decide +kernel)
  exact ⟨hm, ⟨rs, hrun⟩, swappedAt_of_firstSlot (by decide +kernel),
    swappedAt_of_firstSlot (by decide +kernel), slots_apart ⟨own, lim, hset⟩ hm hrun⟩

end Xv6.Vm
