import Xv6.Vm.Free

/-!
# Vm — Spawn

Making a process: `proc_pagetable` and `allocproc`.

* `Extends`: an operation that gives owners to free pages and leaves all other pages alone.
* `procPagetable_spec`: the new table, with the trampoline and the trapframe mapped.
* `allocproc_spec`: a new process of size 0, or nothing has changed, or `kalloc` returned 0.
-/

namespace Xv6.Vm
open Xv6.Lib
open Xv6.Raid (Page zeroPage PGSIZE BLOCKS_PER_PAGE MAX_SWAP Healthy)

variable {own own' : Nat → Owner} {lim : Nat → Nat} {s s' : Kernel} {p q : ProcId}
  {r v pa k : Nat} {rest : List Nat}

/-! ### Free pages get owners -/

/-- The owners of the kernel's own data. -/
def Fixed : Owner → Prop
  | .root _ | .newRoot _ | .l1 _ _ | .l0 _ _ | .trapframe _ => True
  | _ => False

/-- Free pages may have become pages of the kernel's own data; nothing else has changed but the
processes. -/
structure Extends (own own' : Nat → Owner) (s s' : Kernel) : Prop where
  owner : ∀ x, own' x = own x ∨ (own x = .free ∧ Fixed (own' x))
  pte : ∀ r, IsTable own r → ∀ v, v < UPAGES → s'.pte r v = s.pte r v
  mem : ∀ x, own x ≠ .free → s'.mem x = s.mem x
  kend : s'.kend = s.kend
  trampoline : s'.trampoline = s.trampoline
  initproc : s'.initproc = s.initproc
  frameTable : s'.frameTable = s.frameTable
  clockHand : s'.clockHand = s.clockHand
  swapSpace : s'.swapSpace = s.swapSpace
  raid : s'.raid = s.raid
  fulls : s'.swapFulls = s.swapFulls

theorem Extends.owns (h : Extends own own' s s') (hr : OwnsTable own p r) : OwnsTable own' p r := by
  rcases h.owner r with he | ⟨hf, -⟩
  · rwa [OwnsTable, he]
  · rcases hr with hr | hr <;> cases hf.symm.trans hr

theorem Extends.trans {o₁ o₂ o₃ : Nat → Owner} {s₁ s₂ s₃ : Kernel} (h : Extends o₁ o₂ s₁ s₂)
    (h' : Extends o₂ o₃ s₂ s₃) : Extends o₁ o₃ s₁ s₃ := by
  refine ⟨fun x => ?_, fun r hr v hv => ?_, fun x hx => ?_, h'.kend.trans h.kend,
    h'.trampoline.trans h.trampoline, h'.initproc.trans h.initproc,
    h'.frameTable.trans h.frameTable, h'.clockHand.trans h.clockHand,
    h'.swapSpace.trans h.swapSpace, h'.raid.trans h.raid, h'.fulls.trans h.fulls⟩
  · rcases h.owner x with he | ⟨hf, hx⟩ <;> rcases h'.owner x with he' | ⟨hf', hx'⟩
    · exact Or.inl (he'.trans he)
    · exact Or.inr ⟨he.symm.trans hf', hx'⟩
    · exact Or.inr ⟨hf, by rwa [he']⟩
    · exact Or.inr ⟨hf, hx'⟩
  · obtain ⟨q, hq⟩ := hr
    rw [h'.pte r ⟨q, h.owns hq⟩ v hv, h.pte r ⟨q, hq⟩ v hv]
  · have hx' : o₂ x ≠ .free := by
      rcases h.owner x with he | ⟨hf, -⟩
      · rwa [he]
      · exact absurd hf hx
    exact (h'.mem x hx').trans (h.mem x hx)

theorem WalkKeeps.extends (h : WalkKeeps own own' s s' r) : Extends own own' s s' := by
  refine ⟨fun x => ?_, fun r' _ v _ => h.pte r' v, h.mem, h.procs.kend, h.procs.trampoline,
    h.procs.initproc, h.frameTable, h.clockHand, h.swapSpace, h.raid, h.swapFulls⟩
  refine (h.owner x).imp_right fun ⟨hf, k, hk⟩ => ⟨hf, ?_⟩
  rcases hk with hk | hk <;> rw [hk] <;> trivial

section Consequences

variable (h : Extends own own' s s')

include h

theorem Extends.noHeld (hheld : NoHeld own) : NoHeld own' := by
  intro x q a hx
  rcases h.owner x with he | ⟨-, hf⟩
  · exact hheld x q a (he.symm.trans hx)
  · rw [hx] at hf
    exact hf

theorem Extends.tracked (ht : Tracked own s.frameTable) : Tracked own' s'.frameTable := by
  intro x hx
  rw [h.frameTable]
  rcases h.owner x with he | ⟨-, hf⟩
  · exact ht x (by rwa [he] at hx)
  · rcases hx with ⟨r, v, hx⟩ | ⟨q, a, hx⟩ <;> rw [hx] at hf <;> exact hf.elim

theorem Extends.kernel (x : Nat) : own' x = .kernel ↔ own x = .kernel := by
  rcases h.owner x with he | ⟨hf, hx⟩
  · rw [he]
  · refine iff_of_false (fun hk => ?_) (by simp [hf])
    rw [hk] at hx
    exact hx

theorem Extends.flat (hwf : Wf own lim s) (hr : IsTable own r) (hv : v < UPAGES) :
    flat s' r v = flat s r v := by
  refine flat_congr (h.pte r hr v hv) (fun x hx => h.mem x ?_) (fun n _ => by rw [h.raid])
    (hwf.pages.userEntry hr hv)
  simp [hwf.pages.own_user hr hv hx]

end Consequences

/-- Frames and slots do not mind. -/
theorem Wf.extends (h : Wf own lim s) {lim' : Nat → Nat} (hpages : Pages own' lim' s')
    (he : Extends own own' s s')
    (hnew : ∀ r, IsTable own' r → IsTable own r ∨ ∀ v, v < UPAGES → s'.pte r v = 0) : Wf own' lim' s' := by
  refine ⟨hpages, ?_, ?_, he.raid ▸ h.raid, he.kend ▸ h.kend_pos⟩
  · rw [he.frameTable]
    refine h.frames.restrict (fun i hi => ⟨hi, rfl, rfl, rfl⟩) (fun i hi => ?_)
      fun _ _ _ _ _ _ hr => he.owns hr
    rcases he.owner (s.frameTable i).pa with hc | ⟨hf, -⟩
    · exact hc
    · rcases h.frames.owner hi with ⟨q, a, ho⟩ | ⟨x, v, ho⟩ <;> cases hf.symm.trans ho
  · have hback : ∀ {r v n}, IsTable own' r → v < UPAGES → Swapped (s'.pte r v) n →
        IsTable own r ∧ Swapped (s.pte r v) n := by
      intro r v n hr hv hn
      rcases hnew r hr with hr' | hz
      · exact ⟨hr', he.pte r hr' v hv ▸ hn⟩
      · exact absurd (hz v hv) hn.not_zero
    refine ⟨fun r v n hr hv hn => ?_, fun r v r' v' n hr hv hn hr' hv' hn' => ?_⟩
    · obtain ⟨hr, hn⟩ := hback hr hv hn
      have hok := h.slots.ok r v n hr hv hn
      rw [he.swapSpace]
      exact ⟨hok.lt, hok.used, hok.block, fun q hq => he.owns (hok.proc q hq)⟩
    · obtain ⟨hr, hn⟩ := hback hr hv hn
      obtain ⟨hr', hn'⟩ := hback hr' hv' hn'
      exact h.slots.inj r v r' v' n hr hv hn hr' hv' hn'

/-! ### The trapframe -/

/-- A free page becomes the trapframe of process `p`. -/
theorem Wf.takeTrapframe (h : Wf own lim s) (hfree : s.freelist = pa :: rest)
    (hnone : (s.procs p).trapframe = none) (hf : s'.freelist = rest) (ht : s'.tables = s.tables)
    (hpt : ∀ q, (s'.procs q).pagetable = (s.procs q).pagetable)
    (htf : ∀ q, (s'.procs q).trapframe = if q = p then some pa else (s.procs q).trapframe)
    (he : Extends own (Function.update own pa (.trapframe p)) s s') :
    Wf (Function.update own pa (.trapframe p)) lim s' := by
  have hpa := h.pages.own_head hfree
  have hroots : SameRoots own (Function.update own pa (.trapframe p)) :=
    sameRoots_update (by simp [hpa]) (by simp)
  obtain ⟨hfr, hnd⟩ := h.pages.free_tail hfree (b := .trapframe p) (by simp)
  refine h.extends ⟨fun x hx => ?_, hf ▸ hfr, hf ▸ hnd, ?_, ?_, ?_, ?_, ?_, fun x hx => ?_⟩ he
    fun x hx => Or.inl ((hroots.isTable x).mp hx)
  · rw [he.kend]
    by_cases hxp : x = pa
    · exact hxp ▸ h.pages.range pa (by simp [hpa])
    · exact h.pages.range x (by rwa [Function.update_of_ne hxp] at hx)
  · exact h.pages.root.keep (by simp [hpa]) (by simp) fun q x => by rw [hpt]
  · refine h.pages.trapframe.add (fun a b hab => by cases hab; rfl) p (by simp [hpa]) fun q x => ?_
    rw [htf]
    by_cases hq : q = p
    · rw [if_pos hq, hq, hnone]
      simp [eq_comm]
    · simp [hq]
  · exact h.pages.l1.keep (by simp [hpa, ownL1]) (by simp [ownL1]) fun k x => by
      rw [hroots.isTable, ht]
  · exact h.pages.l0.keep (by simp [hpa, ownL0]) (by simp [ownL0]) fun k x => by
      rw [hroots.isTable, ht]
  · exact h.pages.user.keep (by simp [hpa, ownUser]) (by simp [ownUser]) fun k x => by
      rw [hroots.isTable, pte_of_tables ht]
  · rw [ht]
    exact h.pages.table x ((hroots.isTable x).mp hx)

/-! ### The root of a new table -/

/-- The empty table. -/
def emptyTable : PageTable := ⟨fun _ => none, fun _ => none, fun _ => 0⟩

theorem emptyTable_ok : TableOk emptyTable 0 :=
  ⟨fun _ h => (by cases h), fun _ h => (by cases h), fun _ h => absurd rfl h, fun _ _ => Or.inl rfl,
    Nat.zero_le _, fun _ _ _ => rfl, fun _ _ => Or.inl rfl⟩

/-- The state after `uvmcreate`. -/
def takeRoot (s : Kernel) (r : Nat) (rest : List Nat) : Kernel :=
  setTable { setPage s r (fun _ => 5) with freelist := rest } r emptyTable

theorem takeRoot_extends (h : Pages own lim s) (hfree : s.freelist = r :: rest) (p : ProcId) :
    Extends own (Function.update own r (.newRoot p)) s (takeRoot s r rest) := by
  have hr := h.own_head hfree
  refine ⟨fun x => ?_, fun x hx v _ => ?_, fun x hx => ?_, rfl, rfl, rfl, rfl, rfl, rfl, rfl, rfl⟩
  · by_cases hx : x = r
    · refine Or.inr ⟨hx ▸ hr, ?_⟩
      rw [hx, Function.update_self]
      trivial
    · exact Or.inl (Function.update_of_ne hx ..)
  · have hxr : x ≠ r := by
      rintro rfl
      obtain ⟨q, hq | hq⟩ := hx <;> cases hr.symm.trans hq
    simp [Kernel.pte, takeRoot, setTable, setPage, hxr]
  · have hxr : x ≠ r := fun he => hx (he ▸ hr)
    simp [takeRoot, setTable, setPage, hxr]

theorem Wf.takeRoot (h : Wf own lim s) (hfree : s.freelist = r :: rest) (p : ProcId) :
    Wf (Function.update own r (.newRoot p)) (Function.update lim r 0) (takeRoot s r rest) := by
  have hr := h.pages.own_head hfree
  have he := takeRoot_extends h.pages hfree p
  have hnot : ¬ IsTable own r := by
    rintro ⟨q, hq | hq⟩ <;> cases hr.symm.trans hq
  have htab : ∀ x, IsTable (Function.update own r (.newRoot p)) x ↔ IsTable own x ∨ x = r := by
    intro x
    by_cases hx : x = r
    · subst hx
      simp [IsTable, OwnsTable]
    · simp [IsTable, OwnsTable, hx]
  have htables : ∀ x, (Vm.takeRoot s r rest).tables x =
      if x = r then emptyTable else s.tables x := by
    intro x
    by_cases hx : x = r
    · subst hx
      simp [Vm.takeRoot, setTable]
    · simp [Vm.takeRoot, setTable, setPage, hx]
  obtain ⟨hfr, hnd⟩ := h.pages.free_tail hfree (b := .newRoot p) (by simp)
  refine h.extends ⟨fun x hx => ?_, hfr, hnd, ?_, ?_, ?_, ?_, ?_, fun x hx => ?_⟩ he fun x hx => ?_
  · by_cases hxr : x = r
    · exact hxr ▸ h.pages.range r (by simp [hr])
    · exact h.pages.range x (by rwa [Function.update_of_ne hxr] at hx)
  · exact h.pages.root.keep (by simp [hr]) (by simp) fun _ _ => Iff.rfl
  · exact h.pages.trapframe.keep (by simp [hr]) (by simp) fun _ _ => Iff.rfl
  · refine h.pages.l1.keep (by simp [hr, ownL1]) (by simp [ownL1]) fun key x => ?_
    rw [htab, htables]
    by_cases hk : key.1 = r
    · simp [hk, hnot, emptyTable]
    · simp [hk]
  · refine h.pages.l0.keep (by simp [hr, ownL0]) (by simp [ownL0]) fun key x => ?_
    rw [htab, htables]
    by_cases hk : key.1 = r
    · simp [hk, hnot, emptyTable]
    · simp [hk]
  · refine h.pages.user.keep (by simp [hr, ownUser]) (by simp [ownUser]) fun key x => ?_
    rw [htab, Kernel.pte, htables]
    by_cases hk : key.1 = r
    · refine iff_of_false (fun hx => hx.2.2.not_zero ?_) fun hx => hnot (hk ▸ hx.1)
      rw [if_pos hk]
      rfl
    · simp [hk, Kernel.pte]
  · rw [htables]
    by_cases hxr : x = r
    · rw [if_pos hxr, hxr, Function.update_self]
      exact emptyTable_ok
    · rw [if_neg hxr, Function.update_of_ne hxr]
      exact h.pages.table x (((htab x).mp hx).resolve_right hxr)
  · refine ((htab x).mp hx).imp_right fun hxr v _ => ?_
    rw [Kernel.pte, htables, if_pos hxr]
    rfl

/-- A table under construction becomes the page table of its process. -/
theorem Wf.adopt (h : Wf own lim s) (hr : own r = .newRoot p)
    (hnone : (s.procs p).pagetable = none) :
    Wf (Function.update own r (.root p)) lim (setProc s p { s.procs p with pagetable := some r }) := by
  have howns : ∀ q x, OwnsTable (Function.update own r (.root p)) q x ↔ OwnsTable own q x := by
    intro q x
    by_cases hx : x = r
    · subst hx
      simp [OwnsTable, hr]
    · simp [OwnsTable, hx]
  have htab : ∀ x, IsTable (Function.update own r (.root p)) x ↔ IsTable own x := fun x =>
    exists_congr fun q => howns q x
  have hfields : ∀ q, ((setProc s p { s.procs p with pagetable := some r }).procs q).pagetable =
      (if q = p then some r else (s.procs q).pagetable) ∧
      ((setProc s p { s.procs p with pagetable := some r }).procs q).trapframe =
        (s.procs q).trapframe := by
    intro q
    by_cases hq : q = p
    · subst hq
      simp [setProc]
    · simp [setProc, hq]
  have hpages : Pages (Function.update own r (.root p)) lim
      (setProc s p { s.procs p with pagetable := some r }) := by
    refine ⟨fun x hx => ?_, ?_, h.pages.nodup, ?_, ?_, ?_, ?_, ?_, fun x hx => ?_⟩
    · by_cases hxr : x = r
      · exact hxr ▸ h.pages.range r (by simp [hr])
      · exact h.pages.range x (by rwa [Function.update_of_ne hxr] at hx)
    · exact h.pages.free.keep (by simp [hr, ownFree]) (by simp [ownFree]) fun _ _ => Iff.rfl
    · refine h.pages.root.add (fun a b hab => by cases hab; rfl) p (by simp [hr]) fun q x => ?_
      rw [(hfields q).1]
      by_cases hq : q = p
      · rw [if_pos hq, hq, hnone]
        simp [eq_comm]
      · simp [hq]
    · exact h.pages.trapframe.keep (by simp [hr]) (by simp) fun q x => by rw [(hfields q).2]
    · exact h.pages.l1.keep (by simp [hr, ownL1]) (by simp [ownL1]) fun k x => by rw [htab]; rfl
    · exact h.pages.l0.keep (by simp [hr, ownL0]) (by simp [ownL0]) fun k x => by rw [htab]; rfl
    · exact h.pages.user.keep (by simp [hr, ownUser]) (by simp [ownUser]) fun k x => by rw [htab]; rfl
    · exact h.pages.table x ((htab x).mp hx)
  refine ⟨hpages, h.frames.restrict (fun i hi => ⟨hi, rfl, rfl, rfl⟩) (fun i hi => ?_)
    fun _ q x _ _ _ hq => (howns q x).mpr hq, h.slots.restrict (fun x hx => (htab x).mp hx)
    (fun q x _ hq => (howns q x).mpr hq) (fun _ _ _ _ => rfl) fun _ _ _ _ _ _ => rfl, h.raid,
    h.kend_pos⟩
  refine Function.update_of_ne (fun he => ?_) ..
  rcases h.frames.owner hi with ⟨q, a, ho⟩ | ⟨x, v, ho⟩ <;> simp [he, hr] at ho

/-! ### `proc_pagetable` -/

theorem mapPte_top (pa : Nat) {perm : Pte} (hp : PermOk perm) :
    Resident (mapPte pa perm) (pte2Pa (mapPte pa perm)) := by
  refine ⟨?_, ?_, rfl⟩
  · rw [has_V, mapPte_flag perm (by decide)]
    simp
  · have := hp.not_swapped
    rw [has_SWAPPED] at this ⊢
    rw [mapPte_flag perm (by decide), this]
    simp

theorem mapPte_closed (pa : Nat) {perm : Pte} (hp : perm.has PTE_U = false) :
    (mapPte pa perm).has PTE_U = false := by
  rw [has_U] at hp ⊢
  rw [mapPte_flag perm (by decide), hp]
  rfl

/-- **`mappages`** of the trampoline or the trapframe. -/
theorem mapTop_spec {perm : Pte} (h : Wf own lim s) (hr : IsTable own r) (hv : UPAGES ≤ v)
    (hlt : v * PGSIZE < MAXVA) (hzero : s.pte r v = 0) (hperm : PermOk perm)
    (huser : perm.has PTE_U = false) (pa : Nat) :
    ∃ mapped s' own', mappages s r (v * PGSIZE) PGSIZE pa perm = .ok (mapped, s') ∧
      SameProcs s s' ∧ Wf own' lim s' ∧ Extends own own' s s' ∧ SameRoots own own' ∧
      (mapped = true → s'.nullAllocs = s.nullAllocs ∧
        ∀ w, w ≠ v → s'.pte r w = s.pte r w) ∧
      (mapped = false → s.nullAllocs < s'.nullAllocs ∧ ∀ w, s'.pte r w = s.pte r w) := by
  obtain ⟨found, s₁, own₁, hwalk, hwf₁, hk₁, hfound, hnot⟩ := walkAlloc_spec h hr hlt
  have hloop : mappages s r (v * PGSIZE) PGSIZE pa perm =
      mappagesLoop r perm 1 s (v * PGSIZE) pa := by
    simp only [mappages, Nat.mul_mod_left, PGSIZE]
    rfl
  cases found with
  | false =>
      refine ⟨false, s₁, own₁, ?_, hk₁.procs, hwf₁, hk₁.extends, hk₁.roots, fun hf => (by cases hf),
        fun _ => ⟨?_, fun w => hk₁.pte r w⟩⟩
      · rw [hloop]
        simp [mappagesLoop, hwalk]
      · rw [hnot rfl]
        exact Nat.lt_succ_self _
  | true =>
      obtain ⟨hnull, hl0⟩ := hfound rfl
      rw [page_div] at hl0
      have hz₁ : s₁.pte r v = 0 := (hk₁.pte _ _).trans hzero
      obtain ⟨hwf₂, hk₂⟩ := hwf₁.setTop (r := r) hv (fun _ => hl0)
        (Or.inr ⟨_, mapPte_top pa hperm, mapPte_closed pa huser⟩)
      have hext : Extends own₁ own₁ s₁ (setPte s₁ r v (mapPte pa perm)) := by
        refine ⟨fun _ => Or.inl rfl, fun x _ w hw => ?_, fun _ _ => rfl, rfl, rfl, rfl, rfl, rfl,
          rfl, rfl, rfl⟩
        rw [pte_setPte, if_neg fun he => by omega]
      refine ⟨true, setPte s₁ r v (mapPte pa perm), own₁, ?_, hk₁.procs.trans hk₂.procs, hwf₂,
        hk₁.extends.trans hext, hk₁.roots, fun _ => ⟨hnull, fun w hw => ?_⟩,
        fun hf => (by cases hf)⟩
      · rw [hloop]
        simp only [mappagesLoop, hwalk, ok_bind, page_div, hz₁]
        rfl
      · rw [pte_setPte, if_neg fun he => hw he.2, hk₁.pte]

theorem uvmcreate_cons (h : s.freelist = r :: rest) : uvmcreate s = (some r, takeRoot s r rest) := by
  simp only [uvmcreate, kalloc_cons h]
  rfl

theorem uvmcreate_nil (h : s.freelist = []) :
    uvmcreate s = (none, { s with nullAllocs := s.nullAllocs + 1 }) := by
  simp only [uvmcreate, kalloc_nil h]

theorem permOk_trampoline : PermOk (PTE_R ||| PTE_X) := ⟨by decide, by decide⟩

theorem permOk_trapframe : PermOk (PTE_R ||| PTE_W) := ⟨by decide, by decide⟩

/-- A table for process `p` is under construction at `r`. -/
structure TableMade (own own' : Nat → Owner) (lim : Nat → Nat) (s s' : Kernel) (p : ProcId)
    (r : Nat) : Prop where
  wf : Wf own' (Function.update lim r 0) s'
  ext : Extends own own' s s'
  procs : SameProcs s s'
  fresh : own r = .free
  root : own' r = .newRoot p
  roots : ∀ q x, x ≠ r → ((own' x = .root q ↔ own x = .root q) ∧
    (own' x = .newRoot q ↔ own x = .newRoot q))
  nulls : s'.nullAllocs = s.nullAllocs
  pte : ∀ v, v < UPAGES → s'.pte r v = 0

/-- The entries of user memory, the pages that are not free and the swap device are as they were. -/
structure Unharmed (own : Nat → Owner) (s s' : Kernel) : Prop where
  pte : ∀ r, IsTable own r → ∀ v, v < UPAGES → s'.pte r v = s.pte r v
  mem : ∀ x, own x ≠ .free → s'.mem x = s.mem x
  raid : s'.raid = s.raid

theorem Unharmed.flat (h : Unharmed own s s') (hwf : Wf own lim s) (hr : IsTable own r)
    (hv : v < UPAGES) : flat s' r v = flat s r v := by
  refine flat_congr (h.pte r hr v hv) (fun x hx => h.mem x ?_) (fun n _ => by rw [h.raid])
    (hwf.pages.userEntry hr hv)
  simp [hwf.pages.own_user hr hv hx]

/-- A table that could not be completed is gone again. -/
structure TableUnmade (own own' : Nat → Owner) (lim : Nat → Nat) (s s' : Kernel) : Prop where
  wf : ∃ lim', Wf own' lim' s' ∧ ∀ x, IsTable own x → lim' x = lim x
  procs : SameProcs s s'
  roots : SameRoots own own'
  noHeld : NoHeld own → NoHeld own'
  nulls : s.nullAllocs < s'.nullAllocs
  unharmed : Unharmed own s s'
  swapSpace : s'.swapSpace = s.swapSpace

/-- `uvmfree` of a table under construction, which has no entries. -/
theorem freeNewTable_spec (h : Wf own lim s) (hr : own r = .newRoot p) (hzero : ∀ v, s.pte r v = 0) :
    ∃ s' own', uvmfree s r 0 = .ok s' ∧ Wf own' lim s' ∧ SameProcs s s' ∧
      (∀ x, own' x = own x ∨ own' x = .free) ∧ own' r = .free ∧
      (∀ q x, x ≠ r → ((own' x = .root q ↔ own x = .root q) ∧
        (own' x = .newRoot q ↔ own x = .newRoot q))) ∧
      (∀ x v, s'.pte x v = s.pte x v) ∧
      (∀ x, x ≠ r → (∀ k, own x ≠ .l1 r k ∧ own x ≠ .l0 r k) → s'.mem x = s.mem x) ∧
      s'.swapSpace = s.swapSpace ∧ s'.raid = s.raid := by
  have htab : IsTable own r := ⟨p, Or.inr hr⟩
  obtain ⟨s₁, own₁, h₁, hf, hl1, hl0⟩ := freewalk_spec h htab hzero
  have hr₁ : own₁ r = .newRoot p := (hf.roots p r).2.mpr hr
  have hfree := kfree_eq (hf.wf.pages.range r (by simp [hr₁]))
  have hrun : uvmfree s r 0 = freewalk s r := by
    rw [uvmfree, if_neg (Nat.lt_irrefl 0), pure_eq_ok, ok_bind]
  refine ⟨_, Function.update own₁ r .free, hrun.trans (h₁.trans hfree),
    hf.wf.giveRoot ((hf.roots.isTable r).mpr htab) (fun v => (hf.pte r v).trans (hzero v)) hl1 hl0
      rfl rfl rfl rfl rfl rfl (fun q x => ⟨fun hx => ⟨hx, fun he => ?_⟩, And.left⟩) fun _ => rfl,
    hf.procs.trans ⟨rfl, rfl, rfl, rfl, fun _ => rfl⟩, fun x => ?_, Function.update_self ..,
    fun q x hx => ?_, hf.pte, fun x hx hl => ?_, hf.swapSpace, hf.raid⟩
  · -- no process names the page of a table under construction
    have := hf.wf.pages.own_root hx
    rw [he, hr₁] at this
    cases this
  · by_cases hx : x = r
    · exact Or.inr (hx ▸ Function.update_self ..)
    · rw [Function.update_of_ne hx]
      exact (hf.owner x).imp_right And.right
  · rw [Function.update_of_ne hx]
    exact hf.roots q x
  · refine (Function.update_of_ne hx ..).trans (hf.mem x ((hf.owner x).resolve_right ?_))
    rintro ⟨⟨k, hk | hk⟩, -⟩
    · exact (hl k).1 hk
    · exact (hl k).2 hk

/-- The error paths of `proc_pagetable`, once the table has no entries. -/
theorem tableUnmade_of {own₂ : Nat → Owner} {s₂ : Kernel} (h : Wf own lim s)
    (hfree : s.freelist = r :: rest) (hwf : Wf own₂ (Function.update lim r 0) s₂)
    (hp : SameProcs s s₂) (hext : Extends (Function.update own r (.newRoot p)) own₂ (takeRoot s r rest) s₂)
    (hroots : SameRoots (Function.update own r (.newRoot p)) own₂) (hzero : ∀ v, s₂.pte r v = 0)
    (hnull : s.nullAllocs < s₂.nullAllocs) (hrun : uvmfree s₂ r 0 = .ok s') :
    ∃ own', TableUnmade own own' lim s s' := by
  have hr := h.pages.own_head hfree
  have hr₂ : own₂ r = .newRoot p := (hroots p r).2.mpr (Function.update_self ..)
  obtain ⟨s₃, own₃, h₃, hwf₃, hp₃, hown₃, hr₃, hroots₃, hpte₃, hmem₃, hslot₃, hraid₃⟩ :=
    freeNewTable_spec hwf hr₂ hzero
  cases hrun.symm.trans h₃
  have hnot : ¬ IsTable own r := by
    rintro ⟨q, hq | hq⟩ <;> cases hr.symm.trans hq
  have he := (takeRoot_extends h.pages hfree p).trans hext
  refine ⟨own₃, ⟨_, hwf₃, fun x hx => Function.update_of_ne ?_ ..⟩, hp.trans hp₃, fun q x => ?_,
    fun hheld x q a hx => ?_, by rw [(uvmfree_counts h₃).1]; exact hnull,
    ⟨fun x hx v hv => (hpte₃ x v).trans (he.pte x hx v hv), fun x hx => ?_, hraid₃.trans he.raid⟩,
    hslot₃.trans he.swapSpace⟩
  · rintro rfl
    exact hnot hx
  · by_cases hx : x = r
    · subst hx
      simp [hr₃, hr]
    · have hx₁ : Function.update own r (.newRoot p) x = own x := Function.update_of_ne hx ..
      rw [(hroots₃ q x hx).1, (hroots₃ q x hx).2, (hroots q x).1, (hroots q x).2, hx₁]
      exact ⟨Iff.rfl, Iff.rfl⟩
  · have hx₂ : own₂ x = .held q a := by
      rcases hown₃ x with he | he
      · exact he.symm.trans hx
      · cases he.symm.trans hx
    refine hext.noHeld (fun y q a hy => ?_) x q a hx₂
    by_cases hyr : y = r
    · simp [hyr] at hy
    · rw [Function.update_of_ne hyr] at hy
      exact hheld y q a hy
  · -- the pages of the table were free
    have hx₂ : own₂ x = own x := (he.owner x).resolve_right fun hf => hx hf.1
    refine (hmem₃ x (fun hxr => hx (hxr ▸ hr)) fun k => ⟨fun hk => hnot ?_, fun hk => hnot ?_⟩).trans
      (he.mem x hx)
    · exact ((h.pages.l1 (r, k) x).mp (hx₂.symm.trans hk)).1
    · exact ((h.pages.l0 (r, k) x).mp (hx₂.symm.trans hk)).1

/-- **`proc_pagetable`.** -/
theorem procPagetable_spec {res : Option Nat} (h : Wf own lim s)
    (hrun : procPagetable s p = .ok (res, s')) :
    (res = none → ∃ own', TableUnmade own own' lim s s') ∧
      ∀ r, res = some r → ∃ own', TableMade own own' lim s s' p r := by
  have htramp : TRAMPOLINE = (UPAGES + 1) * PGSIZE := by decide
  have htf : TRAPFRAME = UPAGES * PGSIZE := by decide
  cases hfree : s.freelist with
  | nil =>
      simp only [procPagetable, uvmcreate_nil hfree] at hrun
      cases hrun
      refine ⟨fun _ => ⟨own, ⟨lim, h.nullAlloc, fun _ _ => rfl⟩, ⟨rfl, rfl, rfl, rfl, fun _ => rfl⟩,
        .refl own, id, Nat.lt_succ_self _, ⟨fun _ _ _ _ => rfl, fun _ _ => rfl, rfl⟩, rfl⟩,
        fun r hr => by cases hr⟩
  | cons r rest =>
      have hr := h.pages.own_head hfree
      let own₁ := Function.update own r (.newRoot p)
      have hwf₁ : Wf own₁ (Function.update lim r 0) (takeRoot s r rest) := h.takeRoot hfree p
      have hr₁ : IsTable own₁ r := ⟨p, Or.inr (Function.update_self ..)⟩
      have hzero₁ : ∀ v, (takeRoot s r rest).pte r v = 0 := fun v => by
        simp [Kernel.pte, takeRoot, setTable, emptyTable]
      have hp₁ : SameProcs s (takeRoot s r rest) := ⟨rfl, rfl, rfl, rfl, fun _ => rfl⟩
      obtain ⟨ok₂, s₂, own₂, h₂, hp₂, hwf₂, he₂, hroots₂, ht₂, hf₂⟩ := mapTop_spec hwf₁ hr₁
        (v := UPAGES + 1) (by omega) (by decide) (hzero₁ _) permOk_trampoline (by decide) s.trampoline
      simp only [procPagetable, uvmcreate_cons hfree] at hrun
      rw [htramp, show (takeRoot s r rest).trampoline = s.trampoline from rfl, h₂, ok_bind] at hrun
      cases ok₂ with
      | false =>
          obtain ⟨s₃, h₃, hrun⟩ := bind_eq_ok.mp hrun
          cases hrun
          obtain ⟨hnull, hpte₂⟩ := hf₂ rfl
          refine ⟨fun _ => ?_, fun r hr => by cases hr⟩
          exact tableUnmade_of h hfree hwf₂ (hp₁.trans hp₂) he₂ hroots₂
            (fun v => (hpte₂ v).trans (hzero₁ v)) hnull h₃
      | true =>
          obtain ⟨hn₂, hpte₂⟩ := ht₂ rfl
          have hr₂ : IsTable own₂ r := (hroots₂.isTable r).mpr hr₁
          obtain ⟨ok₃, s₃, own₃, h₃, hp₃, hwf₃, he₃, hroots₃, ht₃, hf₃⟩ := mapTop_spec hwf₂ hr₂
            (v := UPAGES) le_rfl (by decide) ((hpte₂ _ (by omega)).trans (hzero₁ _))
            permOk_trapframe (by decide) ((s₂.procs p).trapframe.getD 0)
          simp only [Bool.not_true, Bool.false_eq_true, if_false] at hrun
          rw [htf, h₃, ok_bind] at hrun
          cases ok₃ with
          | false =>
              obtain ⟨s₄, h₄, hrun⟩ := bind_eq_ok.mp hrun
              obtain ⟨s₅, h₅, hrun⟩ := bind_eq_ok.mp hrun
              cases hrun
              obtain ⟨hnull, hpte₃⟩ := hf₃ rfl
              have hr₃ : IsTable own₃ r := (hroots₃.isTable r).mpr hr₂
              -- the trampoline is the only entry, and it is unmapped
              change uvmunmap s₃ r _ 1 false = _ at h₄
              rw [unmapTop_spec hwf₃ hr₃ (by omega) (by decide)] at h₄
              cases h₄
              obtain ⟨hwf₄, hk₄⟩ := hwf₃.setTop (r := r) (v := UPAGES + 1) (e := 0) (by omega)
                (fun hne => absurd rfl hne) (Or.inl rfl)
              have hext₄ : Extends own₃ own₃ s₃ (setPte s₃ r (UPAGES + 1) 0) := by
                refine ⟨fun _ => Or.inl rfl, fun x _ w hw => ?_, fun _ _ => rfl, rfl, rfl, rfl, rfl,
                  rfl, rfl, rfl, rfl⟩
                rw [pte_setPte, if_neg fun he => by omega]
              refine ⟨fun _ => ?_, fun r hr => by cases hr⟩
              refine tableUnmade_of h hfree hwf₄ (hp₁.trans (hp₂.trans (hp₃.trans hk₄.procs)))
                ((he₂.trans he₃).trans hext₄) (hroots₂.trans hroots₃) (fun v => ?_)
                (lt_of_eq_of_lt hn₂.symm hnull) h₅
              rw [pte_setPte]
              split
              · rfl
              · next hv => rw [hpte₃, hpte₂ v fun he => hv ⟨rfl, he⟩, hzero₁]
          | true =>
              obtain ⟨hn₃, hpte₃⟩ := ht₃ rfl
              cases hrun
              refine ⟨fun hf => (by cases hf), fun r' hr' => ?_⟩
              cases hr'
              refine ⟨own₃, hwf₃, ((takeRoot_extends h.pages hfree p).trans he₂).trans he₃, ?_, hr,
                ?_, fun q x hx => ?_, hn₃.trans hn₂, fun v hv => ?_⟩
              · exact hp₁.trans (hp₂.trans hp₃)
              · exact ((hroots₂.trans hroots₃) p r).2.mpr (Function.update_self ..)
              · have hx₁ : own₁ x = own x := Function.update_of_ne hx ..
                rw [← hx₁]
                exact (hroots₂.trans hroots₃) q x
              · rw [hpte₃ v (by omega), hpte₂ v (by omega), hzero₁]

/-! ### `allocproc` -/

/-- `allocproc` has made process `np`, with page table `r`. -/
structure Spawned (own own' : Nat → Owner) (s s' : Kernel) (np : ProcId) (r : Nat) : Prop where
  free : freeProc s = some np
  ext : Extends own own' s s'
  root : own' r = .root np
  roots : ∀ q x, own' x = .root q ↔ own x = .root q ∨ (x = r ∧ q = np)
  others : ∀ q, q ≠ np → (s'.procs q).ident = (s.procs q).ident
  sz : (s'.procs np).sz = 0
  state : (s'.procs np).state = .used
  nulls : s'.nullAllocs = s.nullAllocs
  pte : ∀ v, v < UPAGES → s'.pte r v = 0

theorem freeProc_some {np : ProcId} (h : freeProc s = some np) : (s.procs np).state = .unused := by
  have := List.find?_some h
  simpa using this

/-- A process in state `USED`, with its trapframe in page `pa`. -/
def withTrapframe (s : Kernel) (np : ProcId) (pa : Nat) (rest : List Nat) : Kernel :=
  setProc { setPage (startProc s np) pa (fun _ => 5) with freelist := rest } np
    { (startProc s np).procs np with trapframe := some pa }

theorem withTrapframe_fields (s : Kernel) (np : ProcId) (pa : Nat) (rest : List Nat) (q : ProcId) :
    ((withTrapframe s np pa rest).procs q).pagetable = (s.procs q).pagetable ∧
      ((withTrapframe s np pa rest).procs q).trapframe =
        (if q = np then some pa else (s.procs q).trapframe) ∧
      ((withTrapframe s np pa rest).procs q).sz = (s.procs q).sz ∧
      (q ≠ np → (withTrapframe s np pa rest).procs q = s.procs q) := by
  by_cases hq : q = np
  · subst hq
    simp [withTrapframe, startProc, setProc]
  · simp [withTrapframe, startProc, setProc, setPage, hq]

theorem withTrapframe_spec {np : ProcId} (h : Wf own lim s) (hfree : s.freelist = pa :: rest)
    (hnone : (s.procs np).trapframe = none) :
    Wf (Function.update own pa (.trapframe np)) lim (withTrapframe s np pa rest) ∧
      Extends own (Function.update own pa (.trapframe np)) s (withTrapframe s np pa rest) := by
  have hpa := h.pages.own_head hfree
  have hext : Extends own (Function.update own pa (.trapframe np)) s
      (withTrapframe s np pa rest) := by
    refine ⟨fun x => ?_, fun _ _ _ _ => rfl, fun x hx => ?_, rfl, rfl, rfl, rfl, rfl, rfl, rfl, rfl⟩
    · by_cases hx : x = pa
      · subst hx
        exact Or.inr ⟨hpa, by rw [Function.update_self]; trivial⟩
      · exact Or.inl (Function.update_of_ne hx ..)
    · have hne : x ≠ pa := fun he => hx (he ▸ hpa)
      exact Function.update_of_ne hne ..
  exact ⟨h.takeTrapframe hfree hnone rfl rfl (fun q => (withTrapframe_fields s np pa rest q).1)
    (fun q => (withTrapframe_fields s np pa rest q).2.1) hext, hext⟩

/-- The table made for the new process is its page table. -/
theorem TableMade.spawned {np : ProcId} {s₂ : Kernel} {own₂ : Nat → Owner} (h : Settled own lim s)
    (hnp : freeProc s = some np) (hfree : s.freelist = pa :: rest)
    (hm : TableMade (Function.update own pa (.trapframe np)) own₂ lim (withTrapframe s np pa rest)
      s₂ np r) :
    ∃ own' lim', Settled own' lim' (setProc s₂ np { s₂.procs np with pagetable := some r }) ∧
      Spawned own own' s (setProc s₂ np { s₂.procs np with pagetable := some r }) np r := by
  have hstate := freeProc_some hnp
  obtain ⟨htf, hsz⟩ := h.unused np hstate
  have hpt := (h.live np).mp hstate
  have hpa := h.wf.pages.own_head hfree
  obtain ⟨-, hext₁⟩ := withTrapframe_spec h.wf hfree htf
  have hfields := withTrapframe_fields s np pa rest
  have hext₂ := hext₁.trans hm.ext
  have hpt₂ : (s₂.procs np).pagetable = none := by
    rw [hm.procs.pagetable, (hfields np).1, hpt]
  have hwf := hm.wf.adopt hm.root hpt₂
  -- the page of the root was free
  have hrpa : r ≠ pa := by
    rintro rfl
    have := hm.fresh
    rw [Function.update_self] at this
    cases this
  have hfresh : own r = .free := by
    rw [← hm.fresh, Function.update_of_ne hrpa]
  let s₃ := setProc s₂ np { s₂.procs np with pagetable := some r }
  have hprocs : ∀ q, q ≠ np → (s₃.procs q).ident = (s.procs q).ident := by
    intro q hq
    have : s₃.procs q = s₂.procs q := by simp [s₃, setProc, hq]
    rw [this, hm.procs.ident, (hfields q).2.2.2 hq]
  have hself : (s₃.procs np).pagetable = some r ∧ (s₃.procs np).sz = 0 ∧
      (s₃.procs np).state = .used := by
    have hsz₂ := hm.procs.sz np
    have hst₂ := hm.procs.state np
    rw [(hfields np).2.2.1, hsz] at hsz₂
    have hst₁ : ((withTrapframe s np pa rest).procs np).state = .used := by
      simp [withTrapframe, startProc, setProc]
    rw [hst₁] at hst₂
    simp [s₃, setProc, hsz₂, hst₂]
  have hroots : ∀ q x, Function.update own₂ r (.root np) x = .root q ↔
      own x = .root q ∨ (x = r ∧ q = np) := by
    intro q x
    by_cases hx : x = r
    · subst hx
      simp [hfresh, eq_comm]
    · rw [Function.update_of_ne hx, (hm.roots q x hx).1]
      by_cases hxp : x = pa
      · subst hxp
        simp [hpa, hx]
      · simp [Function.update_of_ne hxp, hx]
  have hnew : NoNew (Function.update own₂ r (.root np)) := by
    intro x q hx
    by_cases hxr : x = r
    · subst hxr
      simp at hx
    · rw [Function.update_of_ne hxr, (hm.roots q x hxr).2] at hx
      by_cases hxp : x = pa
      · subst hxp
        simp at hx
      · rw [Function.update_of_ne hxp] at hx
        exact h.noNew x q hx
  have hext : Extends own (Function.update own₂ r (.root np)) s s₃ := by
    refine ⟨fun x => ?_, hext₂.pte, hext₂.mem, hext₂.kend, hext₂.trampoline, hext₂.initproc,
      hext₂.frameTable, hext₂.clockHand, hext₂.swapSpace, hext₂.raid, hext₂.fulls⟩
    by_cases hx : x = r
    · subst hx
      exact Or.inr ⟨hfresh, by rw [Function.update_self]; trivial⟩
    · rw [Function.update_of_ne hx]
      exact hext₂.owner x
  refine ⟨_, _, ⟨hwf, hext.noHeld h.noHeld, hnew, fun q x hx => ?_, fun q => ?_, fun q => ?_,
    fun q hq => ?_⟩, hnp, hext, Function.update_self .., hroots, hprocs, hself.2.1, hself.2.2,
    hm.nulls, hm.pte⟩
  · rcases (hroots q x).mp hx with hq | ⟨rfl, rfl⟩
    · have hne : x ≠ r := by
        rintro rfl
        cases hfresh.symm.trans hq
      have hqn : q ≠ np := by
        rintro rfl
        cases hpt.symm.trans (h.wf.pages.pagetable hq)
      rw [Function.update_of_ne hne, ident_sz (hprocs q hqn)]
      exact h.sized q x hq
    · rw [Function.update_self, hself.2.1]
      rfl
  · by_cases hq : q = np
    · rw [hq, hself.2.1]
      exact Nat.zero_le _
    · rw [ident_sz (hprocs q hq)]
      exact h.sz_le q
  · by_cases hq : q = np
    · rw [hq, hself.1, hself.2.2]
      simp
    · rw [ident_state (hprocs q hq), ident_pagetable (hprocs q hq)]
      exact h.live q
  · by_cases hqn : q = np
    · rw [hqn, hself.2.2] at hq
      cases hq
    · rw [ident_state (hprocs q hqn)] at hq
      rw [ident_trapframe (hprocs q hqn), ident_sz (hprocs q hqn)]
      exact h.unused q hq

/-- The processes other than `np` have what they had, and nothing has been given to `np`. -/
structure NotSpawned (s s' : Kernel) (np : ProcId) : Prop where
  others : ∀ q, q ≠ np → (s'.procs q).ident = (s.procs q).ident
  state : (s'.procs np).state = .unused
  nulls : s.nullAllocs < s'.nullAllocs
  free : freeProc s = some np
  pte : ∀ q r v, (s.procs q).pagetable = some r → v < UPAGES → s'.pte r v = s.pte r v
  flat : ∀ q r v, (s.procs q).pagetable = some r → v < UPAGES → flat s' r v = flat s r v
  swapSpace : s'.swapSpace = dropSlots s.swapSpace np

theorem Unharmed.notSpawned {np : ProcId} (hun : Unharmed own s s') (h : Settled own lim s)
    (hnp : freeProc s = some np) (hothers : ∀ q, q ≠ np → (s'.procs q).ident = (s.procs q).ident)
    (hstate : (s'.procs np).state = .unused) (hnull : s.nullAllocs < s'.nullAllocs)
    (hsw : s'.swapSpace = dropSlots s.swapSpace np) : NotSpawned s s' np := by
  have htab : ∀ q r, (s.procs q).pagetable = some r → IsTable own r := fun q r hr =>
    ⟨q, Or.inl (h.wf.pages.own_root hr)⟩
  exact ⟨hothers, hstate, hnull, hnp, fun q r v hr hv => hun.pte r (htab q r hr) v hv,
    fun q r v hr hv => hun.flat h.wf (htab q r hr) hv, hsw⟩

/-- `freeproc` of a process that has got no page table. -/
theorem freeproc_bare (h : Wf own lim s) (hheld : NoHeld own) (hnew : NoNew own)
    (hpt : (s.procs p).pagetable = none)
    (hsized : ∀ q x, own x = .root q → lim x = npages (s.procs q).sz)
    (hok : ∀ q, q ≠ p → ProcOk s q) (hrun : freeproc s p = .ok s') :
    ∃ own', Settled own' lim s' ∧ (∀ q, q ≠ p → s'.procs q = s.procs q) ∧
      (s'.procs p).state = .unused ∧ SameRoots own own' ∧ s'.tables = s.tables ∧
      (∀ x, own x ≠ .trapframe p → s'.mem x = s.mem x) ∧
      s'.swapSpace = dropSlots s.swapSpace p ∧ s'.raid = s.raid := by
  obtain ⟨s₁, own₁, h₁, hwf₁, hown₁, hprocs₁, hsame₁, hmem₁⟩ := freeTrapframe_spec h p
  have hpt₁ : (s₁.procs p).pagetable = none := by
    rw [hprocs₁, Function.update_self]
    exact hpt
  have hother₁ : ∀ q, q ≠ p → s₁.procs q = s.procs q := fun q hq => by
    rw [hprocs₁, Function.update_of_ne hq]
  simp only [freeproc, h₁, ok_bind, hpt₁] at hrun
  cases hrun
  have hroots : SameRoots own own₁ := by
    intro q x
    rcases hown₁ x with he | ⟨ht, hf⟩
    · rw [he]
      exact ⟨Iff.rfl, Iff.rfl⟩
    · simp [ht, hf]
  have hroot : ∀ x, own₁ x ≠ .root p := by
    intro x hx
    have := h.pages.pagetable ((hroots p x).1.mp hx)
    rw [hpt] at this
    cases this
  have hwf₂ : Wf own₁ lim (clearProc s₁ p) := by
    refine hwf₁.setProcs rfl (fun q => ?_) fun q => ?_
    · by_cases hq : q = p
      · subst hq
        simp [clearProc, setProc, hpt₁]
      · rw [clearProc_other s₁ hq]
    · by_cases hq : q = p
      · subst hq
        simp [clearProc, setProc]
      · rw [clearProc_other s₁ hq]
  obtain ⟨hset, -⟩ := resetProc_spec hwf₂
    (fun x q a hx => by
      rcases hown₁ x with he | ⟨-, he⟩
      · exact hheld x q a (he.symm.trans hx)
      · cases he.symm.trans hx)
    (fun x q hx => hnew x q ((hroots q x).2.mp hx)) hroot
    (by rw [hprocs₁, Function.update_self])
    (fun q x hx => by
      have hq : q ≠ p := fun he => hroot x (he ▸ hx)
      rw [hother₁ q hq]
      exact hsized q x ((hroots q x).1.mp hx))
    fun q hq => (hok q hq).congr (by rw [hother₁ q hq])
  refine ⟨own₁, hset, fun q hq => ?_, ?_, hroots, ?_, fun x hx => ?_, ?_, ?_⟩
  · rw [resetProc_other s₁ hq, hother₁ q hq]
  · simp [resetProc, setProc]
  · change s₁.tables = s.tables
    rw [hsame₁]
  · exact hmem₁ x ((hown₁ x).resolve_right fun hf => hx hf.1)
  · change dropSlots s₁.swapSpace p = dropSlots s.swapSpace p
    rw [hsame₁]
  · change s₁.raid = s.raid
    rw [hsame₁]

/-- The process that `allocproc` has found has no page table. -/
theorem Settled.no_root {np : ProcId} (h : Settled own lim s) (hnp : freeProc s = some np) (x : Nat) :
    own x ≠ .root np := by
  intro hx
  cases ((h.live np).mp (freeProc_some hnp)).symm.trans (h.wf.pages.pagetable hx)

/-- `allocproc` gives back the process for which there is no page. -/
theorem allocproc_no_page {np : ProcId} (h : Settled own lim s) (hnp : freeProc s = some np) {s₀ : Kernel}
    (hs₀ : s₀ = { startProc s np with nullAllocs := s.nullAllocs + 1 })
    (hrun : freeproc (setProc s₀ np { s₀.procs np with trapframe := none }) np = .ok s') :
    ∃ own' lim', Settled own' lim' s' ∧ NotSpawned s s' np := by
  subst hs₀
  have hstate := freeProc_some hnp
  obtain ⟨htf, -⟩ := h.unused np hstate
  have hpt := (h.live np).mp hstate
  let s₀ : Kernel := { startProc s np with nullAllocs := s.nullAllocs + 1 }
  let s₂ : Kernel := setProc s₀ np { s₀.procs np with trapframe := none }
  -- the processes that `allocproc` does not touch
  have hother : ∀ q, q ≠ np → s₂.procs q = s.procs q := fun q hq => by
    simp [s₂, s₀, setProc, startProc, hq]
  have hself : (s₂.procs np).pagetable = none ∧ (s₂.procs np).trapframe = none := by
    simp [s₂, s₀, setProc, startProc, hpt]
  have hwf₂ : Wf own lim s₂ := by
    refine h.wf.nullAlloc.setProcs rfl (fun q => ?_) fun q => ?_
    · by_cases hq : q = np
      · rw [hq, hself.1]
        exact hpt.symm
      · rw [hother q hq]
    · by_cases hq : q = np
      · rw [hq, hself.2]
        exact htf.symm
      · rw [hother q hq]
  obtain ⟨own', hset, hprocs, hst, -, htab, hmem, hsw, hraid⟩ :=
    freeproc_bare hwf₂ h.noHeld h.noNew hself.1
    (fun q x hx => by
      have hq : q ≠ np := fun he => h.no_root hnp x (he ▸ hx)
      rw [hother q hq]
      exact h.sized q x hx)
    (fun q hq => (h.procOk q).congr (by rw [hother q hq])) hrun
  have hun : Unharmed own s s' := by
    refine ⟨fun r _ v _ => pte_of_tables (htab.trans rfl) r v, fun x _ => hmem x fun hx => ?_,
      hraid.trans rfl⟩
    cases htf.symm.trans ((h.wf.pages.trapframe np x).mp hx)
  refine ⟨own', lim, hset, hun.notSpawned h hnp
    (fun q hq => by rw [hprocs q hq, hother q hq]) hst ?_ hsw⟩
  rw [(freeproc_counts hrun).1]
  exact Nat.lt_succ_self _

/-- `allocproc` gives back the process, with its trapframe in page `pa`, for which there is no page table. -/
theorem allocproc_no_table {np : ProcId} {pa : Nat} {rest : List Nat} {own₂ : Nat → Owner} {s₂ : Kernel}
    (h : Settled own lim s) (hnp : freeProc s = some np) (hfree : s.freelist = pa :: rest)
    (hun : TableUnmade (Function.update own pa (.trapframe np)) own₂ lim (withTrapframe s np pa rest) s₂)
    (hrun : freeproc (setProc s₂ np { s₂.procs np with pagetable := none }) np = .ok s') :
    ∃ own' lim', Settled own' lim' s' ∧ NotSpawned s s' np := by
  have hstate := freeProc_some hnp
  obtain ⟨htf, -⟩ := h.unused np hstate
  have hpt := (h.live np).mp hstate
  obtain ⟨-, hext₁⟩ := withTrapframe_spec h.wf hfree htf
  obtain ⟨lim₂, hwf₂, hlim₂⟩ := hun.wf
  have hpa := h.wf.pages.own_head hfree
  have hfields := withTrapframe_fields s np pa rest
  let s₂' : Kernel := setProc s₂ np { s₂.procs np with pagetable := none }
  have hpt₂ : (s₂.procs np).pagetable = none := by
    rw [hun.procs.pagetable, (hfields np).1, hpt]
  have hident : ∀ q, (s₂'.procs q).ident = (s₂.procs q).ident := by
    intro q
    by_cases hq : q = np
    · subst hq
      simp [s₂', setProc, Proc.ident, hpt₂]
    · simp [s₂', setProc, hq]
  have hother : ∀ q, q ≠ np → (s₂'.procs q).ident = (s.procs q).ident := by
    intro q hq
    rw [hident, hun.procs.ident, (hfields q).2.2.2 hq]
  have hwf₂' : Wf own₂ lim₂ s₂' := by
    refine hwf₂.setProcs rfl (fun q => ident_pagetable (hident q)) fun q =>
      ident_trapframe (hident q)
  have hroots : ∀ q x, own₂ x = .root q ↔ own x = .root q := by
    intro q x
    rw [(hun.roots q x).1]
    by_cases hx : x = pa
    · subst hx
      simp [hpa]
    · rw [Function.update_of_ne hx]
  have hnoNew : NoNew own₂ := by
    intro x q hx
    have hx' := (hun.roots q x).2.mp hx
    by_cases hxp : x = pa
    · subst hxp
      simp at hx'
    · rw [Function.update_of_ne hxp] at hx'
      exact h.noNew x q hx'
  obtain ⟨own', hset, hprocs, hst, -, htab, hmem, hsw, hraid⟩ := freeproc_bare hwf₂'
    (hun.noHeld (hext₁.noHeld h.noHeld)) hnoNew
    ((ident_pagetable (hident np)).trans hpt₂)
    (fun q x hx => by
      have hx' := (hroots q x).mp hx
      have hq : q ≠ np := fun he => h.no_root hnp x (he ▸ hx')
      rw [ident_sz (hother q hq), hlim₂ x ⟨q, hext₁.owns (Or.inl hx')⟩]
      exact h.sized q x hx')
    (fun q hq => (h.procOk q).congr (hother q hq)) hrun
  have hun' : Unharmed own s s' := by
    refine ⟨fun r hr v hv => ?_, fun x hx => ?_, hraid.trans hun.unharmed.raid⟩
    · obtain ⟨q, hq⟩ := hr
      rw [pte_of_tables htab]
      exact hun.unharmed.pte r ⟨q, hext₁.owns hq⟩ v hv
    · have hxp : x ≠ pa := fun he => hx (he ▸ hpa)
      have hx₁ : Function.update own pa (.trapframe np) x = own x :=
        Function.update_of_ne hxp ..
      have hx₂ : own₂ x ≠ .trapframe np := by
        intro ht
        have : (s₂.procs np).trapframe = some x := (hwf₂.pages.trapframe np x).mp ht
        rw [hun.procs.trapframe, (hfields np).2.1, if_pos rfl] at this
        exact hxp (Option.some.inj this).symm
      refine (hmem x hx₂).trans ((hun.unharmed.mem x (hx₁ ▸ hx)).trans ?_)
      exact hext₁.mem x hx
  refine ⟨own', lim₂, hset, hun'.notSpawned h hnp
    (fun q hq => by rw [hprocs q hq, hother q hq]) hst ?_ ?_⟩
  · rw [(freeproc_counts hrun).1]
    exact hun.nulls
  · rw [hsw]
    exact congrArg (dropSlots · np) hun.swapSpace

/-- **`allocproc`**: it makes a process, or finds none to make, or `kalloc` returned 0. -/
theorem allocproc_spec {res : Option ProcId} (h : Settled own lim s)
    (hrun : allocproc s = .ok (res, s')) :
    (res = none → (freeProc s = none ∧ s' = s) ∨
      ∃ np own' lim', Settled own' lim' s' ∧ NotSpawned s s' np) ∧
      ∀ np, res = some np → ∃ own' lim' r, Settled own' lim' s' ∧ Spawned own own' s s' np r := by
  cases hnp : freeProc s with
  | none =>
      simp only [allocproc, hnp] at hrun
      cases hrun
      exact ⟨fun _ => Or.inl ⟨rfl, rfl⟩, fun np hnp => by cases hnp⟩
  | some np =>
      simp only [allocproc, hnp] at hrun
      cases hfree : s.freelist with
      | nil =>
          rw [kalloc_nil (s := startProc s np) hfree] at hrun
          obtain ⟨s₁, h₁, hrun⟩ := bind_eq_ok.mp hrun
          cases hrun
          exact ⟨fun _ => Or.inr ⟨np, allocproc_no_page h hnp rfl h₁⟩, fun np hnp => by cases hnp⟩
      | cons pa rest =>
          rw [kalloc_cons (s := startProc s np) hfree] at hrun
          obtain ⟨hwf₁, -⟩ := withTrapframe_spec h.wf hfree (h.unused np (freeProc_some hnp)).1
          obtain ⟨⟨table, s₂⟩, h₂, hrun⟩ := bind_eq_ok.mp hrun
          obtain ⟨hnone, hmade⟩ := procPagetable_spec (s := withTrapframe s np pa rest) hwf₁ h₂
          cases table with
          | none =>
              obtain ⟨s₃, h₃, hrun⟩ := bind_eq_ok.mp hrun
              cases hrun
              obtain ⟨own₂, hun⟩ := hnone rfl
              exact ⟨fun _ => Or.inr ⟨np, allocproc_no_table h hnp hfree hun h₃⟩, fun np hnp => by cases hnp⟩
          | some r =>
              simp only [reduceCtorEq, if_false] at hrun
              cases hrun
              refine ⟨fun hf => (by cases hf), fun np' hnp' => ?_⟩
              cases hnp'
              obtain ⟨own₂, hm⟩ := hmade r rfl
              obtain ⟨own', lim', hset, hsp⟩ := hm.spawned h hnp hfree
              exact ⟨own', lim', r, hset, hsp⟩

end Xv6.Vm
