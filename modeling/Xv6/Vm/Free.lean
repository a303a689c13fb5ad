import Xv6.Vm.Grow
import Xv6.Vm.Procs

/-!
# Vm — Free

Giving back a page table, and a process.

* `freewalk_spec`: `freewalk` of a table without leaves frees its lower-level tables, and then its
  root.
* `procFreepagetable_spec`: the same after all pages of the table have been unmapped.
* `freeproc_spec`: a process that is freed leaves no page, no frame and no slot behind.
-/

namespace Xv6.Vm
open Xv6.Lib
open Xv6.Raid (Page zeroPage PGSIZE BLOCKS_PER_PAGE MAX_SWAP Healthy)

variable {own own' : Nat → Owner} {lim : Nat → Nat} {s s' : Kernel} {p q : ProcId}
  {r v pa k : Nat}

/-! ### A lower-level table is freed -/

theorem Pages.giveTable (h : Pages own lim s) (hpa : ∃ k, own pa = .l1 r k ∨ own pa = .l0 r k)
    (hp : SameProcs s s') (hf : s'.freelist = pa :: s.freelist)
    (hpte : ∀ r' v', s'.pte r' v' = s.pte r' v')
    (hl1 : Lists (Function.update own pa .free) ownL1 fun k x =>
      IsTable own k.1 ∧ (s'.tables k.1).l1 k.2 = some x)
    (hl0 : Lists (Function.update own pa .free) ownL0 fun k x =>
      IsTable own k.1 ∧ (s'.tables k.1).l0 k.2 = some x)
    (htable : ∀ r, IsTable own r → TableOk (s'.tables r) (lim r)) :
    Pages (Function.update own pa .free) lim s' ∧ SameRoots own (Function.update own pa .free) := by
  obtain ⟨k, hk⟩ := hpa
  have hroots : SameRoots own (Function.update own pa .free) :=
    sameRoots_update (by rcases hk with hk | hk <;> simp [hk]) (by simp)
  have hnf : own pa ≠ .free := by rcases hk with hk | hk <;> simp [hk]
  obtain ⟨hfr, hnd⟩ := h.free_cons hnf
  refine ⟨⟨fun x hx => ?_, hf ▸ hfr, hf ▸ hnd, ?_, ?_, ?_, ?_, ?_, ?_⟩, hroots⟩
  · rw [hp.kend]
    by_cases hxp : x = pa
    · exact hxp ▸ h.range pa (by rcases hk with hk | hk <;> simp [hk])
    · exact h.range x (by rwa [Function.update_of_ne hxp] at hx)
  · exact h.root.keep (by rcases hk with hk | hk <;> simp [hk]) (by simp) fun q x => by
      rw [hp.pagetable]
  · exact h.trapframe.keep (by rcases hk with hk | hk <;> simp [hk]) (by simp) fun q x => by
      rw [hp.trapframe]
  · exact hl1.congr fun k x => by rw [hroots.isTable]
  · exact hl0.congr fun k x => by rw [hroots.isTable]
  · exact h.user.keep (by rcases hk with hk | hk <;> simp [hk, ownUser]) (by simp [ownUser])
      fun k x => by rw [hroots.isTable, hpte]
  · exact fun r' hr' => htable r' ((hroots.isTable r').mp hr')

/-- The fields of the tables after a change of one of them. -/
theorem tables_update {t : PageTable} (ht : s'.tables = Function.update s.tables r t) (r' : Nat) :
    s'.tables r' = if r' = r then t else s.tables r' := by
  rw [ht]
  by_cases hr : r' = r
  · rw [if_pos hr, hr, Function.update_self]
  · rw [if_neg hr, Function.update_of_ne hr]

theorem Pages.giveL0 (h : Pages own lim s) (hr : IsTable own r)
    (hk : (s.tables r).l0 k = some pa) (hzero : ∀ v, s.pte r v = 0) (hp : SameProcs s s')
    (hf : s'.freelist = pa :: s.freelist)
    (ht : s'.tables = Function.update s.tables r
      { s.tables r with l0 := Function.update (s.tables r).l0 k none }) :
    Pages (Function.update own pa .free) lim s' ∧ SameRoots own (Function.update own pa .free) := by
  have hpa : own pa = .l0 r k := (h.l0 (r, k) pa).mpr ⟨hr, hk⟩
  have htab := tables_update ht
  have hl0 : ∀ r' k', (s'.tables r').l0 k' =
      if r' = r ∧ k' = k then none else (s.tables r').l0 k' := by
    intro r' k'
    rw [htab]
    by_cases hrr : r' = r
    · subst hrr
      by_cases hkk : k' = k <;> simp [hkk]
    · simp [hrr]
  have hl1 : ∀ r', (s'.tables r').l1 = (s.tables r').l1 := by
    intro r'
    rw [htab]
    split
    · next he => rw [he]
    · rfl
  have hpte : ∀ r', (s'.tables r').pte = (s.tables r').pte := by
    intro r'
    rw [htab]
    split
    · next he => rw [he]
    · rfl
  refine h.giveTable ⟨k, Or.inr hpa⟩ hp hf (fun r' v' => by rw [Kernel.pte, Kernel.pte, hpte])
    ?_ ?_ fun r' hr' => ?_
  · exact h.l1.keep (by simp [hpa, ownL1]) (by simp [ownL1]) fun key x => by rw [hl1]
  · refine h.l0.drop (by simp [ownL0]) fun key x => ?_
    rw [hl0]
    by_cases hkey : key.1 = r ∧ key.2 = k
    · rw [if_pos hkey, hkey.1, hkey.2, hk]
      simp [eq_comm]
    · rw [if_neg hkey]
      refine ⟨fun hx => ⟨hx, fun hxp => hkey ?_⟩, And.left⟩
      have := (h.l0 key x).mpr hx
      rw [hxp, hpa] at this
      cases this
      exact ⟨rfl, rfl⟩
  · have hold := h.table r' hr'
    refine ⟨by rw [hl1]; exact hold.l1_lt, fun j hj => ?_, fun w hw => ?_, by rw [hpte]; exact hold.shape,
      hold.lim_le, by rw [hpte]; exact hold.above, by rw [hpte]; exact hold.top⟩
    · rw [hl1]
      rw [hl0] at hj
      by_cases hkey : r' = r ∧ j = k
      · simp [hkey] at hj
      · exact hold.l0_l1 j (by rwa [if_neg hkey] at hj)
    · rw [hpte] at hw
      have hne : r' ≠ r := fun he => hw (he ▸ hzero w)
      rw [hl0, if_neg fun he => hne he.1]
      exact hold.pte_l0 w hw

theorem Pages.giveL1 (h : Pages own lim s) (hr : IsTable own r)
    (hk : (s.tables r).l1 k = some pa) (hnone : ∀ j, j / 512 = k → (s.tables r).l0 j = none)
    (hp : SameProcs s s') (hf : s'.freelist = pa :: s.freelist)
    (ht : s'.tables = Function.update s.tables r
      { s.tables r with l1 := Function.update (s.tables r).l1 k none }) :
    Pages (Function.update own pa .free) lim s' ∧ SameRoots own (Function.update own pa .free) := by
  have hpa : own pa = .l1 r k := (h.l1 (r, k) pa).mpr ⟨hr, hk⟩
  have htab := tables_update ht
  have hl1 : ∀ r' k', (s'.tables r').l1 k' =
      if r' = r ∧ k' = k then none else (s.tables r').l1 k' := by
    intro r' k'
    rw [htab]
    by_cases hrr : r' = r
    · subst hrr
      by_cases hkk : k' = k <;> simp [hkk]
    · simp [hrr]
  have hl0 : ∀ r', (s'.tables r').l0 = (s.tables r').l0 := by
    intro r'
    rw [htab]
    split
    · next he => rw [he]
    · rfl
  have hpte : ∀ r', (s'.tables r').pte = (s.tables r').pte := by
    intro r'
    rw [htab]
    split
    · next he => rw [he]
    · rfl
  refine h.giveTable ⟨k, Or.inl hpa⟩ hp hf (fun r' v' => by rw [Kernel.pte, Kernel.pte, hpte])
    ?_ ?_ fun r' hr' => ?_
  · refine h.l1.drop (by simp [ownL1]) fun key x => ?_
    rw [hl1]
    by_cases hkey : key.1 = r ∧ key.2 = k
    · rw [if_pos hkey, hkey.1, hkey.2, hk]
      simp [eq_comm]
    · rw [if_neg hkey]
      refine ⟨fun hx => ⟨hx, fun hxp => hkey ?_⟩, And.left⟩
      have := (h.l1 key x).mpr hx
      rw [hxp, hpa] at this
      cases this
      exact ⟨rfl, rfl⟩
  · exact h.l0.keep (by simp [hpa, ownL0]) (by simp [ownL0]) fun key x => by rw [hl0]
  · have hold := h.table r' hr'
    refine ⟨fun j hj => ?_, fun j hj => ?_, by rw [hpte, hl0]; exact hold.pte_l0,
      by rw [hpte]; exact hold.shape, hold.lim_le, by rw [hpte]; exact hold.above,
      by rw [hpte]; exact hold.top⟩
    · rw [hl1] at hj
      by_cases hkey : r' = r ∧ j = k
      · simp [hkey] at hj
      · exact hold.l1_lt j (by rwa [if_neg hkey] at hj)
    · rw [hl0] at hj
      rw [hl1]
      by_cases hkey : r' = r ∧ j / 512 = k
      · rw [hkey.1, hnone j hkey.2] at hj
        cases hj
      · rw [if_neg hkey]
        exact hold.l0_l1 j hj

/-! ### `freewalk` -/

/-- Lower-level tables of table `r` have been given back. -/
structure TableFreed (own own' : Nat → Owner) (lim : Nat → Nat) (s s' : Kernel) (r : Nat) :
    Prop where
  wf : Wf own' lim s'
  procs : SameProcs s s'
  owner : ∀ x, own' x = own x ∨ ((∃ k, own x = .l1 r k ∨ own x = .l0 r k) ∧ own' x = .free)
  pte : ∀ r' v, s'.pte r' v = s.pte r' v
  mem : ∀ x, own' x = own x → s'.mem x = s.mem x
  frameTable : s'.frameTable = s.frameTable
  swapSpace : s'.swapSpace = s.swapSpace
  raid : s'.raid = s.raid
  nulls : s'.nullAllocs = s.nullAllocs
  fulls : s'.swapFulls = s.swapFulls

theorem TableFreed.refl (h : Wf own lim s) (r : Nat) : TableFreed own own lim s s r :=
  ⟨h, .refl s, fun _ => Or.inl rfl, fun _ _ => rfl, fun _ _ => rfl, rfl, rfl, rfl, rfl, rfl⟩

theorem TableFreed.trans {o₁ o₂ o₃ : Nat → Owner} {s₁ s₂ s₃ : Kernel}
    (h : TableFreed o₁ o₂ lim s₁ s₂ r) (h' : TableFreed o₂ o₃ lim s₂ s₃ r) :
    TableFreed o₁ o₃ lim s₁ s₃ r := by
  refine ⟨h'.wf, h.procs.trans h'.procs, fun x => ?_, fun r' v => (h'.pte r' v).trans (h.pte r' v),
    fun x hx => ?_, h'.frameTable.trans h.frameTable, h'.swapSpace.trans h.swapSpace,
    h'.raid.trans h.raid, h'.nulls.trans h.nulls, h'.fulls.trans h.fulls⟩
  · rcases h.owner x with he | ⟨hk, hf⟩ <;> rcases h'.owner x with he' | ⟨⟨k, hk'⟩, hf'⟩
    · exact Or.inl (he'.trans he)
    · exact Or.inr ⟨⟨k, he ▸ hk'⟩, hf'⟩
    · exact Or.inr ⟨hk, he'.trans hf⟩
    · rw [hf] at hk'
      rcases hk' with hk' | hk' <;> cases hk'
  · -- a page that has kept its owner has kept it all the way
    rcases h.owner x with he | ⟨⟨k, hk⟩, hf⟩
    · exact (h'.mem x (hx.trans he.symm)).trans (h.mem x he)
    · rcases h'.owner x with he' | ⟨⟨k', hk'⟩, -⟩
      · rw [he', hf] at hx
        rcases hk with hk | hk <;> cases hx.trans hk
      · rw [hf] at hk'
        rcases hk' with hk' | hk' <;> cases hk'

theorem TableFreed.roots (h : TableFreed own own' lim s s' r) : SameRoots own own' := by
  intro q x
  rcases h.owner x with he | ⟨⟨k, hk⟩, hf⟩
  · rw [he]
    exact ⟨Iff.rfl, Iff.rfl⟩
  · rcases hk with hk | hk <;> simp [hk, hf]

/-- The page `pa` of a lower-level table has been given back. -/
theorem tableFreed_give (h : Wf own lim s) (t : PageTable)
    (hpa : ∃ k, own pa = .l1 r k ∨ own pa = .l0 r k) (ht : t.pte = (s.tables r).pte)
    (hpages : Pages (Function.update own pa .free) lim
      (setTable { setPage s pa (fun _ => 1) with freelist := pa :: s.freelist } r t))
    (hroots : SameRoots own (Function.update own pa .free)) :
    TableFreed own (Function.update own pa .free) lim s
      (setTable { setPage s pa (fun _ => 1) with freelist := pa :: s.freelist } r t) r := by
  obtain ⟨k, hk⟩ := hpa
  have hpte : ∀ r' v, (setTable { setPage s pa (fun _ => 1) with
      freelist := pa :: s.freelist } r t).pte r' v = s.pte r' v := by
    intro r' v
    by_cases hr : r' = r
    · subst hr
      simp [Kernel.pte, setTable, ht]
    · simp [Kernel.pte, setTable, setPage, hr]
  refine ⟨⟨hpages, ?_, h.slots.mono hroots (fun r' _ v _ => hpte r' v) rfl, h.raid, h.kend_pos⟩,
    ⟨rfl, rfl, rfl, rfl, fun _ => rfl⟩, fun x => ?_, hpte, fun x hx => ?_, rfl, rfl, rfl, rfl, rfl⟩
  · refine h.frames.mono hroots fun i hi => Function.update_of_ne ?_ ..
    rintro he
    rcases h.frames.owner hi with ⟨q, a, ho⟩ | ⟨r', v, ho⟩ <;> rw [he] at ho <;>
      rcases hk with hk | hk <;> cases ho.symm.trans hk
  · by_cases hx : x = pa
    · exact Or.inr ⟨⟨k, hx ▸ hk⟩, hx ▸ Function.update_self ..⟩
    · exact Or.inl (Function.update_of_ne hx ..)
  · have hne : x ≠ pa := by
      rintro rfl
      rw [Function.update_self] at hx
      rcases hk with hk | hk <;> cases hx.trans hk
    simp [setTable, setPage, hne]

section Walk

variable (h : Wf own lim s) (hr : IsTable own r) (hzero : ∀ v, s.pte r v = 0)

include h hr hzero

theorem freewalkEntry0_spec (k : Nat) :
    ∃ s' own', freewalkEntry0 r s k = .ok s' ∧ TableFreed own own' lim s s' r ∧
      (s'.tables r).l1 = (s.tables r).l1 ∧
      (s'.tables r).l0 = Function.update (s.tables r).l0 k none := by
  cases hk : (s.tables r).l0 k with
  | none =>
      refine ⟨s, own, by simp [freewalkEntry0, hk], .refl h r, rfl, ?_⟩
      rw [← hk, Function.update_eq_self]
  | some pa =>
      have hpa : own pa = .l0 r k := (h.pages.l0 (r, k) pa).mpr ⟨hr, hk⟩
      let t := { s.tables r with l0 := Function.update (s.tables r).l0 k none }
      let s₁ := { setPage s pa (fun _ => 1) with freelist := pa :: s.freelist }
      have hleaf : ((List.range 512).any fun i => (s.pte r (512 * k + i)).has PTE_V) = false := by
        simp [hzero, Pte.has]
      have hfree : kfree s pa = .ok s₁ := kfree_eq (h.pages.range pa (by simp [hpa]))
      have hsame : SameProcs s (setTable s₁ r t) := ⟨rfl, rfl, rfl, rfl, fun _ => rfl⟩
      obtain ⟨hpages, hroots⟩ := h.pages.giveL0 hr hk hzero hsame rfl rfl
      refine ⟨setTable s₁ r t, _, ?_, tableFreed_give h t ⟨k, Or.inr hpa⟩ rfl hpages hroots, ?_, ?_⟩
      · simp only [freewalkEntry0, hk, freewalkL0, hleaf, Bool.false_eq_true, if_false, hfree, ok_bind]
        rfl
      · simp [setTable, t]
      · simp [setTable, t]

theorem freewalkL0s_spec (k n : Nat) (hn : n ≤ 512) :
    ∃ s' own', (List.range n).foldlM (fun s i => freewalkEntry0 r s (512 * k + i)) s = .ok s' ∧
      TableFreed own own' lim s s' r ∧ (s'.tables r).l1 = (s.tables r).l1 ∧
      ∀ j, (s'.tables r).l0 j =
        if 512 * k ≤ j ∧ j < 512 * k + n then none else (s.tables r).l0 j := by
  induction n with
  | zero =>
      refine ⟨s, own, rfl, .refl h r, rfl, fun j => ?_⟩
      rw [if_neg (by omega)]
  | succ n ih =>
      obtain ⟨s₁, own₁, h₁, hf₁, hl1₁, hl0₁⟩ := ih (by omega)
      obtain ⟨s₂, own₂, h₂, hf₂, hl1₂, hl0₂⟩ := freewalkEntry0_spec hf₁.wf
        ((hf₁.roots.isTable r).mpr hr) (fun v => (hf₁.pte r v).trans (hzero v)) (512 * k + n)
      refine ⟨s₂, own₂, ?_, hf₁.trans hf₂, hl1₂.trans hl1₁, fun j => ?_⟩
      · rw [List.range_succ, List.foldlM_append, h₁, ok_bind, List.foldlM_cons, h₂]
        rfl
      · rw [hl0₂]
        by_cases hj : j = 512 * k + n
        · rw [hj, Function.update_self, if_pos (by omega)]
        · rw [Function.update_of_ne hj, hl0₁]
          by_cases hjn : 512 * k ≤ j ∧ j < 512 * k + n
          · rw [if_pos hjn, if_pos (by omega)]
          · rw [if_neg hjn, if_neg (by omega)]

theorem freewalkEntry1_spec (k : Nat) :
    ∃ s' own', freewalkEntry1 r s k = .ok s' ∧ TableFreed own own' lim s s' r ∧
      (s'.tables r).l1 = Function.update (s.tables r).l1 k none := by
  cases hk : (s.tables r).l1 k with
  | none =>
      refine ⟨s, own, by simp [freewalkEntry1, hk], .refl h r, ?_⟩
      rw [← hk, Function.update_eq_self]
  | some pa =>
      obtain ⟨s₁, own₁, h₁, hf₁, hl1₁, hl0₁⟩ := freewalkL0s_spec h hr hzero k 512 le_rfl
      have hr₁ : IsTable own₁ r := (hf₁.roots.isTable r).mpr hr
      have hk₁ : (s₁.tables r).l1 k = some pa := by rw [hl1₁, hk]
      have hpa : own₁ pa = .l1 r k := (hf₁.wf.pages.l1 (r, k) pa).mpr ⟨hr₁, hk₁⟩
      have hnone : ∀ j, j / 512 = k → (s₁.tables r).l0 j = none := by
        intro j hj
        rw [hl0₁, if_pos (by omega)]
      let t := { s₁.tables r with l1 := Function.update (s₁.tables r).l1 k none }
      let s₂ := { setPage s₁ pa (fun _ => 1) with freelist := pa :: s₁.freelist }
      have hfree : kfree s₁ pa = .ok s₂ := kfree_eq (hf₁.wf.pages.range pa (by simp [hpa]))
      have hsame : SameProcs s₁ (setTable s₂ r t) := ⟨rfl, rfl, rfl, rfl, fun _ => rfl⟩
      obtain ⟨hpages, hroots⟩ := hf₁.wf.pages.giveL1 hr₁ hk₁ hnone hsame rfl rfl
      refine ⟨setTable s₂ r t, _, ?_,
        hf₁.trans (tableFreed_give hf₁.wf t ⟨k, Or.inl hpa⟩ rfl hpages hroots), ?_⟩
      · simp only [freewalkEntry1, hk, freewalkL1, h₁, ok_bind, hfree]
        rfl
      · simp [setTable, t, hl1₁]

theorem freewalkL1s_spec (n : Nat) :
    ∃ s' own', (List.range n).foldlM (freewalkEntry1 r) s = .ok s' ∧
      TableFreed own own' lim s s' r ∧
      ∀ k, (s'.tables r).l1 k = if k < n then none else (s.tables r).l1 k := by
  induction n with
  | zero => exact ⟨s, own, rfl, .refl h r, fun k => by rw [if_neg (by omega)]⟩
  | succ n ih =>
      obtain ⟨s₁, own₁, h₁, hf₁, hl1₁⟩ := ih
      obtain ⟨s₂, own₂, h₂, hf₂, hl1₂⟩ := freewalkEntry1_spec hf₁.wf
        ((hf₁.roots.isTable r).mpr hr) (fun v => (hf₁.pte r v).trans (hzero v)) n
      refine ⟨s₂, own₂, ?_, hf₁.trans hf₂, fun k => ?_⟩
      · rw [List.range_succ, List.foldlM_append, h₁, ok_bind, List.foldlM_cons, h₂]
        rfl
      · rw [hl1₂]
        by_cases hk : k = n
        · rw [hk, Function.update_self, if_pos (by omega)]
        · rw [Function.update_of_ne hk, hl1₁]
          by_cases hkn : k < n
          · rw [if_pos hkn, if_pos (by omega)]
          · rw [if_neg hkn, if_neg (by omega)]

/-- **`freewalk`** of a table without leaves, up to the page of the root itself. -/
theorem freewalk_spec :
    ∃ s' own', freewalk s r = kfree s' r ∧ TableFreed own own' lim s s' r ∧
      (∀ k, (s'.tables r).l1 k = none) ∧ ∀ k, (s'.tables r).l0 k = none := by
  obtain ⟨s', own', hrun, hf, hl1⟩ := freewalkL1s_spec h hr hzero 512
  have hnone : ∀ k, (s'.tables r).l1 k = none := by
    intro k
    rw [hl1]
    by_cases hk : k < 512
    · rw [if_pos hk]
    · rw [if_neg hk]
      by_contra hne
      have := (h.pages.table r hr).l1_lt k (Option.isSome_iff_ne_none.mpr hne)
      omega
  refine ⟨s', own', by simp only [freewalk, hrun, ok_bind], hf, hnone, fun k => ?_⟩
  by_contra hne
  have := (hf.wf.pages.table r ((hf.roots.isTable r).mpr hr)).l0_l1 k
    (Option.isSome_iff_ne_none.mpr hne)
  rw [hnone] at this
  cases this

end Walk

/-! ### Unmapping everything -/

theorem TableOk.setTop {t : PageTable} {n : Nat} {e : Pte} (h : TableOk t n) (hv : UPAGES ≤ v)
    (hl0 : e ≠ 0 → (t.l0 (v / 512)).isSome) (he : e = 0 ∨ ∃ pa, Resident e pa ∧ e.has PTE_U = false) :
    TableOk { t with pte := Function.update t.pte v e } n := by
  have hne : ∀ w, w < UPAGES → w ≠ v := fun w hw he => by omega
  refine ⟨h.l1_lt, h.l0_l1, fun w hw => ?_, fun w hw => ?_, h.lim_le, fun w hw hwu => ?_,
    fun w hw => ?_⟩
  · by_cases hwv : w = v
    · subst hwv
      exact hl0 (by simpa using hw)
    · exact h.pte_l0 w (by simpa [hwv] using hw)
  · simpa [hne w hw] using h.shape w hw
  · simpa [hne w hwu] using h.above w hw hwu
  · by_cases hwv : w = v
    · subst hwv
      simpa using he
    · simpa [hwv] using h.top w hw

/-- The entries above user memory do not matter to it. -/
theorem Wf.setTop {e : Pte} (h : Wf own lim s) (hv : UPAGES ≤ v)
    (hl0 : e ≠ 0 → HasL0 s r v) (he : e = 0 ∨ ∃ pa, Resident e pa ∧ e.has PTE_U = false) :
    Wf own lim (setPte s r v e) ∧ Keeps noPage own own s (setPte s r v e) := by
  have hpte : ∀ r' w, w < UPAGES → (setPte s r v e).pte r' w = s.pte r' w := by
    intro r' w hw
    rw [pte_setPte, if_neg fun hk => by omega]
  have hpages : Pages own lim (setPte s r v e) := by
    refine h.pages.shift (Shift.refl own) ⟨rfl, rfl, rfl, rfl, fun _ => rfl⟩
      (fun r' _ => setPte_l1 ..) (fun r' _ => setPte_l0 ..) h.pages.free h.pages.nodup ?_
      fun r' hr' => ?_
    · refine h.pages.user.congr fun k x => ?_
      refine and_congr_right fun _ => and_congr_right fun hk => ?_
      rw [hpte k.1 k.2 hk]
    · have hold := h.pages.table r' hr'
      by_cases hrr : r' = r
      · subst hrr
        simpa [setPte, setTable] using hold.setTop hv hl0 he
      · simpa [setPte, setTable, hrr] using hold
  refine ⟨⟨hpages, h.frames, h.slots.mono (.refl own) (fun r' _ w hw => hpte r' w hw) rfl, h.raid,
    h.kend_pos⟩, ⟨⟨rfl, rfl, rfl, rfl, fun _ => rfl⟩, .refl own, fun _ => Iff.rfl,
    fun r' w hr' hw _ => ?_, le_rfl, le_rfl, fun _ _ ht => ht⟩⟩
  exact flat_congr (hpte r' w hw) (fun _ _ => rfl) (fun _ _ => rfl) (h.pages.userEntry hr' hw)

theorem setPte_self (h : s.pte r v = 0) : setPte s r v 0 = s := by
  rw [← h]
  simp [setPte, setTable, Kernel.pte]

/-- The entry of the trapframe or the trampoline is cleared, and its page is not freed. -/
theorem unmapTop_spec (h : Wf own lim s) (hr : IsTable own r) (hv : UPAGES ≤ v)
    (hlt : v * PGSIZE < MAXVA) :
    uvmunmap s r (v * PGSIZE) 1 false = .ok (setPte s r v 0) := by
  have htab := h.pages.table r hr
  have hpage : uvmunmapPage s r false (v * PGSIZE) = .ok (setPte s r v 0) := by
    rcases walk_eq htab hlt with hw | ⟨hw, h0⟩
    · rw [page_div] at hw
      rcases htab.top v hv with h0 | ⟨pa, hres, -⟩
      · have h0 : s.pte r v = 0 := h0
        rw [h0] at hw
        rw [setPte_self h0]
        simp only [uvmunmapPage, hw, ok_bind]
        rfl
      · have hres : Resident (s.pte r v) pa := hres
        simp only [uvmunmapPage, hw, ok_bind, hres.not_swapped, hres.valid, page_div]
        rfl
    · rw [page_div] at h0
      rw [setPte_self h0]
      simp only [uvmunmapPage, hw, ok_bind]
      rfl
  have halign : ¬ v * PGSIZE % PGSIZE ≠ 0 := by simp
  rw [uvmunmap, if_neg halign]
  simp only [List.range_one, List.foldlM_cons, Nat.zero_mul, Nat.add_zero, hpage, ok_bind]
  rfl

theorem TableFreed.keeps (h : Wf own lim s) (hf : TableFreed own own' lim s s' r) :
    Keeps noPage own own' s s' := by
  refine ⟨hf.procs, hf.roots, fun x => ?_, fun r' v hr' hv _ => ?_, hf.nulls.ge, hf.fulls.ge,
    fun _ _ ht x hx => ?_⟩
  · rcases hf.owner x with he | ⟨⟨k, hk⟩, he⟩
    · rw [he]
    · rcases hk with hk | hk <;> simp [hk, he]
  · refine flat_congr (hf.pte r' v) (fun x hx => hf.mem x ?_) (fun n _ => by rw [hf.raid])
      (h.pages.userEntry hr' hv)
    have hown := h.pages.own_user hr' hv hx
    exact (hf.owner x).resolve_right fun ⟨⟨k, hk⟩, _⟩ => by
      rcases hk with hk | hk <;> cases hown.symm.trans hk
  · rw [hf.frameTable]
    rcases hf.owner x with he | ⟨-, he⟩
    · exact ht x (by rwa [he] at hx)
    · simp [he] at hx

/-- Nothing is left of table `r` but the page of its root. -/
structure TableEmptied (own own' : Nat → Owner) (lim : Nat → Nat) (s s' : Kernel) (r : Nat) :
    Prop where
  wf : Wf own' lim s'
  keeps : Keeps (fun r' _ => r' = r) own own' s s'
  owner : ∀ x, own' x = own x ∨ own' x = .free
  pte : ∀ v, s'.pte r v = 0
  l1 : ∀ k, (s'.tables r).l1 k = none
  l0 : ∀ k, (s'.tables r).l0 k = none
  nulls : s'.nullAllocs = s.nullAllocs
  fulls : s'.swapFulls = s.swapFulls

theorem uvmfree_eq {sz : Nat} (hsz : sz ≤ TRAPFRAME) :
    uvmfree s r sz = uvmunmap s r (0 * PGSIZE) (npages sz) true >>= fun s => freewalk s r := by
  by_cases h0 : sz > 0
  · rw [uvmfree, if_pos h0, pgRoundUp_eq hsz, page_div, Nat.zero_mul]
  · have : sz = 0 := by omega
    subst this
    rfl

/-- **`proc_freepagetable`**, up to the page of the root. -/
theorem procFreepagetable_spec {sz : Nat} (h : Wf own lim s) (hr : IsTable own r)
    (hsz : sz ≤ TRAPFRAME) (hlim : lim r ≤ npages sz) :
    ∃ s' own', procFreepagetable s r sz = kfree s' r ∧ TableEmptied own own' lim s s' r := by
  have hU : UPAGES + 2 = 2 ^ 26 := by decide
  have htramp : TRAMPOLINE = (UPAGES + 1) * PGSIZE := by decide
  have htf : TRAPFRAME = UPAGES * PGSIZE := by decide
  have h₁ : uvmunmap s r TRAMPOLINE 1 false = .ok (setPte s r (UPAGES + 1) 0) := by
    rw [htramp]
    exact unmapTop_spec h hr (by omega) (by decide)
  obtain ⟨hwf₁, hk₁⟩ := h.setTop (r := r) (v := UPAGES + 1) (e := 0) (by omega)
    (fun hne => absurd rfl hne) (Or.inl rfl)
  have h₂ : uvmunmap (setPte s r (UPAGES + 1) 0) r TRAPFRAME 1 false =
      .ok (setPte (setPte s r (UPAGES + 1) 0) r UPAGES 0) := by
    rw [htf]
    exact unmapTop_spec hwf₁ hr le_rfl (by decide)
  obtain ⟨hwf₂, hk₂⟩ := hwf₁.setTop (r := r) (v := UPAGES) (e := 0) le_rfl
    (fun hne => absurd rfl hne) (Or.inl rfl)
  obtain ⟨s₃, own₃, h₃, hu⟩ := uvmunmap_spec hwf₂ hr 0 (npages sz) (by
    have := npages_le hsz
    omega)
  have hr₃ : IsTable own₃ r := (hu.isTable r).mpr hr
  -- no entry is left
  have hzero : ∀ v, s₃.pte r v = 0 := by
    intro v
    by_cases hv : v < npages sz
    · exact hu.pte_in v ⟨Nat.zero_le _, by omega⟩
    · by_cases hvu : v < UPAGES
      · exact hu.wf.pte_above hr₃ (by omega) hvu
      · by_cases htop : v < 2 ^ 26
        · rw [hu.pte_out r v fun he => by omega, pte_setPte]
          by_cases hv₀ : v = UPAGES
          · rw [if_pos ⟨rfl, hv₀⟩]
          · rw [if_neg fun he => hv₀ he.2, pte_setPte, if_pos ⟨rfl, by omega⟩]
        · by_contra hne
          have hl0 := (hu.wf.pages.table r hr₃).pte_l0 v hne
          have hl1 := (hu.wf.pages.table r hr₃).l0_l1 _ hl0
          have := (hu.wf.pages.table r hr₃).l1_lt _ hl1
          omega
  obtain ⟨s₄, own₄, h₄, hf, hl1, hl0⟩ := freewalk_spec hu.wf hr₃ hzero
  refine ⟨s₄, own₄, ?_, hf.wf, ?_, fun x => ?_, fun v => (hf.pte r v).trans (hzero v), hl1, hl0,
    hf.nulls.trans hu.nulls, hf.fulls.trans hu.fulls⟩
  · simp only [procFreepagetable, h₁, h₂, ok_bind, uvmfree_eq hsz, h₃, h₄]
  · have hk₄ := hf.keeps hu.wf
    refine (hk₁.trans hk₂ fun _ _ ht => ht.elim id id).trans (hu.keeps.trans hk₄ fun _ _ ht => ht)
      fun r' v' ht => ?_
    rcases ht with ht | ht | ht
    · exact ht.elim
    · exact ht.1
    · exact ht.elim
  · rcases hf.owner x with he | ⟨-, he⟩
    · rcases hu.owner x with he' | ⟨-, he'⟩
      · exact Or.inl (he.trans he')
      · exact Or.inr (he.trans he')
    · exact Or.inr he

/-! ### Giving back the last pages of a process -/

/-- Tables may disappear that no used frame is about. -/
theorem Frames.restrict {ft ft' : FrameTable} (h : Frames own ft)
    (hft : ∀ i, (ft' i).used = true → (ft i).used = true ∧ (ft' i).proc = (ft i).proc ∧
      (ft' i).va = (ft i).va ∧ (ft' i).pa = (ft i).pa)
    (hpa : ∀ i, (ft' i).used = true → own' (ft i).pa = own (ft i).pa)
    (howns : ∀ i q r v, (ft' i).used = true → own (ft i).pa = .user r v → OwnsTable own q r →
      OwnsTable own' q r) : Frames own' ft' := by
  refine ⟨fun i hi => ?_, (h.sub hft).inj⟩
  obtain ⟨q, hq, hva, hown⟩ := (h.sub hft).ok i hi
  refine ⟨q, hq, hva, ?_⟩
  rw [(hft i hi).2.2.2] at hown ⊢
  rw [hpa i hi]
  exact hown.imp_right fun ⟨r, hr, hu⟩ => ⟨r, howns i q r _ hi hu hr, hu⟩

/-- Tables may disappear, and slots that no entry names may change. -/
theorem Slots.restrict (h : Slots own s) (htab : ∀ r, IsTable own' r → IsTable own r)
    (howns : ∀ q r, IsTable own' r → OwnsTable own q r → OwnsTable own' q r)
    (hpte : ∀ r v, IsTable own' r → v < UPAGES → s'.pte r v = s.pte r v)
    (hsw : ∀ r v n, IsTable own' r → v < UPAGES → Swapped (s.pte r v) n →
      s'.swapSpace n = s.swapSpace n) : Slots own' s' := by
  refine ⟨fun r v n hr hv hn => ?_, fun r v r' v' n hr hv hn hr' hv' hn' => ?_⟩
  · rw [hpte r v hr hv] at hn
    have hok := h.ok r v n (htab r hr) hv hn
    rw [hsw r v n hr hv hn]
    exact ⟨hok.lt, hok.used, hok.block, fun q hq => howns q r hr (hok.proc q hq)⟩
  · rw [hpte r v hr hv] at hn
    rw [hpte r' v' hr' hv'] at hn'
    exact h.inj r v r' v' n (htab r hr) hv hn (htab r' hr') hv' hn'

/-- The page of an emptied table's root is freed, and no process names it any more. -/
theorem Wf.giveRoot (h : Wf own lim s) (hr : IsTable own r) (hpte : ∀ v, s.pte r v = 0)
    (hl1 : ∀ k, (s.tables r).l1 k = none) (hl0 : ∀ k, (s.tables r).l0 k = none)
    (hkend : s'.kend = s.kend) (hf : s'.freelist = r :: s.freelist) (ht : s'.tables = s.tables)
    (hft : s'.frameTable = s.frameTable) (hsw : s'.swapSpace = s.swapSpace)
    (hraid : s'.raid = s.raid)
    (hpt : ∀ q x, (s'.procs q).pagetable = some x ↔ (s.procs q).pagetable = some x ∧ x ≠ r)
    (htf : ∀ q, (s'.procs q).trapframe = (s.procs q).trapframe) :
    Wf (Function.update own r .free) lim s' := by
  obtain ⟨p, hp⟩ := hr
  have hne : ∀ {o : Owner}, (∀ q, o ≠ .root q ∧ o ≠ .newRoot q) → own r ≠ o := by
    intro o ho he
    rcases hp with hp | hp
    · exact (ho p).1 (he.symm.trans hp)
    · exact (ho p).2 (he.symm.trans hp)
  have howns : ∀ q x, OwnsTable (Function.update own r .free) q x ↔ OwnsTable own q x ∧ x ≠ r := by
    intro q x
    by_cases hx : x = r
    · subst hx
      simp [OwnsTable]
    · simp [OwnsTable, hx]
  have htab : ∀ x, IsTable (Function.update own r .free) x ↔ IsTable own x ∧ x ≠ r := by
    intro x
    constructor
    · rintro ⟨q, hq⟩
      exact ⟨⟨q, ((howns q x).mp hq).1⟩, ((howns q x).mp hq).2⟩
    · rintro ⟨⟨q, hq⟩, hx⟩
      exact ⟨q, (howns q x).mpr ⟨hq, hx⟩⟩
  obtain ⟨hfr, hnd⟩ := h.pages.free_cons (hne (by simp) : own r ≠ .free)
  have hpages : Pages (Function.update own r .free) lim s' := by
    refine ⟨fun x hx => ?_, hf ▸ hfr, hf ▸ hnd, ?_, ?_, ?_, ?_, ?_, fun x hx => ?_⟩
    · rw [hkend]
      by_cases hxr : x = r
      · exact hxr ▸ h.pages.range r (hne (by simp))
      · exact h.pages.range x (by rwa [Function.update_of_ne hxr] at hx)
    · exact h.pages.root.drop (by simp) fun q x => hpt q x
    · exact h.pages.trapframe.keep (fun q => hne (by simp)) (by simp) fun q x => by rw [htf]
    · refine h.pages.l1.keep (fun k => hne (by simp [ownL1])) (by simp [ownL1]) fun k x => ?_
      rw [htab, ht]
      refine ⟨fun hx => ⟨hx.1.1, hx.2⟩, fun hx => ⟨⟨hx.1, fun he => ?_⟩, hx.2⟩⟩
      rw [he, hl1] at hx
      cases hx.2
    · refine h.pages.l0.keep (fun k => hne (by simp [ownL0])) (by simp [ownL0]) fun k x => ?_
      rw [htab, ht]
      refine ⟨fun hx => ⟨hx.1.1, hx.2⟩, fun hx => ⟨⟨hx.1, fun he => ?_⟩, hx.2⟩⟩
      rw [he, hl0] at hx
      cases hx.2
    · refine h.pages.user.keep (fun k => hne (by simp [ownUser])) (by simp [ownUser]) fun k x => ?_
      rw [htab, pte_of_tables ht]
      refine ⟨fun hx => ⟨hx.1.1, hx.2⟩, fun hx => ⟨⟨hx.1, fun he => ?_⟩, hx.2⟩⟩
      rw [he] at hx
      exact hx.2.2.not_zero (hpte _)
    · rw [ht]
      exact h.pages.table x ((htab x).mp hx).1
  refine ⟨hpages, ?_, ?_, hraid ▸ h.raid, hkend ▸ h.kend_pos⟩
  · rw [hft]
    refine h.frames.restrict (fun i hi => ⟨hi, rfl, rfl, rfl⟩) (fun i hi => ?_)
      fun i q x v hi hu hq => (howns q x).mpr ⟨hq, fun he => ?_⟩
    · refine Function.update_of_ne (fun he => ?_) ..
      rcases h.frames.owner hi with ⟨q, a, ho⟩ | ⟨x, v, ho⟩ <;> rw [he] at ho
      · exact hne (by simp) ho
      · exact hne (by simp) ho
    · exact ((h.pages.user (x, v) _).mp hu).2.2.not_zero (he ▸ hpte v)
  · exact h.slots.restrict (fun x hx => ((htab x).mp hx).1)
      (fun q x hx hq => (howns q x).mpr ⟨hq, ((htab x).mp hx).2⟩)
      (fun x v _ _ => pte_of_tables ht x v) fun _ _ _ _ _ _ => by rw [hsw]

/-- The page of a trapframe is freed, and its process does not name it any more. -/
theorem Wf.giveTrapframe (h : Wf own lim s) (hpa : own pa = .trapframe p)
    (hkend : s'.kend = s.kend) (hf : s'.freelist = pa :: s.freelist) (ht : s'.tables = s.tables)
    (hft : s'.frameTable = s.frameTable) (hsw : s'.swapSpace = s.swapSpace)
    (hraid : s'.raid = s.raid) (hpt : ∀ q, (s'.procs q).pagetable = (s.procs q).pagetable)
    (htf : ∀ q x, (s'.procs q).trapframe = some x ↔ (s.procs q).trapframe = some x ∧ x ≠ pa) :
    Wf (Function.update own pa .free) lim s' := by
  have hroots : SameRoots own (Function.update own pa .free) :=
    sameRoots_update (by simp [hpa]) (by simp)
  obtain ⟨hfr, hnd⟩ := h.pages.free_cons (by simp [hpa] : own pa ≠ .free)
  have hpages : Pages (Function.update own pa .free) lim s' := by
    refine ⟨fun x hx => ?_, hf ▸ hfr, hf ▸ hnd, ?_, ?_, ?_, ?_, ?_, fun x hx => ?_⟩
    · rw [hkend]
      by_cases hxp : x = pa
      · exact hxp ▸ h.pages.range pa (by simp [hpa])
      · exact h.pages.range x (by rwa [Function.update_of_ne hxp] at hx)
    · exact h.pages.root.keep (by simp [hpa]) (by simp) fun q x => by rw [hpt]
    · exact h.pages.trapframe.drop (by simp) fun q x => htf q x
    · exact h.pages.l1.keep (by simp [hpa, ownL1]) (by simp [ownL1]) fun k x => by
        rw [hroots.isTable, ht]
    · exact h.pages.l0.keep (by simp [hpa, ownL0]) (by simp [ownL0]) fun k x => by
        rw [hroots.isTable, ht]
    · exact h.pages.user.keep (by simp [hpa, ownUser]) (by simp [ownUser]) fun k x => by
        rw [hroots.isTable, pte_of_tables ht]
    · rw [ht]
      exact h.pages.table x ((hroots.isTable x).mp hx)
  refine ⟨hpages, ?_, h.slots.mono hroots (fun x _ v _ => pte_of_tables ht x v) hsw,
    hraid ▸ h.raid, hkend ▸ h.kend_pos⟩
  rw [hft]
  refine h.frames.mono hroots fun i hi => Function.update_of_ne (fun he => ?_) ..
  rcases h.frames.owner hi with ⟨q, a, ho⟩ | ⟨x, v, ho⟩ <;> simp [he, hpa] at ho

/-! ### `freeproc` -/

/-- The states differ in the processes and the numbers about them only. -/
def ProcsOnly (s s' : Kernel) : Prop :=
  s' = { s with procs := s'.procs, nextpid := s'.nextpid, initproc := s'.initproc }

/-- A change of the processes that the pages do not see. -/
theorem Wf.setProcs (h : Wf own lim s) (hs : ProcsOnly s s')
    (hpt : ∀ q, (s'.procs q).pagetable = (s.procs q).pagetable)
    (htf : ∀ q, (s'.procs q).trapframe = (s.procs q).trapframe) : Wf own lim s' := by
  have hp := h.pages
  rw [hs]
  exact ⟨⟨hp.range, hp.free, hp.nodup, hp.root.congr fun q x => by rw [hpt],
    hp.trapframe.congr fun q x => by rw [htf], hp.l1, hp.l0, hp.user, hp.table⟩, h.frames,
    ⟨h.slots.ok, h.slots.inj⟩, h.raid, h.kend_pos⟩

/-- A process without a table has no used frames and no slots that matter. -/
theorem Wf.dropOwner (h : Wf own lim s) (hp : ∀ r, ¬ OwnsTable own p r) (hheld : NoHeld own) :
    Wf own lim { s with
      frameTable := dropFrames s.frameTable p, swapSpace := dropSlots s.swapSpace p } ∧
    (Tracked own s.frameTable → Tracked own (dropFrames s.frameTable p)) := by
  have hframe : ∀ i, (s.frameTable i).used = true → dropFrames s.frameTable p i = s.frameTable i := by
    intro i hi
    refine if_neg fun he => ?_
    obtain ⟨q, hq, -, hh | ⟨r, hr, -⟩⟩ := h.frames.ok i hi
    · exact hheld _ _ _ hh
    · cases he.symm.trans hq
      exact hp r hr
  have hused : ∀ i, (dropFrames s.frameTable p i).used = true → (s.frameTable i).used = true := by
    intro i hi
    unfold dropFrames at hi
    split at hi
    · cases hi
    · exact hi
  have hpg := h.pages
  refine ⟨⟨⟨hpg.range, hpg.free, hpg.nodup, hpg.root, hpg.trapframe, hpg.l1, hpg.l0, hpg.user,
    hpg.table⟩, h.frames.sub fun i hi => ?_, h.slots.restrict (fun _ hr => hr) (fun _ _ _ hq => hq)
    (fun _ _ _ _ => rfl) fun r v n hr hv hn => ?_, h.raid, h.kend_pos⟩, fun ht x hx => ?_⟩
  · have he := hframe i (hused i hi)
    exact ⟨hused i hi, congrArg FrameEntry.proc he, congrArg FrameEntry.va he,
      congrArg FrameEntry.pa he⟩
  · exact if_neg fun he => hp r ((h.slots.ok r v n hr hv hn).proc p he.2)
  · obtain ⟨i, hi, hix⟩ := ht x hx
    exact ⟨i, by rw [hframe i hi, hi], by rw [hframe i hi, hix]⟩

/-- Process `p` is gone, and the others have not noticed. -/
structure ProcFreed (own own' : Nat → Owner) (s s' : Kernel) (p : ProcId) : Prop where
  kend : s'.kend = s.kend
  trampoline : s'.trampoline = s.trampoline
  initproc : s'.initproc = s.initproc
  nextpid : s'.nextpid = s.nextpid
  others : ∀ q, q ≠ p → (s'.procs q).ident = (s.procs q).ident
  state : (s'.procs p).state = .unused
  root : ∀ q r, own' r = .root q ↔ own r = .root q ∧ q ≠ p
  owner : ∀ x, own' x = own x ∨ own' x = .free
  kernel : ∀ x, own' x = .kernel ↔ own x = .kernel
  flat : ∀ q r v, own r = .root q → q ≠ p → v < UPAGES → flat s' r v = flat s r v
  nulls : s'.nullAllocs = s.nullAllocs
  fulls : s'.swapFulls = s.swapFulls
  tracked : Tracked own s.frameTable → Tracked own' s'.frameTable

theorem freeTrapframe_spec (h : Wf own lim s) (p : ProcId) :
    ∃ s' own', freeTrapframe s p = .ok s' ∧ Wf own' lim s' ∧
      (∀ x, own' x = own x ∨ (own x = .trapframe p ∧ own' x = .free)) ∧
      s'.procs = Function.update s.procs p { s.procs p with trapframe := none } ∧
      s' = { s with procs := s'.procs, freelist := s'.freelist, mem := s'.mem } ∧
      (∀ x, own' x = own x → s'.mem x = s.mem x) := by
  cases htf : (s.procs p).trapframe with
  | none =>
      have hself : { s.procs p with trapframe := none } = s.procs p := by rw [← htf]
      refine ⟨s, own, ?_, h, fun _ => Or.inl rfl, ?_, rfl, fun _ _ => rfl⟩
      · simp only [freeTrapframe, htf, pure_eq_ok, ok_bind, setProc, hself, Function.update_eq_self]
      · rw [hself, Function.update_eq_self]
  | some pa =>
      have hpa : own pa = .trapframe p := (h.pages.trapframe p pa).mpr htf
      let s₁ := { setPage s pa (fun _ => 1) with freelist := pa :: s.freelist }
      let s₂ := setProc s₁ p { s.procs p with trapframe := none }
      have hfree : kfree s pa = .ok s₁ := kfree_eq (h.pages.range pa (by simp [hpa]))
      have hprocs : ∀ q, (s₂.procs q).pagetable = (s.procs q).pagetable ∧
          ∀ x, (s₂.procs q).trapframe = some x ↔ (s.procs q).trapframe = some x ∧ x ≠ pa := by
        intro q
        by_cases hq : q = p
        · subst hq
          simp [s₂, s₁, setProc, htf, eq_comm]
        · refine ⟨by simp [s₂, s₁, setProc, setPage, hq], fun x => ?_⟩
          have : (s₂.procs q).trapframe = (s.procs q).trapframe := by
            simp [s₂, s₁, setProc, setPage, hq]
          rw [this]
          refine ⟨fun hx => ⟨hx, fun he => hq ?_⟩, And.left⟩
          have hx' := (h.pages.trapframe q x).mpr hx
          rw [he, hpa] at hx'
          cases hx'
          rfl
      refine ⟨s₂, Function.update own pa .free, ?_, h.giveTrapframe hpa rfl rfl rfl rfl rfl rfl
        (fun q => (hprocs q).1) fun q => (hprocs q).2, fun x => ?_, rfl, rfl, fun x hx => ?_⟩
      · simp only [freeTrapframe, htf, hfree, ok_bind]
        rfl
      · by_cases hx : x = pa
        · exact Or.inr ⟨hx ▸ hpa, hx ▸ Function.update_self ..⟩
        · exact Or.inl (Function.update_of_ne hx ..)
      · have hne : x ≠ pa := by
          rintro rfl
          rw [Function.update_self, hpa] at hx
          cases hx
        simp [s₂, s₁, setProc, setPage, hne]

/-- What the invariant says of process `q` alone. -/
structure ProcOk (s : Kernel) (q : ProcId) : Prop where
  sz_le : (s.procs q).sz ≤ TRAPFRAME
  live : (s.procs q).state = .unused ↔ (s.procs q).pagetable = none
  unused : (s.procs q).state = .unused → (s.procs q).trapframe = none ∧ (s.procs q).sz = 0

theorem Settled.procOk (h : Settled own lim s) (q : ProcId) : ProcOk s q :=
  ⟨h.sz_le q, h.live q, h.unused q⟩

theorem ProcOk.congr (h : ProcOk s q) (he : (s'.procs q).ident = (s.procs q).ident) :
    ProcOk s' q := by
  refine ⟨?_, ?_, ?_⟩
  · rw [ident_sz he]
    exact h.sz_le
  · rw [ident_state he, ident_pagetable he]
    exact h.live
  · rw [ident_state he, ident_trapframe he, ident_sz he]
    exact h.unused

/-- The fields of the process that `freeproc` clears, the state apart. -/
def clearProc (s : Kernel) (p : ProcId) : Kernel :=
  setProc s p { s.procs p with
    pagetable := none, sz := 0, pid := 0, parent := none, name := [], chan := none,
    killed := false, xstate := 0 }

theorem clearProc_other (s : Kernel) (hq : q ≠ p) : (clearProc s p).procs q = s.procs q :=
  Function.update_of_ne hq ..

theorem resetProc_other (s : Kernel) (hq : q ≠ p) : (resetProc s p).procs q = s.procs q := by
  simp [resetProc, setProc, hq]

/-- The last part of `freeproc`, on a process that has nothing left. -/
theorem resetProc_spec (h : Wf own lim (clearProc s p)) (hheld : NoHeld own) (hnew : NoNew own)
    (hroot : ∀ x, own x ≠ .root p) (htf : (s.procs p).trapframe = none)
    (hsized : ∀ q x, own x = .root q → lim x = npages (s.procs q).sz)
    (hok : ∀ q, q ≠ p → ProcOk s q) :
    Settled own lim (resetProc s p) ∧
      (Tracked own s.frameTable → Tracked own (resetProc s p).frameTable) := by
  have hnone : ∀ x, ¬ OwnsTable own p x := by
    rintro x (hx | hx)
    · exact hroot x hx
    · exact hnew x p hx
  obtain ⟨hwf₁, htr⟩ := h.dropOwner hnone hheld
  have hself : ((resetProc s p).procs p).state = .unused ∧
      ((resetProc s p).procs p).pagetable = none ∧ ((resetProc s p).procs p).trapframe = none ∧
      ((resetProc s p).procs p).sz = 0 := by
    simp [resetProc, setProc, htf]
  have hother : ∀ q, q ≠ p → ProcOk (resetProc s p) q := fun q hq =>
    (hok q hq).congr (by rw [resetProc_other s hq])
  have hprocOk : ∀ q, ProcOk (resetProc s p) q := by
    intro q
    by_cases hq : q = p
    · subst hq
      exact ⟨by rw [hself.2.2.2]; exact Nat.zero_le _, iff_of_true hself.1 hself.2.1,
        fun _ => hself.2.2⟩
    · exact hother q hq
  have hwf₂ : Wf own lim (resetProc s p) := by
    refine hwf₁.setProcs rfl (fun q => ?_) fun q => ?_
    · by_cases hq : q = p
      · subst hq
        simp [resetProc, clearProc, setProc]
      · rw [resetProc_other s hq]
        simp [clearProc, setProc, hq]
    · by_cases hq : q = p
      · subst hq
        simp [resetProc, clearProc, setProc]
      · rw [resetProc_other s hq]
        simp [clearProc, setProc, hq]
  refine ⟨⟨hwf₂, hheld, hnew, fun q x hx => ?_, fun q => (hprocOk q).sz_le,
    fun q => (hprocOk q).live, fun q => (hprocOk q).unused⟩, htr⟩
  have hq : q ≠ p := by
    rintro rfl
    exact hroot x hx
  rw [resetProc_other s hq]
  exact hsized q x hx

/-- The trapframe of `p` is gone, and nothing else. -/
structure TrapframeFreed (own own' : Nat → Owner) (s s' : Kernel) (p : ProcId) : Prop where
  procs : s'.procs = Function.update s.procs p { s.procs p with trapframe := none }
  rest : s' = { s with procs := s'.procs, freelist := s'.freelist, mem := s'.mem }
  roots : SameRoots own own'
  owner : ∀ x, own' x = own x ∨ own' x = .free
  kernel : ∀ x, own' x = .kernel ↔ own x = .kernel
  flat : ∀ r v, IsTable own r → v < UPAGES → flat s' r v = flat s r v
  tracked : Tracked own s.frameTable → Tracked own' s'.frameTable

theorem freeTrapframe_frees (h : Wf own lim s) (p : ProcId) :
    ∃ s' own', freeTrapframe s p = .ok s' ∧ Wf own' lim s' ∧ TrapframeFreed own own' s s' p := by
  obtain ⟨s', own', hfree, hwf, howner, hprocs, hrest, hmem⟩ := freeTrapframe_spec h p
  refine ⟨s', own', hfree, hwf, hprocs, hrest, fun q x => ?_, fun x => ?_, fun x => ?_, fun r v hr hv => ?_,
    fun ht x hx => ?_⟩
  · rcases howner x with hc | ⟨hc, hc'⟩
    · rw [hc]
      exact ⟨Iff.rfl, Iff.rfl⟩
    · simp [hc, hc']
  · exact (howner x).imp_right And.right
  · rcases howner x with hc | ⟨hc, hc'⟩
    · rw [hc]
    · simp [hc, hc']
  · refine flat_congr (pte_of_tables (by rw [hrest]) r v) (fun y hy => hmem y ?_)
      (fun _ _ => by rw [hrest]) (h.pages.userEntry hr hv)
    -- a user page is no trapframe
    refine (howner y).resolve_right fun hc => ?_
    cases (h.pages.own_user hr hv hy).symm.trans hc.1
  · rw [hrest]
    rcases howner x with hc | ⟨-, hc⟩
    · exact ht x (by rwa [hc] at hx)
    · simp [hc] at hx

/-- The root `r`, with nothing left in it, is freed. -/
def giveRootBack (s : Kernel) (r : Nat) : Kernel :=
  { setPage s r (fun _ => 1) with freelist := r :: s.freelist }

theorem TableEmptied.giveRootBack {own₀ : Nat → Owner} {s₀ : Kernel} (h : TableEmptied own₀ own lim s₀ s r)
    (hr : own r = .root p) :
    Wf (Function.update own r .free) lim (clearProc (giveRootBack s r) p) := by
  refine h.wf.giveRoot ⟨p, Or.inl hr⟩ h.pte h.l1 h.l0 rfl rfl rfl rfl rfl rfl (fun q x => ?_) fun q => ?_
  · by_cases hq : q = p
    · subst hq
      have hpt := h.wf.pages.pagetable hr
      simp [clearProc, setProc, hpt, eq_comm]
    · rw [clearProc_other _ hq]
      refine ⟨fun hx => ⟨hx, fun hxr => hq ?_⟩, And.left⟩
      have hx' := h.wf.pages.own_root hx
      rw [hxr, hr] at hx'
      cases hx'
      rfl
  · by_cases hq : q = p
    · subst hq
      simp [clearProc, setProc, Vm.giveRootBack, setPage]
    · rw [clearProc_other _ hq]
      rfl

theorem root_giveRootBack (h : Pages own lim s) (hr : own r = .root p) (q : ProcId) (x : Nat) :
    Function.update own r .free x = .root q ↔ own x = .root q ∧ q ≠ p := by
  by_cases hx : x = r
  · subst hx
    simp only [Function.update_self, hr, reduceCtorEq, false_iff, not_and, not_not]
    intro hq
    cases hq
    rfl
  · rw [Function.update_of_ne hx]
    refine ⟨fun hq => ⟨hq, fun hqp => hx ?_⟩, And.left⟩
    exact h.root_unique hr (hqp ▸ hq)

theorem owner_giveRootBack (own : Nat → Owner) (r x : Nat) :
    Function.update own r .free x = own x ∨ Function.update own r .free x = .free := by
  by_cases hx : x = r
  · exact Or.inr (hx ▸ Function.update_self ..)
  · exact Or.inl (Function.update_of_ne hx ..)

theorem kernel_giveRootBack (hr : own r = .root p) (x : Nat) :
    Function.update own r .free x = .kernel ↔ own x = .kernel := by
  by_cases hx : x = r
  · subst hx
    simp [hr]
  · rw [Function.update_of_ne hx]

/-- The pages of the other tables are not the root. -/
theorem flat_giveRootBack (h : Pages own lim s) (hr : own r = .root p) {x : Nat} (hx : IsTable own x)
    (hv : v < UPAGES) : flat (resetProc (giveRootBack s r) p) x v = flat s x v := by
  refine flat_congr rfl (fun y hy => ?_) (fun _ _ => rfl) (h.userEntry hx hv)
  have hne : y ≠ r := by
    rintro rfl
    cases hr.symm.trans (h.own_user hx hv hy)
  exact Function.update_of_ne hne ..

theorem tracked_giveRootBack (ht : Tracked own s.frameTable) (r : Nat) :
    Tracked (Function.update own r .free) s.frameTable := by
  intro x hx
  have hxr : x ≠ r := by
    rintro rfl
    simp at hx
  exact ht x (by rwa [Function.update_of_ne hxr] at hx)

/-- **`freeproc`** of a process with a page table: the trapframe, what the table holds, its root, and
then the fields. -/
theorem freeproc_spec (h : Settled own lim s) (hr : own r = .root p) :
    ∃ s' own', freeproc s p = .ok s' ∧ Settled own' lim s' ∧ ProcFreed own own' s s' p := by
  have hpt := h.wf.pages.pagetable hr
  obtain ⟨s₁, own₁, h₁, hwf₁, htf⟩ := freeTrapframe_frees h.wf p
  have hr₁ : IsTable own₁ r := (htf.roots.isTable r).mpr ⟨p, Or.inl hr⟩
  have hproc₁ : s₁.procs p = { s.procs p with trapframe := none } := by
    rw [htf.procs, Function.update_self]
  obtain ⟨s₂, own₂, h₂, he⟩ := procFreepagetable_spec hwf₁ hr₁ (h.sz_le p) (h.sized p r hr).le
  have hr₂ : own₂ r = .root p := (he.keeps.roots p r).1.mpr ((htf.roots p r).1.mpr hr)
  have h₃ : kfree s₂ r = .ok (giveRootBack s₂ r) := kfree_eq (he.wf.pages.range r (by simp [hr₂]))
  have hrun : freeproc s p = .ok (resetProc (giveRootBack s₂ r) p) := by
    simp only [freeproc, h₁, ok_bind, hproc₁, hpt, h₂, h₃]
    rfl
  let own₃ := Function.update own₂ r .free
  have howner : ∀ x, own₃ x = own x ∨ own₃ x = .free := by
    intro x
    rcases owner_giveRootBack own₂ r x with hc | hc
    · rcases he.owner x with hc₂ | hc₂
      · exact (htf.owner x).imp (hc.trans hc₂).trans (hc.trans hc₂).trans
      · exact Or.inr (hc.trans hc₂)
    · exact Or.inr hc
  have hroot : ∀ q x, own₃ x = .root q ↔ own x = .root q ∧ q ≠ p := by
    intro q x
    rw [root_giveRootBack he.wf.pages hr₂ q x, (he.keeps.roots q x).1, (htf.roots q x).1]
  have hident : ∀ q, q ≠ p → ((giveRootBack s₂ r).procs q).ident = (s.procs q).ident := by
    intro q hq
    rw [← Function.update_of_ne hq _ s.procs, ← htf.procs]
    exact he.keeps.procs.ident q
  have hheld : NoHeld own₃ := fun x q a hx => (howner x).elim
    (fun hc => h.noHeld x q a (hc.symm.trans hx)) fun hc => by cases hc.symm.trans hx
  have hnew : NoNew own₃ := fun x q hx => (howner x).elim
    (fun hc => h.noNew x q (hc.symm.trans hx)) fun hc => by cases hc.symm.trans hx
  have htf₃ : ((giveRootBack s₂ r).procs p).trapframe = none := by
    change (s₂.procs p).trapframe = none
    rw [he.keeps.procs.trapframe, hproc₁]
  obtain ⟨hset, htr⟩ := resetProc_spec (he.giveRootBack hr₂) hheld hnew
    (fun x hx => ((hroot p x).mp hx).2 rfl) htf₃
    (fun q x hx => by
      obtain ⟨hx, hq⟩ := (hroot q x).mp hx
      rw [ident_sz (hident q hq)]
      exact h.sized q x hx) fun q hq => (h.procOk q).congr (hident q hq)
  refine ⟨resetProc (giveRootBack s₂ r) p, own₃, hrun, hset, ⟨?_, ?_, ?_, ?_, fun q hq => ?_, ?_, hroot, howner,
    fun x => ?_, fun q x v hx hq hv => ?_, ?_, ?_, fun ht => ?_⟩⟩
  · exact he.keeps.procs.kend.trans (by rw [htf.rest])
  · exact he.keeps.procs.trampoline.trans (by rw [htf.rest])
  · exact he.keeps.procs.initproc.trans (by rw [htf.rest])
  · exact he.keeps.procs.nextpid.trans (by rw [htf.rest])
  · rw [resetProc_other _ hq]
    exact hident q hq
  · simp [resetProc, setProc]
  · rw [kernel_giveRootBack hr₂, he.keeps.kernel, htf.kernel]
  · have hxr : x ≠ r := by
      rintro rfl
      cases hr.symm.trans hx
      exact hq rfl
    have hx₀ : IsTable own x := ⟨q, Or.inl hx⟩
    have hx₁ : IsTable own₁ x := (htf.roots.isTable x).mpr hx₀
    rw [flat_giveRootBack he.wf.pages hr₂ ((he.keeps.roots.isTable x).mpr hx₁) hv,
      he.keeps.flat x v hx₁ hv hxr, htf.flat x v hx₀ hv]
  · exact he.nulls.trans (by rw [htf.rest])
  · exact he.fulls.trans (by rw [htf.rest])
  · exact htr (tracked_giveRootBack (he.keeps.tracked he.nulls he.fulls (htf.tracked ht)) r)

/-! ### Freeing does not allocate -/

/-- No allocation has failed in between. -/
def SameCounts (s s' : Kernel) : Prop :=
  s'.nullAllocs = s.nullAllocs ∧ s'.swapFulls = s.swapFulls

theorem SameCounts.refl (s : Kernel) : SameCounts s s := ⟨rfl, rfl⟩

theorem SameCounts.trans {s₁ s₂ s₃ : Kernel} (h : SameCounts s₁ s₂) (h' : SameCounts s₂ s₃) :
    SameCounts s₁ s₃ := ⟨h'.1.trans h.1, h'.2.trans h.2⟩

theorem kfree_counts (h : kfree s pa = .ok s') : SameCounts s s' := by
  unfold kfree at h
  split at h
  · cases h
  · cases h
    exact ⟨rfl, rfl⟩

theorem uvmunmapPage_counts {doFree : Bool} {a : Nat} (h : uvmunmapPage s r doFree a = .ok s') :
    SameCounts s s' := by
  obtain ⟨o, -, h⟩ := bind_eq_ok.mp h
  cases o with
  | none =>
      cases h
      exact .refl s
  | some e =>
      dsimp only at h
      split at h
      · cases h
        exact ⟨rfl, rfl⟩
      · split at h
        · cases h
          exact .refl s
        · split at h
          · obtain ⟨s₁, h₁, h⟩ := bind_eq_ok.mp h
            cases h
            exact (SameCounts.trans ⟨rfl, rfl⟩ (kfree_counts h₁)).trans ⟨rfl, rfl⟩
          · cases h
            exact ⟨rfl, rfl⟩

theorem foldlM_counts {β : Type} {f : Kernel → β → Except String Kernel}
    (hf : ∀ s x s', f s x = .ok s' → SameCounts s s') {l : List β} (h : l.foldlM f s = .ok s') :
    SameCounts s s' :=
  foldlM_invariant (I := SameCounts s) (fun s₁ x s₂ h₁ h₂ => h₁.trans (hf s₁ x s₂ h₂)) l s s'
    (.refl s) h

theorem uvmunmap_counts {va n : Nat} {doFree : Bool} (h : uvmunmap s r va n doFree = .ok s') :
    SameCounts s s' := by
  unfold uvmunmap at h
  split at h
  · cases h
  · exact foldlM_counts (fun _ _ _ h => uvmunmapPage_counts h) h

theorem freewalkEntry0_counts (h : freewalkEntry0 r s k = .ok s') : SameCounts s s' := by
  unfold freewalkEntry0 at h
  split at h
  · cases h
    exact .refl s
  · obtain ⟨s₁, h₁, h⟩ := bind_eq_ok.mp h
    cases h
    unfold freewalkL0 at h₁
    split at h₁
    · cases h₁
    · exact (kfree_counts h₁).trans ⟨rfl, rfl⟩

theorem freewalkEntry1_counts (h : freewalkEntry1 r s k = .ok s') : SameCounts s s' := by
  unfold freewalkEntry1 at h
  split at h
  · cases h
    exact .refl s
  · obtain ⟨s₁, h₁, h⟩ := bind_eq_ok.mp h
    cases h
    obtain ⟨s₂, h₂, h₁⟩ := bind_eq_ok.mp h₁
    exact ((foldlM_counts (fun _ _ _ h => freewalkEntry0_counts h) h₂).trans
      (kfree_counts h₁)).trans ⟨rfl, rfl⟩

theorem freewalk_counts (h : freewalk s r = .ok s') : SameCounts s s' := by
  obtain ⟨s₁, h₁, h⟩ := bind_eq_ok.mp h
  exact (foldlM_counts (fun _ _ _ h => freewalkEntry1_counts h) h₁).trans (kfree_counts h)

theorem uvmfree_counts {sz : Nat} (h : uvmfree s r sz = .ok s') : SameCounts s s' := by
  simp only [uvmfree, pure_eq_ok, ok_bind] at h
  split at h
  · obtain ⟨s₁, h₁, h⟩ := bind_eq_ok.mp h
    exact (uvmunmap_counts h₁).trans (freewalk_counts h)
  · exact freewalk_counts h

theorem procFreepagetable_counts {sz : Nat} (h : procFreepagetable s r sz = .ok s') :
    SameCounts s s' := by
  obtain ⟨s₁, h₁, h⟩ := bind_eq_ok.mp h
  obtain ⟨s₂, h₂, h⟩ := bind_eq_ok.mp h
  exact ((uvmunmap_counts h₁).trans (uvmunmap_counts h₂)).trans (uvmfree_counts h)

theorem freeTrapframe_counts (h : freeTrapframe s p = .ok s') : SameCounts s s' := by
  simp only [freeTrapframe] at h
  split at h
  · cases h
    exact ⟨rfl, rfl⟩
  · obtain ⟨s₁, h₁, h⟩ := bind_eq_ok.mp h
    cases h
    exact (kfree_counts h₁).trans ⟨rfl, rfl⟩

theorem freeproc_counts (h : freeproc s p = .ok s') : SameCounts s s' := by
  obtain ⟨s₁, h₁, h⟩ := bind_eq_ok.mp h
  dsimp only at h
  split at h
  · cases h
    exact (freeTrapframe_counts h₁).trans ⟨rfl, rfl⟩
  · obtain ⟨s₂, h₂, h⟩ := bind_eq_ok.mp h
    cases h
    exact ((freeTrapframe_counts h₁).trans (procFreepagetable_counts h₂)).trans ⟨rfl, rfl⟩

end Xv6.Vm
