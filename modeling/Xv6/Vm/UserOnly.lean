import Xv6.Vm.Room

/-!
# Vm — User pages only

Which pages `copyin` and `copyout` touch on behalf of a process.

`uvmclear` takes a page away from user code, as `kexec` does for the guard page below the stack.
`walkaddr` does not give such a page; but its callers then turn to `vmfault`, which finds the page
valid, or swaps it in, and returns it (`fetchPage_spec`).  So a page of the process is read and
written whether or not it is for user code.

* `uvmclear_settled`: the guard page leaves the invariant alone.
* `Guarded`: something in the state before the call stops it ahead of every page that is not for user code.
* `user_only_iff`: `copyin` and `copyout` keep to user pages just then.
-/

namespace Xv6.Vm
open Xv6.Lib
open Xv6.Raid (Page zeroPage PGSIZE BLOCKS_PER_PAGE MAX_SWAP Healthy)

variable {own own' : Nat → Owner} {lim : Nat → Nat} {s s' : Kernel} {p q : ProcId}
  {r v pa va : Nat}

/-! ### Guard pages -/

def uvmclear (s : Kernel) (r va : Nat) : Except String Kernel := do
  match ← walk s r va with
  | none => .error "uvmclear"
  | some e => return setPte s r (va / PGSIZE) (e &&& ~~~PTE_U)

theorem clear_flag (e : Pte) {i : Nat} (hi : i < 64) (hne : i ≠ 4) :
    (e &&& ~~~PTE_U).getLsbD i = e.getLsbD i := by
  have hbit : PTE_U.getLsbD i = false := by
    have htwo : PTE_U = BitVec.twoPow 64 4 := by decide
    rw [htwo, BitVec.getLsbD_twoPow]
    simp only [decide_eq_false (Ne.symm hne), Bool.and_false]
  rw [BitVec.getLsbD_and, BitVec.getLsbD_not, hbit, decide_eq_true hi]
  simp only [Bool.not_false, Bool.and_true]

theorem Resident.clear {e : Pte} (h : Resident e pa) : Resident (e &&& ~~~PTE_U) pa := by
  refine ⟨?_, ?_, ?_⟩
  · rw [has_V, clear_flag e (by decide) (by decide), ← has_V]
    exact h.valid
  · rw [has_SWAPPED, clear_flag e (by decide) (by decide), ← has_SWAPPED]
    exact h.not_swapped
  · rw [pte2Pa_eq, above_and_not e PTE_U (by decide), ← pte2Pa_eq]
    exact h.pa_eq

/-- Another entry for the page that is mapped already. -/
theorem Pages.remap {e : Pte} (h : Pages own lim s) (hr : IsTable own r) (hv : v < UPAGES)
    (hold : Resident (s.pte r v) pa) (he : Resident e pa) : Pages own lim (setPte s r v e) := by
  have htab := h.table r hr
  refine h.shift (.refl own) ⟨rfl, rfl, rfl, rfl, fun _ => rfl⟩ (fun r' _ => setPte_l1 ..)
    (fun r' _ => setPte_l0 ..) h.free h.nodup ?_ (h.table_setPte hv rfl (fun _ => ?_)
      (fun _ => htab.pte_l0 v hold.not_zero) (Or.inr (Or.inl ⟨pa, he⟩)))
  · refine fun k x => (h.user k x).trans ?_
    simp only [pte_setPte]
    by_cases hk : k.1 = r ∧ k.2 = v
    · rw [if_pos hk, hk.1, hk.2]
      have hsame : Resident (s.pte r v) x ↔ Resident e x :=
        ⟨fun hx => hold.pa_eq.symm.trans hx.pa_eq ▸ he, fun hx => he.pa_eq.symm.trans hx.pa_eq ▸ hold⟩
      rw [hsame]
    · rw [if_neg hk]
  · by_contra hlim
    exact hold.not_zero (htab.above v (not_lt.mp hlim) hv)

/-- **`uvmclear`** of a page in memory keeps the invariant. -/
theorem uvmclear_settled (h : Settled own lim s) (hr : IsTable own r) (hv : va / PGSIZE < UPAGES)
    (hres : Resident (s.pte r (va / PGSIZE)) pa) :
    ∃ s', uvmclear s r va = .ok s' ∧ Settled own lim s' ∧
      s'.pte r (va / PGSIZE) = s.pte r (va / PGSIZE) &&& ~~~PTE_U := by
  have hwalk := walk_resident h.wf.pages hr rfl hres hv
  refine ⟨setPte s r (va / PGSIZE) (s.pte r (va / PGSIZE) &&& ~~~PTE_U), ?_,
    ⟨⟨h.wf.pages.remap hr hv hres hres.clear, h.wf.frames, ?_, h.wf.raid, h.wf.kend_pos⟩,
      h.noHeld, h.noNew, h.sized, h.sz_le, h.live, h.unused⟩, ?_⟩
  · simp only [uvmclear, hwalk, ok_bind]
    rfl
  · exact h.wf.slots.unswap (.refl own) rfl (fun _ => hres.clear.not_Swapped) (fun _ _ => rfl) hr hv
  · rw [pte_setPte, if_pos ⟨rfl, rfl⟩]

theorem uvmclear_coherent (h : Coherent s) (hr : (s.procs p).pagetable = some r)
    (hv : va / PGSIZE < UPAGES) (hval : (s.pte r (va / PGSIZE)).has PTE_V = true) (d : Kernel) :
    Coherent ((uvmclear s r va).toOption.getD d) := by
  obtain ⟨own, lim, h⟩ := h
  have htab : IsTable own r := ⟨p, Or.inl (h.wf.pages.own_root hr)⟩
  obtain ⟨s', hrun, hset, -⟩ :=
    uvmclear_settled h htab hv ((h.wf.pages.table r htab).resident_of hv hval)
  rw [hrun]
  exact ⟨own, lim, hset⟩

/-! ### Calls that keep to user pages -/

/-- Page `v` is one of the process that its user code may use, in memory or not. -/
def ForUser (m : FlatProc) (v : Nat) : Prop := v < npages m.sz ∧ (m.perm v).has PTE_U = true

instance (m : FlatProc) (v : Nat) : Decidable (ForUser m v) := inferInstanceAs (Decidable (_ ∧ _))

/-- A call for the `len` bytes at `va` has moved `k` of them; all were in user pages, and the result
is -1 when the range has another page. -/
def UserOnly (m : FlatProc) (va len k : Nat) (ok : Bool) : Prop :=
  (∀ i, i < k → ForUser m ((va + i) / PGSIZE)) ∧
    ((∃ i, i < len ∧ ¬ ForUser m ((va + i) / PGSIZE)) → ok = false)

/-- Every page of the range that is below the size and not for user code is out of the call's reach: it
comes after a page that does not satisfy `W`, or is one, or there is no room for it or for one before it. -/
def Guarded (s : Kernel) (p : ProcId) (r : Nat) (W : Pte → Bool) (va len : Nat) : Prop :=
  ∀ i, i < len → (va + i) / PGSIZE < npages (flatMem s p).sz →
    ((flatMem s p).perm ((va + i) / PGSIZE)).has PTE_U = false →
    (∃ j, j ≤ i ∧ W ((flatMem s p).perm ((va + j) / PGSIZE)) = false) ∨ ¬ RoomTo p r va i s

section UserOnly

variable {W : Pte → Bool} {denied : Prop} {len k : Nat} {ok : Bool}

theorem Guarded.userOnly (hm : Moved (flatMem s p) W denied va len k ok)
    (hh : Housed (flatMem s p) W p r va k ok s) (hg : Guarded s p r W va len) :
    UserOnly (flatMem s p) va len k ok := by
  have hmoved : ∀ i, i < k → ForUser (flatMem s p) ((va + i) / PGSIZE) := by
    intro i hi
    refine ⟨(hm.pages i hi).1, ?_⟩
    by_contra hu
    rcases hg i (hi.trans_le hm.le) (hm.pages i hi).1 (Bool.not_eq_true _ ▸ hu) with ⟨j, hj, hW⟩ | hroom
    · cases hW.symm.trans (hm.pages j (hj.trans_lt hi)).2
    · exact hroom (hh.moved i hi)
  refine ⟨hmoved, fun hother => ?_⟩
  obtain ⟨i, hi, hnot⟩ := hother
  rw [← Bool.not_eq_true]
  exact fun hok => hnot (hmoved i (hm.done hok ▸ hi))

/-- A call reaches every page that nothing keeps it from. -/
theorem UserOnly.guarded (hm : Moved (flatMem s p) W denied va len k ok)
    (hh : Housed (flatMem s p) W p r va k ok s) (hu : UserOnly (flatMem s p) va len k ok) :
    Guarded s p r W va len := by
  intro i hi hsz hperm
  have hki : k ≤ i := by
    by_contra hlt
    cases hperm.symm.trans (hu.1 i (not_le.mp hlt)).2
  have hok : ok = false := by
    rw [← Bool.not_eq_true]
    exact fun hok => absurd hi (not_lt.mpr (hm.done hok ▸ hki))
  -- the call has stopped at the page of byte `k`, which is not past that of byte `i`
  have hpage : (va + k) / PGSIZE < npages (flatMem s p).sz :=
    (Nat.div_le_div_right (Nat.add_le_add_left hki va)).trans_lt hsz
  cases hW : W ((flatMem s p).perm ((va + k) / PGSIZE)) with
  | false => exact Or.inl ⟨k, hki, hW⟩
  | true => exact Or.inr fun hroom => hh.stop hok hpage hW (hroom.of_le hki)

end UserOnly

/-- **`copyin` and `copyout` keep to user pages** just when the state before the call guards the others:
each page of the range that is not for user code, or one before it, finds no room, or for `copyout` is not to
be written. -/
theorem user_only_iff (h : Coherent s) (hr : (s.procs p).pagetable = some r) :
    (∀ srcva len, ∃ ok bytes s', copyin s p r srcva len = .ok ((ok, bytes), s') ∧
      (UserOnly (flatMem s p) srcva len bytes.length ok ↔ Guarded s p r (fun _ => true) srcva len)) ∧
    (∀ dstva src, ∃ ok k s', copyoutRun p r (src.length + 1) s dstva src = .ok ((ok, k), s') ∧
      copyout s p r dstva src = .ok (ok, s') ∧
      (UserOnly (flatMem s p) dstva src.length k ok ↔
        Guarded s p r (fun e => e.has PTE_W) dstva src.length)) := by
  obtain ⟨own, lim, hset⟩ := h
  have hroot := hset.wf.pages.own_root hr
  constructor
  · intro srcva len
    obtain ⟨ok, k, s', own', hrun, -, -, hmoved⟩ :=
      copyinLoop_spec (len + 1) own s srcva len (Nat.lt_succ_self _) hset hroot
    have hhoused := copyinLoop_room _ _ _ _ _ (Nat.lt_succ_self _) hset hroot _ _ _ hrun
    refine ⟨ok, _, s', hrun, ?_⟩
    rw [FlatProc.length_read] at hhoused ⊢
    exact ⟨UserOnly.guarded hmoved hhoused, Guarded.userOnly hmoved hhoused⟩
  · intro dstva src
    obtain ⟨ok, k, s', own', hrun, hout⟩ :=
      copyoutRun_spec (src.length + 1) own s dstva src (Nat.lt_succ_self _) hset hroot
    have hhoused := copyoutRun_room _ _ _ _ _ (Nat.lt_succ_self _) hset hroot _ _ _ hrun
    refine ⟨ok, k, s', hrun, ?_, UserOnly.guarded hout.moved hhoused, Guarded.userOnly hout.moved hhoused⟩
    rw [copyout, copyoutLoop_eq, hrun]
    rfl

/-! ### The guard page below a stack -/

/-- The first process has a page for its stack, and one below it. -/
def stackKernel : Kernel := stateAfter (run memStep [.sbrk firstProc 8192 true] firstKernel) firstKernel

/-- `kexec` clears the page below the stack. -/
def guardKernel : Kernel := (uvmclear stackKernel lazyTable 0).toOption.getD stackKernel

theorem guardKernel_coherent : Coherent guardKernel :=
  uvmclear_coherent (p := firstProc)
    (coherent_after_run firstKernel_listed.coherent (by decide +kernel) firstKernel)
    (by decide +kernel) (by decide) (by decide +kernel) stackKernel

theorem guardTable_eq : (guardKernel.procs firstProc).pagetable = some lazyTable := by
  decide +kernel

/-- Another process has a page that is not there yet, below the guard page and the stack, and no page is
left. -/
def crampedKernel : Kernel :=
  (uvmclear (stateAfter (run memStep [.sbrk firstProc 4096 false, .sbrk firstProc 8192 true] (scarceFirst 8))
    (scarceFirst 8)) lazyTable 4096).toOption.getD (scarceFirst 8)

theorem crampedKernel_coherent : Coherent crampedKernel :=
  uvmclear_coherent (p := firstProc)
    (coherent_after_run (scarceFirst_exact (scarceKernel_fresh (by decide) (by decide)) (by decide +kernel)).1
      (by decide +kernel) (scarceFirst 8))
    (by decide +kernel) (by decide) (by decide +kernel) (scarceFirst 8)

/-- The stack is copied as it should be.  The cramped process is kept from its guard page, for want of the page
before it. -/
theorem user_only_stack : Coherent guardKernel ∧
    (guardKernel.procs firstProc).pagetable = some lazyTable ∧
    (∃ ok bytes s', copyin guardKernel firstProc lazyTable 4096 4096 = .ok ((ok, bytes), s') ∧
      UserOnly (flatMem guardKernel firstProc) 4096 4096 bytes.length ok) ∧
    Coherent crampedKernel ∧ (crampedKernel.procs firstProc).pagetable = some lazyTable ∧
    (∃ ok bytes s', copyin crampedKernel firstProc lazyTable 0 8192 = .ok ((ok, bytes), s') ∧
      UserOnly (flatMem crampedKernel firstProc) 0 8192 bytes.length ok) := by
  have hpt : (crampedKernel.procs firstProc).pagetable = some lazyTable := by decide +kernel
  refine ⟨guardKernel_coherent, guardTable_eq, ?_, crampedKernel_coherent, hpt, ?_⟩
  · obtain ⟨ok, bytes, s', hrun, huser⟩ := (user_only_iff guardKernel_coherent guardTable_eq).1 4096 4096
    refine ⟨ok, bytes, s', hrun, huser.mpr fun i hi _ hnot => ?_⟩
    have hpage : (4096 + i) / PGSIZE = 1 := by
      simp only [PGSIZE]
      omega
    rw [hpage] at hnot
    exact absurd hnot (by decide +kernel)
  · obtain ⟨ok, bytes, s', hrun, huser⟩ := (user_only_iff crampedKernel_coherent hpt).1 0 8192
    refine ⟨ok, bytes, s', hrun, huser.mpr fun i hi _ _ => Or.inr fun hroom => ?_⟩
    have hfirst : NoRoom crampedKernel lazyTable 0 := by decide +kernel
    exact (roomTo_first (turnLen_pos Nat.one_pos)).mp (hroom.of_le (Nat.zero_le i)) hfirst

/-- **The guard page is read and written** by system calls. -/
theorem guard_page_copied : Coherent guardKernel ∧
    (guardKernel.procs firstProc).pagetable = some lazyTable ∧
    (guardKernel.pte lazyTable 0).has PTE_U = false ∧
    ∃ s₁ s₂, copyin guardKernel firstProc lazyTable 0 1 = .ok ((true, [0]), s₁) ∧
      copyoutRun firstProc lazyTable 2 guardKernel 0 [7] = .ok ((true, 1), s₂) ∧
      ¬ UserOnly (flatMem guardKernel firstProc) 0 1 1 true := by
  obtain ⟨s₁, hin⟩ : ∃ s₁, copyin guardKernel firstProc lazyTable 0 1 = .ok ((true, [0]), s₁) :=
    eq_ok_of_result (by decide +kernel)
  obtain ⟨s₂, hout⟩ : ∃ s₂, copyoutRun firstProc lazyTable 2 guardKernel 0 [7] =
      .ok ((true, 1), s₂) := eq_ok_of_result (by decide +kernel)
  refine ⟨guardKernel_coherent, guardTable_eq, by decide +kernel, s₁, s₂, hin, hout, fun hu => ?_⟩
  exact absurd (hu.1 0 Nat.zero_lt_one) (by decide +kernel)

end Xv6.Vm
