import Xv6.Vm.UserOnly

/-!
# Vm — Progress

Page faults of user code that come again.

`usertrap` hands a fault to `vmfault` and returns to the instruction that faulted, unless the
result is 0.  `vmfault` makes the page valid, with the permissions that it has, and does not ask
whether they allow the access.

* `Settles`: the accesses that are allowed, or end in the process being killed.
* `endless`: any other access faults again and again.
* `fault_progress_iff`: a fault that is handled makes progress just when the access settles.
-/

namespace Xv6.Vm
open Xv6.Lib
open Xv6.Raid (Page zeroPage PGSIZE BLOCKS_PER_PAGE MAX_SWAP Healthy)

variable {own own' : Nat → Owner} {lim : Nat → Nat} {s s' : Kernel} {p q : ProcId}
  {r v pa va : Nat}

/-! ### Accesses and faults -/

/-- The accesses that fault with `scause` 12, 13 and 15. -/
inductive AccessKind where
  | fetch
  | load
  | store

def AccessKind.bit : AccessKind → Pte
  | .fetch => PTE_X
  | .load => PTE_R
  | .store => PTE_W

theorem AccessKind.perm_has (k : AccessKind) (e : Pte) : e.perm.has k.bit = e.has k.bit := by
  cases k with
  | fetch => exact Vm.perm_has e (n := 3) (by decide) (by decide)
  | load => exact Vm.perm_has e (n := 1) (by decide) (by decide)
  | store => exact Vm.perm_has e (n := 2) (by decide) (by decide)

/-- The entry lets user code do it. -/
def Permits (e : Pte) (k : AccessKind) : Prop :=
  e.has PTE_V = true ∧ e.has PTE_U = true ∧ e.has k.bit = true

inductive Attempt where
  | done
  | killed
  | faulting

/-- Up to `n` tries of one access: each goes through the page table, or to `usertrap` and `vmfault`
and back to the same instruction. -/
def attempts (p : ProcId) (r va : Nat) (k : AccessKind) :
    Nat → Kernel → Except String (Attempt × Kernel)
  | 0, s => .ok (.faulting, s)
  | n + 1, s =>
    match userPage s r va k.bit with
    | some _ => .ok (.done, s)
    | none => do
      let (res, s) ← vmfault s p r va
      if res = 0 then return (.killed, setProc s p { s.procs p with killed := true })
      else attempts p r va k n s

/-! ### Accesses that settle -/

/-- The page of `va` is one of the process, and its permissions allow the access. -/
def Allowed (s : Kernel) (p : ProcId) (r va : Nat) (k : AccessKind) : Prop :=
  pgRoundDown va < (s.procs p).sz ∧ (flat s r (va / PGSIZE)).2.has PTE_U = true ∧
    (flat s r (va / PGSIZE)).2.has k.bit = true

/-- The access is allowed, lies beyond the size, or finds no room for its page. -/
def Settles (s : Kernel) (p : ProcId) (r va : Nat) (k : AccessKind) : Prop :=
  Allowed s p r va k ∨ (s.procs p).sz ≤ pgRoundDown va ∨ NoRoom s r (va / PGSIZE)

instance (s : Kernel) (p : ProcId) (r va : Nat) (k : AccessKind) : Decidable (Allowed s p r va k) :=
  inferInstanceAs (Decidable (_ ∧ _))

instance (s : Kernel) (p : ProcId) (r va : Nat) (k : AccessKind) : Decidable (Settles s p r va k) :=
  inferInstanceAs (Decidable (_ ∨ _))

/-- A fault that `vmfault` has handled has made the access possible. -/
def FaultProgress (s : Kernel) (p : ProcId) (r va : Nat) (k : AccessKind) : Prop :=
  ∀ res s', vmfault s p r va = .ok (res, s') → res ≠ 0 → Permits (s'.pte r (va / PGSIZE)) k

/-- The tries of the access come to an end; when it is not allowed, the process is killed. -/
def AccessEnds (s : Kernel) (p : ProcId) (r va : Nat) (k : AccessKind) : Prop :=
  (∃ n s', attempts p r va k n s = .ok (.killed, s')) ∨
    (Allowed s p r va k ∧ ∃ n s', attempts p r va k n s = .ok (.done, s'))

/-- A resident page permits what flat memory allows. -/
theorem allowed_iff_permits {k : AccessKind} (hva : pgRoundDown va < (s.procs p).sz)
    (hres : Resident (s.pte r (va / PGSIZE)) pa) :
    Allowed s p r va k ↔ Permits (s.pte r (va / PGSIZE)) k := by
  simp only [Allowed, Permits, flat_resident hres, perm_has_U, k.perm_has, hres.valid, hva, true_and]

section Settles

variable {k : AccessKind} (h : Settled own lim s) (hr : own r = .root p)

include h hr

/-- User code gets only what is allowed. -/
theorem userPage_allowed (hsome : userPage s r va k.bit = some pa) : Allowed s p r va k := by
  have htab := h.wf.pages.table r ⟨p, Or.inl hr⟩
  have hmax : va < MAXVA := by
    by_contra hge
    simp only [userPage, walk, if_pos (not_lt.mp hge)] at hsome
    cases hsome
  rcases walk_eq htab hmax with hw | ⟨hw, -⟩
  · simp only [userPage, hw] at hsome
    split at hsome
    · next hbits =>
        simp only [Bool.and_eq_true] at hbits
        obtain ⟨⟨hval, huser⟩, hbit⟩ := hbits
        -- the trapframe and the trampoline are not for user code
        have hupage : va / PGSIZE < UPAGES := by
          by_contra hge
          rcases htab.top _ (not_lt.mp hge) with h0 | ⟨pa, -, hnot⟩
          · rw [Kernel.pte, h0] at huser
            cases huser
          · cases huser.symm.trans hnot
        obtain ⟨pa', -, -, hv, hres⟩ := walkaddr_accessible h hr ⟨hupage, hval, huser⟩
        exact (allowed_iff_permits (page_lt_npages.mpr hv) hres).mpr ⟨hval, huser, hbit⟩
    · cases hsome
  · simp only [userPage, hw] at hsome
    cases hsome

theorem userPage_permits (hva : pgRoundDown va < (s.procs p).sz)
    (hres : Resident (s.pte r (va / PGSIZE)) pa) (hper : Permits (s.pte r (va / PGSIZE)) k) :
    userPage s r va k.bit = some pa := by
  have hv : va / PGSIZE < UPAGES := (page_lt_npages.mp hva).trans_le (npages_le (h.sz_le p))
  have hwalk := walk_resident h.wf.pages ⟨p, Or.inl hr⟩ rfl hres hv
  simp only [userPage, hwalk, hper.1, hper.2.1, hper.2.2, hres.pa_eq, Bool.and_self, if_true]

/-- What a fault below the size comes to: no room, or the page in memory and flat memory as it
was. -/
theorem vmfault_settled (hva : pgRoundDown va < (s.procs p).sz) :
    ∃ res s' own', vmfault s p r va = .ok (res, s') ∧ (res = 0 ↔ NoRoom s r (va / PGSIZE)) ∧
      (res ≠ 0 → Settled own' lim s' ∧ own' r = .root p ∧ pgRoundDown va < (s'.procs p).sz ∧
        Resident (s'.pte r (va / PGSIZE)) res ∧ (Allowed s' p r va k ↔ Allowed s p r va k)) := by
  obtain ⟨res, s', own', hrun, hset, hf⟩ := vmfault_spec h hr hva
  have hv : va / PGSIZE < UPAGES := (page_lt_npages.mp hva).trans_le (npages_le (h.sz_le p))
  refine ⟨res, s', own', hrun, vmfault_zero_iff h hr hva hrun, fun hne => ⟨hset,
    (hf.keeps.roots p r).1.mpr hr, ?_, (hf.served hne).1, ?_⟩⟩
  · rwa [hf.keeps.procs.sz p]
  · rw [Allowed, Allowed, hf.keeps.flat r _ ⟨p, Or.inl hr⟩ hv id, hf.keeps.procs.sz p]

theorem progress_iff : FaultProgress s p r va k ↔ Settles s p r va k := by
  by_cases hva : pgRoundDown va < (s.procs p).sz
  · obtain ⟨res, s', own', hrun, hzero, hserved⟩ := vmfault_settled (k := k) h hr hva
    have hone : FaultProgress s p r va k ↔ (res ≠ 0 → Permits (s'.pte r (va / PGSIZE)) k) := by
      refine ⟨fun hp => hp res s' hrun, fun hp res₂ s₂ hrun₂ => ?_⟩
      cases hrun.symm.trans hrun₂
      exact hp
    by_cases h0 : res = 0
    · exact iff_of_true (hone.mpr fun hne => absurd h0 hne) (Or.inr (Or.inr (hzero.mp h0)))
    · obtain ⟨hset, hr', hva', hres, hallowed⟩ := hserved h0
      rw [hone, ← allowed_iff_permits hva' hres, hallowed]
      refine ⟨fun hp => Or.inl (hp h0), fun hs _ => ?_⟩
      rcases hs with ha | hsz | hno
      · exact ha
      · exact absurd hva (not_lt.mpr hsz)
      · exact absurd (hzero.mpr hno) h0
  · have hsz := not_lt.mp hva
    refine iff_of_true (fun res s' hrun hne => ?_) (Or.inr (Or.inl hsz))
    cases hrun.symm.trans (vmfault_above s p r hsz)
    exact absurd rfl hne

end Settles

/-- **An access that does not settle faults for ever.** -/
theorem endless {k : AccessKind} : ∀ (n : Nat) (own : Nat → Owner) (s : Kernel),
    Settled own lim s → own r = .root p → ¬ Settles s p r va k →
    ∃ s', attempts p r va k n s = .ok (.faulting, s') := by
  intro n
  induction n with
  | zero => exact fun _ s _ _ _ => ⟨s, rfl⟩
  | succ n ih =>
      intro own s h hr hnot
      have hva : pgRoundDown va < (s.procs p).sz := not_le.mp fun hsz => hnot (Or.inr (Or.inl hsz))
      have hnone : userPage s r va k.bit = none := by
        cases hu : userPage s r va k.bit with
        | none => rfl
        | some pa => exact absurd (Or.inl (userPage_allowed h hr hu)) hnot
      obtain ⟨res, s₁, own₁, hrun, hzero, hserved⟩ := vmfault_settled (k := k) h hr hva
      have h0 : res ≠ 0 := fun h0 => hnot (Or.inr (Or.inr (hzero.mp h0)))
      obtain ⟨hset₁, hr₁, hva₁, hres, hallowed⟩ := hserved h0
      -- the page is in memory now, and nothing else about the access has changed
      have hnot₁ : ¬ Settles s₁ p r va k := by
        rintro (ha | hsz | hno)
        · exact hnot (Or.inl (hallowed.mp ha))
        · exact absurd hva₁ (not_lt.mpr hsz)
        · cases hno.1.symm.trans hres.valid
      obtain ⟨s', hs'⟩ := ih own₁ s₁ hset₁ hr₁ hnot₁
      exact ⟨s', by simp only [attempts, hnone, hrun, ok_bind, if_neg h0, hs']⟩

section Ends

variable {k : AccessKind} (h : Settled own lim s) (hr : own r = .root p)

include h hr

theorem accessEnds_of_settles (hs : Settles s p r va k) : AccessEnds s p r va k := by
  cases hu : userPage s r va k.bit with
  | some pa =>
      refine Or.inr ⟨userPage_allowed h hr hu, 1, s, ?_⟩
      simp only [attempts, hu]
  | none =>
      by_cases hva : pgRoundDown va < (s.procs p).sz
      · obtain ⟨res, s₁, own₁, hrun, hzero, hserved⟩ := vmfault_settled (k := k) h hr hva
        by_cases h0 : res = 0
        · refine Or.inl ⟨1, setProc s₁ p { s₁.procs p with killed := true }, ?_⟩
          simp only [attempts, hu, hrun, ok_bind, if_pos h0]
          rfl
        · obtain ⟨hset₁, hr₁, hva₁, hres, hallowed⟩ := hserved h0
          have ha : Allowed s p r va k := by
            rcases hs with ha | hsz | hno
            · exact ha
            · exact absurd hva (not_lt.mpr hsz)
            · exact absurd (hzero.mpr hno) h0
          have hper := (allowed_iff_permits hva₁ hres).mp (hallowed.mpr ha)
          refine Or.inr ⟨ha, 2, s₁, ?_⟩
          simp only [attempts, hu, hrun, ok_bind, if_neg h0, userPage_permits hset₁ hr₁ hva₁ hres hper]
      · refine Or.inl ⟨1, setProc s p { s.procs p with killed := true }, ?_⟩
        simp only [attempts, hu, vmfault_above s p r (not_lt.mp hva), ok_bind, if_true]
        rfl

theorem accessEnds_iff : AccessEnds s p r va k ↔ Settles s p r va k := by
  refine ⟨fun hends => ?_, accessEnds_of_settles h hr⟩
  by_contra hnot
  rcases hends with ⟨n, s', hn⟩ | ⟨-, n, s', hn⟩
  · obtain ⟨s'', hn'⟩ := endless n own s h hr hnot
    cases hn.symm.trans hn'
  · obtain ⟨s'', hn'⟩ := endless n own s h hr hnot
    cases hn.symm.trans hn'

end Ends

/-- **A handled page fault makes progress**, and an access that is not allowed ends in the process
being killed, just when the access settles. -/
theorem fault_progress_iff (h : Coherent s) (hr : (s.procs p).pagetable = some r) (va : Nat)
    (k : AccessKind) :
    (FaultProgress s p r va k ∧ AccessEnds s p r va k) ↔ Settles s p r va k := by
  obtain ⟨own, lim, h⟩ := h
  have hroot := h.wf.pages.own_root hr
  rw [progress_iff h hroot, accessEnds_iff h hroot, and_self]

/-- A store to the stack above the guard page settles. -/
theorem fault_progress_stack : Coherent guardKernel ∧
    (guardKernel.procs firstProc).pagetable = some lazyTable ∧
    Settles guardKernel firstProc lazyTable 4096 .store ∧
    FaultProgress guardKernel firstProc lazyTable 4096 .store ∧
    AccessEnds guardKernel firstProc lazyTable 4096 .store := by
  have hs : Settles guardKernel firstProc lazyTable 4096 .store := Or.inl (by decide +kernel)
  exact ⟨guardKernel_coherent, guardTable_eq, hs,
    (fault_progress_iff guardKernel_coherent guardTable_eq 4096 .store).mpr hs⟩

/-- **A load from the guard page faults for ever**: `vmfault` returns the page each time. -/
theorem guard_page_faults_forever : Coherent guardKernel ∧
    (guardKernel.procs firstProc).pagetable = some lazyTable ∧
    (guardKernel.pte lazyTable 0).has PTE_U = false ∧
    ¬ FaultProgress guardKernel firstProc lazyTable 0 .load ∧
    ∀ n, ∃ s', attempts firstProc lazyTable 0 .load n guardKernel = .ok (.faulting, s') := by
  have hnot : ¬ Settles guardKernel firstProc lazyTable 0 .load := by decide +kernel
  obtain ⟨own, lim, h⟩ := guardKernel_coherent
  have hroot := h.wf.pages.own_root guardTable_eq
  exact ⟨guardKernel_coherent, guardTable_eq, by decide +kernel,
    fun hp => hnot ((progress_iff h hroot).mp hp), fun n => endless n own guardKernel h hroot hnot⟩

end Xv6.Vm
