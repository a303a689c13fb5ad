import Xv6.Vm.Spawn

/-!
# Vm — Boot

The kernel at boot: `kinit`, `swap_init`, `procinit` and `userinit`.

* `Fresh`: the free list is in order, and no process, frame or table is in use.
* `Fresh.settled`: such a kernel satisfies the invariant, and its frame table lists every resident
  page, there being none.
* `boot_fresh`: the kernel is fresh when it has booted, however many pages it keeps for itself.
* `userinit_listed`: and the invariant holds when the first process has been made.
-/

namespace Xv6.Vm
open Xv6.Lib
open Xv6.Raid (Page zeroPage PGSIZE BLOCKS_PER_PAGE MAX_SWAP Healthy)

variable {own own' : Nat → Owner} {lim : Nat → Nat} {s s' : Kernel} {p q : ProcId}
  {r v pa va : Nat}

/-! ### Booting -/

def firstProc : ProcId := ⟨0, Nat.zero_lt_succ 63⟩

def secondProc : ProcId := ⟨1, Nat.succ_lt_succ (Nat.zero_lt_succ 62)⟩

/-- A `struct proc` of zeros. -/
def zeroProc : Proc where
  state := .unused
  chan := none
  killed := false
  xstate := 0
  pid := 0
  parent := none
  sz := 0
  pagetable := none
  trapframe := none
  regs := ⟨0, 0, 0, 0, fun _ => 0⟩
  name := []
  pageFaults := 0
  pagesEvicted := 0
  pagesSwappedIn := 0
  pagesSwappedOut := 0
  residentPages := 0
  diskReads := 0
  diskWrites := 0
  totalDiskLatency := 0
  diskOps := 0

def zeroFrame : FrameEntry := ⟨false, none, 0, 0, false, 0⟩

def zeroSlot : SwapSlot := ⟨false, none, 0, 0⟩

/-- The kernel's data as the loader leaves it. -/
def loadedKernel (kend trampoline : Nat) (mem : Nat → Page) : Kernel where
  kend := kend
  trampoline := trampoline
  freelist := []
  mem := mem
  tables := fun _ => emptyTable
  procs := fun _ => zeroProc
  initproc := firstProc
  nextpid := 1
  frameTable := fun _ => zeroFrame
  clockHand := ⟨0, Nat.zero_lt_succ 31⟩
  swapSpace := fun _ => zeroSlot
  swapHead := 0
  raid := Raid.bootState
  nullAllocs := 0
  swapFulls := 0

/-- The loop of `freerange`, with the number of pages left. -/
def freerangeLoop : Nat → Kernel → Nat → Except String Kernel
  | 0, s, _ => .ok s
  | n + 1, s, pa => do
    let s ← kfree s pa
    freerangeLoop n s (pa + PGSIZE)

def freerange (s : Kernel) (paStart paEnd : Nat) : Except String Kernel :=
  freerangeLoop ((paEnd - pgRoundUp paStart) / PGSIZE) s (pgRoundUp paStart)

def kinit (s : Kernel) : Except String Kernel := do
  let s ← freerange s s.kend PHYSTOP
  return { s with frameTable := fun _ => zeroFrame }

def swapInit (s : Kernel) : Kernel :=
  { s with
    raid := Raid.raidInit s.raid,
    swapSpace := fun i => if i < MAX_SWAP then zeroSlot else s.swapSpace i }

/-- Pages that the kernel takes for good: its page table, its stacks, the disk's queues. -/
def keepPages : Nat → Kernel → Kernel
  | 0, s => s
  | n + 1, s => keepPages n (kalloc s).2

def procinit (s : Kernel) : Kernel :=
  { s with procs := fun p => { s.procs p with state := .unused } }

/-- `main` up to `userinit`, where the kernel keeps `n` pages. -/
def boot (kend trampoline : Nat) (mem : Nat → Page) (n : Nat) : Except String Kernel := do
  let s ← kinit (loadedKernel kend trampoline mem)
  return procinit (keepPages n (swapInit s))

/-! ### The invariant at boot -/

/-- No process, frame or table is in use. -/
structure Fresh (s : Kernel) : Prop where
  free : ∀ pa, pa ∈ s.freelist → pa % PGSIZE = 0 ∧ s.kend ≤ pa ∧ pa < PHYSTOP
  nodup : s.freelist.Nodup
  procs : ∀ p, (s.procs p).state = .unused ∧ (s.procs p).pagetable = none ∧
    (s.procs p).trapframe = none ∧ (s.procs p).sz = 0
  frames : ∀ i, (s.frameTable i).used = false
  raid : Healthy s.raid
  kend_pos : 0 < s.kend

/-- The kernel between operations, as the invariant has it. -/
def Coherent (s : Kernel) : Prop := ∃ own lim, Settled own lim s

/-- And the frame table lists every resident user page. -/
def Listed (s : Kernel) : Prop := ∃ own lim, Settled own lim s ∧ Tracked own s.frameTable

theorem Listed.coherent (h : Listed s) : Coherent s := by
  obtain ⟨own, lim, hset, -⟩ := h
  exact ⟨own, lim, hset⟩

/-- Every page is free or the kernel's. -/
def freshOwner (s : Kernel) (pa : Nat) : Owner := if pa ∈ s.freelist then .free else .kernel

theorem freshOwner_cases (s : Kernel) (pa : Nat) :
    freshOwner s pa = .free ∨ freshOwner s pa = .kernel := by
  unfold freshOwner
  split
  · exact Or.inl rfl
  · exact Or.inr rfl

theorem freshOwner_ne {o : Owner} (hf : o ≠ .free) (hk : o ≠ .kernel) : freshOwner s pa ≠ o := by
  intro he
  rcases freshOwner_cases s pa with h | h
  · exact hf (he.symm.trans h)
  · exact hk (he.symm.trans h)

theorem freshOwner_not_table (s : Kernel) (r : Nat) : ¬ IsTable (freshOwner s) r := by
  rintro ⟨q, h | h⟩
  · exact freshOwner_ne (by simp) (by simp) h
  · exact freshOwner_ne (by simp) (by simp) h

/-- **A fresh kernel satisfies the invariant.** -/
theorem Fresh.settled (h : Fresh s) :
    Settled (freshOwner s) (fun _ => 0) s ∧ Tracked (freshOwner s) s.frameTable := by
  have hnot := freshOwner_not_table s
  have hfree : ∀ pa, freshOwner s pa ≠ .kernel → pa ∈ s.freelist := by
    intro pa hpa
    by_contra hm
    exact hpa (if_neg hm)
  refine ⟨⟨⟨⟨fun pa hpa => h.free pa (hfree pa hpa), fun _ pa => ?_, h.nodup, fun q x => ?_,
    fun q x => ?_, fun k x => ?_, fun k x => ?_, fun k x => ?_, fun r hr => absurd hr (hnot r)⟩,
    ⟨fun i hi => ?_, fun i _ hi => ?_⟩, ⟨fun r _ _ hr => absurd hr (hnot r),
    fun r _ _ _ _ hr => absurd hr (hnot r)⟩, h.raid, h.kend_pos⟩, fun x q a => ?_, fun x q => ?_,
    fun q r hr => ?_, fun q => ?_, fun q => ?_, fun q _ => (h.procs q).2.2⟩, fun pa hpa => ?_⟩
  · refine ⟨fun ho => hfree pa ?_, fun hm => if_pos hm⟩
    rw [ho]
    simp [ownFree]
  · exact iff_of_false (freshOwner_ne (by simp) (by simp)) (by simp [(h.procs q).2.1])
  · exact iff_of_false (freshOwner_ne (by simp) (by simp)) (by simp [(h.procs q).2.2.1])
  · exact iff_of_false (freshOwner_ne (by simp [ownL1]) (by simp [ownL1])) fun hx => hnot _ hx.1
  · exact iff_of_false (freshOwner_ne (by simp [ownL0]) (by simp [ownL0])) fun hx => hnot _ hx.1
  · exact iff_of_false (freshOwner_ne (by simp [ownUser]) (by simp [ownUser])) fun hx => hnot _ hx.1
  · rw [h.frames i] at hi
    cases hi
  · rw [h.frames i] at hi
    cases hi
  · exact freshOwner_ne (by simp) (by simp)
  · exact freshOwner_ne (by simp) (by simp)
  · exact absurd hr (freshOwner_ne (by simp) (by simp))
  · rw [(h.procs q).2.2.2]
    exact Nat.zero_le _
  · exact iff_of_true (h.procs q).1 (h.procs q).2.1
  · rcases hpa with ⟨r, v, hu⟩ | ⟨q, a, hh⟩
    · exact absurd hu (freshOwner_ne (by simp) (by simp))
    · exact absurd hh (freshOwner_ne (by simp) (by simp))

theorem Fresh.listed (h : Fresh s) : Listed s := ⟨freshOwner s, fun _ => 0, h.settled⟩

/-! ### What booting does -/

theorem kfree_fresh (h : Fresh s) (hpa : pa ∉ s.freelist) (hrun : kfree s pa = .ok s') :
    Fresh s' ∧ s'.freelist = pa :: s.freelist := by
  by_cases hok : pa % PGSIZE = 0 ∧ s.kend ≤ pa ∧ pa < PHYSTOP
  · rw [kfree_eq hok] at hrun
    cases hrun
    refine ⟨⟨fun x hx => ?_, List.nodup_cons.mpr ⟨hpa, h.nodup⟩, h.procs, h.frames, h.raid,
      h.kend_pos⟩, rfl⟩
    rcases List.mem_cons.mp hx with rfl | hx
    · exact hok
    · exact h.free x hx
  · rw [kfree, if_pos (by omega)] at hrun
    cases hrun

/-- The pages freed so far lie below the next one. -/
theorem freerangeLoop_fresh : ∀ (n : Nat) (s : Kernel) (pa : Nat) (s' : Kernel), Fresh s →
    (∀ x, x ∈ s.freelist → x < pa) → freerangeLoop n s pa = .ok s' → Fresh s' := by
  intro n
  induction n with
  | zero =>
      intro s pa s' h _ hrun
      cases hrun
      exact h
  | succ n ih =>
      intro s pa s' h hlt hrun
      obtain ⟨s₁, h₁, hrun⟩ := bind_eq_ok.mp hrun
      obtain ⟨hfresh, hlist⟩ := kfree_fresh h (fun hm => (hlt pa hm).false) h₁
      refine ih s₁ (pa + PGSIZE) s' hfresh (fun x hx => ?_) hrun
      rw [hlist] at hx
      rcases List.mem_cons.mp hx with rfl | hx
      · exact Nat.lt_add_of_pos_right (by decide)
      · exact (hlt x hx).trans (Nat.lt_add_of_pos_right (by decide))

theorem keepPages_fresh : ∀ (n : Nat) (s : Kernel), Fresh s → Fresh (keepPages n s) := by
  intro n
  induction n with
  | zero => exact fun _ h => h
  | succ n ih =>
      intro s h
      refine ih _ ?_
      cases hfree : s.freelist with
      | nil =>
          rw [kalloc_nil hfree]
          exact ⟨h.free, h.nodup, h.procs, h.frames, h.raid, h.kend_pos⟩
      | cons pa rest =>
          rw [kalloc_cons hfree]
          have hnd := h.nodup
          rw [hfree] at hnd
          refine ⟨fun x hx => h.free x ?_, (List.nodup_cons.mp hnd).2, h.procs, h.frames, h.raid,
            h.kend_pos⟩
          rw [hfree]
          exact List.mem_cons_of_mem pa hx

/-- **The kernel that has booted is fresh.** -/
theorem boot_fresh {kend trampoline n : Nat} {mem : Nat → Page} (hk : 0 < kend)
    (h : boot kend trampoline mem n = .ok s) : Fresh s := by
  obtain ⟨s₁, h₁, h⟩ := bind_eq_ok.mp h
  obtain ⟨s₂, h₂, h₁⟩ := bind_eq_ok.mp h₁
  cases h
  cases h₁
  have hload : Fresh (loadedKernel kend trampoline mem) :=
    ⟨fun _ hx => absurd hx (List.not_mem_nil), List.nodup_nil, fun _ => ⟨rfl, rfl, rfl, rfl⟩,
      fun _ => rfl, fun _ _ => rfl, hk⟩
  have hfree : Fresh s₂ := freerangeLoop_fresh _ _ _ s₂ hload
    (fun _ hx => absurd hx (List.not_mem_nil)) h₂
  have hinit : Fresh (swapInit { s₂ with frameTable := fun _ => zeroFrame }) :=
    ⟨hfree.free, hfree.nodup, hfree.procs, fun _ => rfl, fun _ _ => rfl, hfree.kend_pos⟩
  have hkeep := keepPages_fresh n _ hinit
  exact ⟨hkeep.free, hkeep.nodup, fun q => ⟨rfl, (hkeep.procs q).2⟩, hkeep.frames, hkeep.raid,
    hkeep.kend_pos⟩

/-- **The invariant holds when the first process has been made.** -/
theorem userinit_listed (h : Listed s) (hrun : userinit s = .ok s') : Listed s' := by
  obtain ⟨own, lim, hset, htr⟩ := h
  obtain ⟨⟨res, s₁⟩, h₁, hrun⟩ := bind_eq_ok.mp hrun
  cases res with
  | none => cases hrun
  | some np =>
      cases hrun
      obtain ⟨own₁, lim₁, r, hset₁, hsp⟩ := (allocproc_spec hset h₁).2 np rfl
      refine ⟨own₁, lim₁, ?_, hsp.ext.tracked htr⟩
      let f := Function.update s₁.procs np { s₁.procs np with state := .runnable }
      have hf : ∀ q, (f q).pagetable = (s₁.procs q).pagetable ∧
          (f q).trapframe = (s₁.procs q).trapframe ∧ (f q).sz = (s₁.procs q).sz ∧
          ((f q).state = .unused ↔ (s₁.procs q).state = .unused) := by
        intro q
        by_cases hq : q = np
        · subst hq
          simp [f, hsp.state]
        · simp [f, hq]
      have hset₂ := hset₁.setProcs (fun q => (hf q).1) (fun q => (hf q).2.1)
        (fun q => (hf q).2.2.1) fun q => (hf q).2.2.2
      have hp := hset₂.wf.pages
      exact ⟨⟨⟨hp.range, hp.free, hp.nodup, hp.root, hp.trapframe, hp.l1, hp.l0, hp.user, hp.table⟩,
        hset₂.wf.frames, ⟨hset₂.wf.slots.ok, hset₂.wf.slots.inj⟩, hset₂.wf.raid,
        hset₂.wf.kend_pos⟩, hset₂.noHeld, hset₂.noNew, hset₂.sized, hset₂.sz_le, hset₂.live,
        hset₂.unused⟩

/-! ### A kernel to run -/

/-- A kernel that has booted, with 60 pages left. -/
def smallKernel : Kernel :=
  { loadedKernel 0x80050000 0x80007000 (fun _ => zeroPage) with
    freelist := (List.range 60).map fun i => 0x80100000 + PGSIZE * i }

theorem smallKernel_fresh : Fresh smallKernel :=
  ⟨by decide, by decide, fun _ => ⟨rfl, rfl, rfl, rfl⟩, fun _ => rfl, fun _ _ => rfl, by decide⟩

/-- The same with its first process. -/
def firstKernel : Kernel := (userinit smallKernel).toOption.getD smallKernel

theorem firstKernel_listed : Listed firstKernel :=
  userinit_listed smallKernel_fresh.listed (eq_ok_getD smallKernel (by decide +kernel))

end Xv6.Vm
