import Xv6.Lib.Owner
import Xv6.Vm.Kernel

/-!
# Vm — Inv

The invariant of the kernel's memory.

`own` gives every physical page its one owner; it is no part of the kernel's state, but a way to
say that the free list, the page tables, the trapframes and the user mappings name disjoint sets
of pages, each page once.  `lim r` bounds the user pages of table `r`.

* `Pages`: the owners are exactly those the kernel's data names, and each table is well formed.
* `Frames`: a used entry of the frame table is about a page that its process maps at the entry's
  address, or about a page still held by the allocation under way.
* `Slots`: a swapped entry names a used swap slot, and no other entry names it.
* `Wf`: all of them.
* `flat`: the contents and the permissions of a page, wherever it is kept.
-/

namespace Xv6.Vm
open Xv6.Lib
open Xv6.Raid (Page zeroPage PGSIZE BLOCKS_PER_PAGE MAX_SWAP Healthy)

/-! ### Owners -/

/-- The number of user pages below the trapframe. -/
abbrev UPAGES : Nat := TRAPFRAME / PGSIZE

/-- The owner of a physical page.  A table is `newRoot p` while `p` builds it, and the page
`kalloc_user(p, va)` has returned is `held p va` until it is mapped. -/
inductive Owner where
  | kernel
  | free
  | root (p : ProcId)
  | newRoot (p : ProcId)
  | l1 (r k : Nat)
  | l0 (r k : Nat)
  | trapframe (p : ProcId)
  | user (r v : Nat)
  | held (p : ProcId) (va : Nat)
  deriving DecidableEq

variable {own own' : Nat → Owner} {lim : Nat → Nat} {s s' : Kernel} {p q : ProcId} {r v pa : Nat}

/-- Table `r` belongs to process `p`. -/
def OwnsTable (own : Nat → Owner) (p : ProcId) (r : Nat) : Prop :=
  own r = .root p ∨ own r = .newRoot p

def IsTable (own : Nat → Owner) (r : Nat) : Prop := ∃ p, OwnsTable own p r

theorem OwnsTable.isTable (h : OwnsTable own p r) : IsTable own r := ⟨p, h⟩

/-- The kinds of owner, by key. -/
def ownFree : Unit → Owner := fun _ => .free
def ownL1 (k : Nat × Nat) : Owner := .l1 k.1 k.2
def ownL0 (k : Nat × Nat) : Owner := .l0 k.1 k.2
def ownUser (k : Nat × Nat) : Owner := .user k.1 k.2

/-! ### The parts of the invariant -/

/-- A page table whose user pages lie below `lim`. -/
structure TableOk (t : PageTable) (lim : Nat) : Prop where
  l1_lt : ∀ k, (t.l1 k).isSome → k < 256
  l0_l1 : ∀ k, (t.l0 k).isSome → (t.l1 (k / 512)).isSome
  pte_l0 : ∀ v, t.pte v ≠ 0 → (t.l0 (v / 512)).isSome
  shape : ∀ v, v < UPAGES → t.pte v = 0 ∨ (∃ pa, Resident (t.pte v) pa) ∨
    ∃ slot, Swapped (t.pte v) slot
  lim_le : lim ≤ UPAGES
  above : ∀ v, lim ≤ v → v < UPAGES → t.pte v = 0
  /-- the entries of the trapframe and the trampoline, which are not for user code -/
  top : ∀ v, UPAGES ≤ v → t.pte v = 0 ∨
    ∃ pa, Resident (t.pte v) pa ∧ (t.pte v).has PTE_U = false

/-- Every page has the owner that the kernel's data gives it. -/
structure Pages (own : Nat → Owner) (lim : Nat → Nat) (s : Kernel) : Prop where
  range : ∀ pa, own pa ≠ .kernel → pa % PGSIZE = 0 ∧ s.kend ≤ pa ∧ pa < PHYSTOP
  free : Lists own ownFree fun _ pa => pa ∈ s.freelist
  nodup : s.freelist.Nodup
  root : Lists own Owner.root fun p r => (s.procs p).pagetable = some r
  trapframe : Lists own Owner.trapframe fun p pa => (s.procs p).trapframe = some pa
  l1 : Lists own ownL1 fun k pa => IsTable own k.1 ∧ (s.tables k.1).l1 k.2 = some pa
  l0 : Lists own ownL0 fun k pa => IsTable own k.1 ∧ (s.tables k.1).l0 k.2 = some pa
  user : Lists own ownUser fun k pa => IsTable own k.1 ∧ k.2 < UPAGES ∧ Resident (s.pte k.1 k.2) pa
  table : ∀ r, IsTable own r → TableOk (s.tables r) (lim r)

/-- What a used entry of the frame table is about. -/
def FrameOk (own : Nat → Owner) (f : FrameEntry) : Prop :=
  ∃ p, f.proc = some p ∧ f.va % PGSIZE = 0 ∧ (own f.pa = .held p f.va ∨
    ∃ r, OwnsTable own p r ∧ own f.pa = .user r (f.va / PGSIZE))

structure Frames (own : Nat → Owner) (ft : FrameTable) : Prop where
  ok : ∀ i, (ft i).used = true → FrameOk own (ft i)
  inj : ∀ i j, (ft i).used = true → (ft j).used = true → (ft i).pa = (ft j).pa → i = j

/-- What the slot of a swapped entry of table `r` is. -/
structure SlotOk (own : Nat → Owner) (x : SwapSlot) (r slot : Nat) : Prop where
  lt : slot < MAX_SWAP
  used : x.used = true
  block : x.diskBlock = slot * BLOCKS_PER_PAGE
  proc : ∀ q, x.proc = some q → OwnsTable own q r

structure Slots (own : Nat → Owner) (s : Kernel) : Prop where
  ok : ∀ r v slot, IsTable own r → v < UPAGES → Swapped (s.pte r v) slot →
    SlotOk own (s.swapSpace slot) r slot
  inj : ∀ r v r' v' slot, IsTable own r → v < UPAGES → Swapped (s.pte r v) slot →
    IsTable own r' → v' < UPAGES → Swapped (s.pte r' v') slot → r = r' ∧ v = v'

/-- **The invariant.** -/
structure Wf (own : Nat → Owner) (lim : Nat → Nat) (s : Kernel) : Prop where
  pages : Pages own lim s
  frames : Frames own s.frameTable
  slots : Slots own s
  raid : Healthy s.raid
  kend_pos : 0 < s.kend

/-! ### Flat memory -/

/-- The page in swap slot `slot`. -/
def slotPage (d : Raid.State) (slot : Nat) : Page :=
  Raid.Page.ofBlocks fun i => Raid.blockView d (BLOCKS_PER_PAGE * slot + i)

/-- The permissions of a page that has not been touched yet. -/
def lazyPerm : Pte := PTE_R ||| PTE_W ||| PTE_U

/-- The contents and the permissions of page `v` of table `r`: in memory, in a swap slot, or
zeros when the page has no entry yet. -/
def flat (s : Kernel) (r v : Nat) : Page × Pte :=
  if (s.pte r v).has PTE_V then (s.mem (pte2Pa (s.pte r v)), (s.pte r v).perm)
  else if (s.pte r v).has PTE_SWAPPED then
    (slotPage s.raid (swapIdx (s.pte r v)), (s.pte r v).perm)
  else (zeroPage, lazyPerm)

theorem flat_resident (h : Resident (s.pte r v) pa) : flat s r v = (s.mem pa, (s.pte r v).perm) := by
  simp [flat, h.valid, h.pa_eq]

theorem flat_swapped {slot : Nat} (h : Swapped (s.pte r v) slot) :
    flat s r v = (slotPage s.raid slot, (s.pte r v).perm) := by
  simp [flat, h.not_valid, h.swapped, h.slot_eq]

theorem flat_zero (h : s.pte r v = 0) : flat s r v = (zeroPage, lazyPerm) := by
  simp [flat, h, Pte.has]

/-! ### Consequences -/

theorem Pages.physOk (h : Pages own lim s) (hpa : own pa ≠ .kernel) : PhysOk pa := by
  obtain ⟨h1, -, h3⟩ := h.range pa hpa
  exact ⟨h1, by simp only [PHYSTOP] at h3; omega⟩

theorem Pages.own_root (h : Pages own lim s) (hr : (s.procs p).pagetable = some r) :
    own r = .root p := (h.root p r).mpr hr

theorem Pages.pagetable (h : Pages own lim s) (hr : own r = .root p) :
    (s.procs p).pagetable = some r := (h.root p r).mp hr

/-- A process has one page table. -/
theorem Pages.root_unique {r' : Nat} (h : Pages own lim s) (hr : own r = .root p)
    (hr' : own r' = .root p) : r' = r :=
  Option.some.inj ((h.pagetable hr').symm.trans (h.pagetable hr))

/-- The page a user entry maps. -/
theorem Pages.own_user (h : Pages own lim s) (hr : IsTable own r) (hv : v < UPAGES)
    (he : Resident (s.pte r v) pa) : own pa = .user r v := (h.user (r, v) pa).mpr ⟨hr, hv, he⟩

/-- An entry of a user page that is not valid and not swapped is empty. -/
theorem TableOk.zero_of_not {t : PageTable} {n : Nat} (h : TableOk t n) (hv : v < UPAGES)
    (hval : (t.pte v).has PTE_V = false) (hsw : (t.pte v).has PTE_SWAPPED = false) :
    t.pte v = 0 := by
  rcases h.shape v hv with h0 | ⟨pa, hr⟩ | ⟨slot, hs⟩
  · exact h0
  · cases hval.symm.trans hr.valid
  · cases hsw.symm.trans hs.swapped

theorem TableOk.resident_of {t : PageTable} {n : Nat} (h : TableOk t n) (hv : v < UPAGES)
    (hval : (t.pte v).has PTE_V = true) : Resident (t.pte v) (pte2Pa (t.pte v)) := by
  rcases h.shape v hv with h0 | ⟨pa, hr⟩ | ⟨slot, hs⟩
  · rw [h0] at hval
    cases hval
  · exact ⟨hval, hr.not_swapped, rfl⟩
  · cases hval.symm.trans hs.not_valid

theorem TableOk.swapped_of {t : PageTable} {n : Nat} (h : TableOk t n) (hv : v < UPAGES)
    (hsw : (t.pte v).has PTE_SWAPPED = true) : Swapped (t.pte v) (swapIdx (t.pte v)) := by
  rcases h.shape v hv with h0 | ⟨pa, hr⟩ | ⟨slot, hs⟩
  · rw [h0] at hsw
    cases hsw
  · cases hsw.symm.trans hr.not_swapped
  · exact ⟨hs.not_valid, hsw, rfl⟩

/-- `walk(_, _, 0)` finds the entry, or there is no table for it and the entry is empty. -/
theorem walk_eq {t : Nat} (h : TableOk (s.tables r) t) {va : Nat} (hva : va < MAXVA) :
    walk s r va = .ok (some (s.pte r (va / PGSIZE))) ∨
      (walk s r va = .ok none ∧ s.pte r (va / PGSIZE) = 0) := by
  have hnot : ¬ va ≥ MAXVA := by omega
  have hk : va / PGSIZE / 512 = va / 2 ^ 21 := by
    simp only [PGSIZE]
    omega
  simp only [walk, if_neg hnot]
  cases h1 : (s.tables r).l1 (va / 2 ^ 30) with
  | none =>
      refine Or.inr ⟨rfl, ?_⟩
      -- no level-1 table, so no level-0 table, so no entry
      by_contra hne
      have h0 := h.pte_l0 _ hne
      rw [hk] at h0
      have h1' := h.l0_l1 _ h0
      rw [show va / 2 ^ 21 / 512 = va / 2 ^ 30 by omega, h1] at h1'
      cases h1'
  | some a =>
      cases h0 : (s.tables r).l0 (va / 2 ^ 21) with
      | some b => exact Or.inl rfl
      | none =>
          refine Or.inr ⟨rfl, ?_⟩
          by_contra hne
          have := h.pte_l0 _ hne
          rw [hk, h0] at this
          cases this

end Xv6.Vm
