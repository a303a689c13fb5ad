import Xv6.Vm.Alloc
import Xv6.Vm.Clock

/-!
# Vm — Evict

`kalloc_user`: a page for user memory, by a free frame or by evicting a page of some process.

* `kallocUser_free`, `kallocUser_evict`: the two paths, with the states they leave.
* `kallocUser_spec`: either way no page of flat memory changes, and the page returned is held by
  the caller; the evicted page, if any, is in the swap slot that its entry now names.
-/

namespace Xv6.Vm
open Xv6.Lib
open Xv6.Raid (Page zeroPage PGSIZE BLOCKS_PER_PAGE MAX_SWAP Healthy)

variable {own own' : Nat → Owner} {lim : Nat → Nat} {s s' : Kernel} {p q : ProcId}
  {r v pa va : Nat} {rest : List Nat}

/-! ### The swap device -/

section Swap

variable {d : Raid.State} {slot : Nat}

theorem raidWrite_slot (h : Healthy d) (hs : slot < MAX_SWAP) (page : Page) :
    ∃ d', Raid.raidWrite d (slot * BLOCKS_PER_PAGE) page = .ok d' ∧ Healthy d' ∧
      ∀ n, n < MAX_SWAP → slotPage d' n = if n = slot then page else slotPage d n := by
  obtain ⟨d', hd', hflags, hview⟩ := Raid.raidWrite_spec h.readable ⟨slot, hs⟩ page
  refine ⟨d', by rw [Nat.mul_comm]; exact hd', hflags.healthy h, fun n hn => ?_⟩
  have hupd : Raid.pageView d' = Function.update (Raid.pageView d) ⟨slot, hs⟩ page :=
    Raid.pageView_update fun x _ => by rw [hview x, if_neg (h.not_lostPage _ x)]
  have hn' := congrFun hupd ⟨n, hn⟩
  by_cases hns : n = slot
  · subst hns
    rw [if_pos rfl]
    rwa [Function.update_self] at hn'
  · rw [if_neg hns]
    rwa [Function.update_of_ne (fun he => hns (Fin.mk.inj he))] at hn'

theorem raidRead_slot (h : Healthy d) (hs : slot < MAX_SWAP) (dst : Page) :
    Raid.raidRead d (slot * BLOCKS_PER_PAGE) dst = .ok (slotPage d slot) := by
  rw [Nat.mul_comm]
  exact Raid.raidRead_eq h.readable ⟨slot, hs⟩ dst

theorem raidCopy_slot (h : Healthy d) (hs : slot < MAX_SWAP) {src : Nat} (hsrc : src < MAX_SWAP) :
    ∃ d', Raid.raidCopy d (src * BLOCKS_PER_PAGE) (slot * BLOCKS_PER_PAGE) = .ok d' ∧ Healthy d' ∧
      ∀ n, n < MAX_SWAP → slotPage d' n = if n = slot then slotPage d src else slotPage d n := by
  obtain ⟨d', hd', hflags, hview⟩ := Raid.raidCopy_spec h.readable ⟨src, hsrc⟩ ⟨slot, hs⟩
  refine ⟨d', by rw [Nat.mul_comm src, Nat.mul_comm slot]; exact hd', hflags.healthy h,
    fun n hn => ?_⟩
  have hupd : Raid.pageView d' =
      Function.update (Raid.pageView d) ⟨slot, hs⟩ (Raid.pageView d ⟨src, hsrc⟩) :=
    Raid.pageView_update fun x _ => by rw [hview x, if_neg (h.not_lostPage _ x)]
  have hn' := congrFun hupd ⟨n, hn⟩
  by_cases hns : n = slot
  · subst hns
    rw [if_pos rfl]
    rwa [Function.update_self] at hn'
  · rw [if_neg hns]
    rwa [Function.update_of_ne (fun he => hns (Fin.mk.inj he))] at hn'

end Swap

/-! ### The two paths -/

theorem freeFrame_some {ft : FrameTable} {i : Fin MAX_FRAMES} (h : freeFrame ft = some i) :
    (ft i).used = false := by
  have := List.find?_some h
  simpa using this

theorem freeFrame_none {ft : FrameTable} (h : freeFrame ft = none) (i : Fin MAX_FRAMES) :
    (ft i).used = true := by
  have := List.find?_eq_none.mp h i (List.mem_finRange i)
  simpa using this

/-- The state after the fast path. -/
def takeFrame (s : Kernel) (i : Fin MAX_FRAMES) (p : ProcId) (va pa : Nat) (rest : List Nat) :
    Kernel :=
  { s with
    freelist := rest,
    mem := Function.update s.mem pa (fun _ => 5),
    frameTable := Function.update s.frameTable i
      { used := true, proc := some p, va := va, pa := pa, refBit := true, grace := 0 } }

theorem kallocUser_free {i : Fin MAX_FRAMES} (hi : freeFrame s.frameTable = some i)
    (hfree : s.freelist = pa :: rest) :
    kallocUser s p va = .ok (some pa, takeFrame s i p va pa rest) := by
  simp [kallocUser, hi, fillFrame, claimFrame, setFrame, kalloc, hfree, setPage, takeFrame]

theorem kallocUser_null {i : Fin MAX_FRAMES} (hi : freeFrame s.frameTable = some i)
    (hfree : s.freelist = []) : kallocUser s p va = .ok (none, { s with
      nullAllocs := s.nullAllocs + 1,
      frameTable := Function.update s.frameTable i
        { used := false, proc := none, va := va, pa := (s.frameTable i).pa, refBit := true,
          grace := 0 } }) := by
  simp [kallocUser, hi, fillFrame, claimFrame, setFrame, kalloc, hfree, releaseFrame]

/-- The state after an eviction: frame `i`, a page of `q`, is swapped out to `slot` and goes to
page `va` of `p`.  The free list is as before, since the page freed is the page allocated. -/
def evictFrame (s : Kernel) (p : ProcId) (va : Nat) (i : Fin MAX_FRAMES) (ft : FrameTable)
    (hand : Fin MAX_FRAMES) (q : ProcId) (r slot : Nat) (raid : Raid.State) : Kernel :=
  { s with
    frameTable := Function.update ft i
      { used := true, proc := some p, va := va, pa := (ft i).pa, refBit := true, grace := 0 },
    clockHand := hand,
    swapSpace := Function.update s.swapSpace slot
      { used := true, proc := some q, va := (ft i).va, diskBlock := slot * BLOCKS_PER_PAGE },
    swapHead := slot * BLOCKS_PER_PAGE,
    raid := raid,
    mem := Function.update s.mem (ft i).pa (fun _ => 5),
    tables := (setPte s r ((ft i).va / PGSIZE)
      (swapOutPte slot (s.pte r ((ft i).va / PGSIZE)))).tables,
    procs := (countEviction (creditWrite s p
      (swapLatency s.swapHead (slot * BLOCKS_PER_PAGE))) q).procs }

/-- The first free slot. -/
def freeSlot (s : Kernel) : Option Nat := (List.range MAX_SWAP).find? fun i => !(s.swapSpace i).used

theorem kallocUser_full {i : Fin MAX_FRAMES} {ft : FrameTable} {hand : Fin MAX_FRAMES}
    (hnone : freeFrame s.frameTable = none)
    (hpick : clockPickVictim s.frameTable s.clockHand p = .ok (i, ft, hand))
    (hslot : freeSlot s = none) : kallocUser s p va = .ok (none, { s with
      frameTable := Function.update ft i
        { used := false, proc := none, va := va, pa := 0, refBit := true, grace := 0 },
      clockHand := hand, swapFulls := s.swapFulls + 1 }) := by
  unfold freeSlot at hslot
  simp [kallocUser, hnone, hpick, swapAlloc, claimFrame, setFrame, hslot, releaseFrame]

theorem swapAlloc_some {slot : Nat} (h : freeSlot s = some slot) :
    swapAlloc s = (some slot, setSlot s slot { s.swapSpace slot with used := true }) := by
  unfold freeSlot at h
  simp [swapAlloc, h]

theorem kfree_eq (h : pa % PGSIZE = 0 ∧ s.kend ≤ pa ∧ pa < PHYSTOP) :
    kfree s pa = .ok { setPage s pa (fun _ => 1) with freelist := pa :: s.freelist } := by
  rw [kfree, if_neg (by omega)]

theorem walk_congr (h : s'.tables = s.tables) : walk s' r va = walk s r va := by
  simp only [walk, h]

theorem swapOutEntry_eq {slot : Nat} {e : Pte} (hr : (s.procs q).pagetable = some r)
    (hwalk : walk s r va = .ok (some e)) (he : e.has PTE_V = true) :
    swapOutEntry s q va slot = .ok (setPte s r (va / PGSIZE) (swapOutPte slot e)) := by
  simp [swapOutEntry, hr, hwalk, he]

/-- What a walk finds is the entry. -/
theorem walk_some {e : Pte} (h : walk s r va = .ok (some e)) : e = s.pte r (va / PGSIZE) := by
  unfold walk at h
  split at h
  · cases h
  · split at h
    · cases h
      rfl
    · cases h

/-- The state after `swap_write`. -/
def wroteSlot (s : Kernel) (slot : Nat) (victim : Option ProcId) (va : Nat) (p : ProcId)
    (raid : Raid.State) : Kernel :=
  creditWrite
    { s with
      swapSpace := Function.update s.swapSpace slot
        { s.swapSpace slot with diskBlock := slot * BLOCKS_PER_PAGE, proc := victim, va := va },
      swapHead := slot * BLOCKS_PER_PAGE, raid := raid }
    p (swapLatency s.swapHead (slot * BLOCKS_PER_PAGE))

theorem swapWrite_eq {slot : Nat} {victim : Option ProcId} {raid : Raid.State} (hpa : pa ≠ 0)
    (h : Raid.raidWrite s.raid (slot * BLOCKS_PER_PAGE) (s.mem pa) = .ok raid) :
    swapWrite s slot pa victim va p = .ok (wroteSlot s slot victim va p raid) := by
  simp only [swapWrite, SWAP_START_BLOCK, Nat.zero_add, setSlot, if_neg hpa, h, ok_bind]
  rfl

theorem creditWrite_pagetable (s : Kernel) (p : ProcId) (n : Nat) (q : ProcId) :
    ((creditWrite s p n).procs q).pagetable = (s.procs q).pagetable := by
  by_cases hq : q = p
  · subst hq
    simp [creditWrite, setProc]
  · simp [creditWrite, setProc, hq]

/-- A page that is freed is the next one to be allocated. -/
theorem kfree_fillFrame {i : Fin MAX_FRAMES} (h : pa % PGSIZE = 0 ∧ s.kend ≤ pa ∧ pa < PHYSTOP) :
    (kfree s pa >>= fun s => pure (fillFrame s i)) =
      .ok (some pa, setFrame (setPage s pa fun _ => 5) i { s.frameTable i with pa := pa }) := by
  simp [kfree_eq h, fillFrame, kalloc, setPage, setFrame]

theorem countEviction_kend (s : Kernel) (p : ProcId) : (countEviction s p).kend = s.kend := rfl

theorem setPte_kend (s : Kernel) (r v : Nat) (e : Pte) : (setPte s r v e).kend = s.kend := rfl

theorem wroteSlot_kend (s : Kernel) (slot : Nat) (q : Option ProcId) (va : Nat) (p : ProcId)
    (raid : Raid.State) : (wroteSlot s slot q va p raid).kend = s.kend := rfl

theorem kallocUser_evict {i : Fin MAX_FRAMES} {ft : FrameTable} {hand : Fin MAX_FRAMES}
    {slot : Nat} {raid : Raid.State} {e : Pte} (hnone : freeFrame s.frameTable = none)
    (hpick : clockPickVictim s.frameTable s.clockHand p = .ok (i, ft, hand))
    (hslot : freeSlot s = some slot) (hq : (ft i).proc = some q)
    (hr : (s.procs q).pagetable = some r) (hwalk : walk s r (ft i).va = .ok (some e))
    (he : e.has PTE_V = true) (hkend : 0 < s.kend)
    (hpa : (ft i).pa % PGSIZE = 0 ∧ s.kend ≤ (ft i).pa ∧ (ft i).pa < PHYSTOP)
    (hraid : Raid.raidWrite s.raid (slot * BLOCKS_PER_PAGE) (s.mem (ft i).pa) = .ok raid) :
    kallocUser s p va = .ok (some (ft i).pa, evictFrame s p va i ft hand q r slot raid) := by
  have he' := walk_some hwalk
  subst he'
  let s₁ := claimFrame { s with frameTable := ft, clockHand := hand } i p va 0
  let s₂ := setSlot s₁ slot { s.swapSpace slot with used := true }
  let s₃ := wroteSlot s₂ slot (some q) (ft i).va p raid
  let s₄ := setPte s₃ r ((ft i).va / PGSIZE) (swapOutPte slot (s.pte r ((ft i).va / PGSIZE)))
  have h₁ : swapAlloc s₁ = (some slot, s₂) := swapAlloc_some hslot
  have h₂ : swapWrite s₂ slot (ft i).pa (some q) (ft i).va p = .ok s₃ :=
    swapWrite_eq (Nat.ne_of_gt (hkend.trans_le hpa.2.1)) hraid
  have h₃ : swapOutEntry s₃ q (ft i).va slot = .ok s₄ :=
    swapOutEntry_eq ((creditWrite_pagetable ..).trans hr) ((walk_congr rfl).trans hwalk) he
  have hkend₄ : (countEviction s₄ q).kend = s.kend := by
    rw [countEviction_kend, setPte_kend, wroteSlot_kend]
    rfl
  have h₄ := kfree_fillFrame (s := countEviction s₄ q) (i := i) (hkend₄ ▸ hpa)
  have hstate : setFrame (setPage (countEviction s₄ q) (ft i).pa fun _ => 5) i
      { (countEviction s₄ q).frameTable i with pa := (ft i).pa } =
      evictFrame s p va i ft hand q r slot raid := by
    simp [s₄, s₃, s₂, s₁, evictFrame, setFrame, setPage, countEviction, wroteSlot, creditWrite,
      setProc, setPte, setTable, setSlot, claimFrame]
  simp only [kallocUser, hnone, hpick, ok_bind, hq]
  rw [h₁]
  simp only [h₂, h₃, ok_bind, pure_eq_ok]
  rw [← hstate]
  exact h₄

/-! ### What an allocation keeps -/

/-- No allocation is under way. -/
def NoHeld (own : Nat → Owner) : Prop := ∀ x p va, own x ≠ .held p va

/-- The frame that `kalloc_user(p, _)` takes: a free one, or the clock's victim. -/
def frameClaim (ft : FrameTable) (hand : Fin MAX_FRAMES) (p : ProcId) :
    Except String (Fin MAX_FRAMES × FrameTable × Fin MAX_FRAMES) :=
  match freeFrame ft with
  | some i => .ok (i, ft, hand)
  | none => clockPickVictim ft hand p

/-- The entry of a frame taken for page `va` of `p`. -/
def claimedEntry (p : ProcId) (va pa : Nat) : FrameEntry :=
  { used := true, proc := some p, va := va, pa := pa, refBit := true, grace := 0 }

/-- After `kalloc_user(p, va)` has returned `pa`. -/
structure Allocated (own : Nat → Owner) (lim : Nat → Nat) (s s' : Kernel) (p : ProcId)
    (va pa : Nat) : Prop where
  wf : Wf (Function.update own pa (.held p va)) lim s'
  keeps : Keeps noPage own (Function.update own pa (.held p va)) s s'
  mem : s'.mem = Function.update s.mem pa fun _ => 5
  was : own pa = .free ∨ ∃ r v, own pa = .user r v
  pte : ∀ r v, (∀ x, ¬ Resident (s.pte r v) x) → s'.pte r v = s.pte r v
  l1 : ∀ r, (s'.tables r).l1 = (s.tables r).l1
  l0 : ∀ r, (s'.tables r).l0 = (s.tables r).l0
  nulls : s'.nullAllocs = s.nullAllocs
  fulls : s'.swapFulls = s.swapFulls
  claim : ∃ i ft hand, frameClaim s.frameTable s.clockHand p = .ok (i, ft, hand) ∧
    SameEntries s.frameTable ft ∧ s'.frameTable = Function.update ft i (claimedEntry p va pa) ∧
    s'.clockHand = hand ∧ ((freeFrame s.frameTable = none ∧ pa = (s.frameTable i).pa) ∨
      (freeFrame s.frameTable ≠ none ∧ own pa = .free))

/-- After it has failed: a frame may have been given up for nothing. -/
structure AllocFailed (own : Nat → Owner) (lim : Nat → Nat) (s s' : Kernel) : Prop where
  wf : Wf own lim s'
  keeps : Keeps noPage own own s s'
  mem : s'.mem = s.mem
  tables : s'.tables = s.tables
  failed : s.nullAllocs < s'.nullAllocs ∨ s.swapFulls < s'.swapFulls

theorem Allocated.own_ne_kernel (h : Allocated own lim s s' p va pa) : own pa ≠ .kernel := by
  rcases h.was with hf | ⟨r, v, hu⟩
  · simp [hf]
  · simp [hu]

theorem allocated_free {i : Fin MAX_FRAMES} (h : Wf own lim s) (hva : va % PGSIZE = 0)
    (hff : freeFrame s.frameTable = some i) (hfree : s.freelist = pa :: rest) :
    Allocated own lim s (takeFrame s i p va pa rest) p va pa := by
  have hi := freeFrame_some hff
  have hpa := h.pages.own_head hfree
  have hmov : Movable (own pa) := by simp [hpa, Movable]
  have hshift : Shift own (Function.update own pa (.held p va)) := shift_update hmov trivial
  -- no entry is about a free page
  have hother : ∀ j, (s.frameTable j).used = true → (s.frameTable j).pa ≠ pa := by
    intro j hj he
    rcases h.frames.owner hj with ⟨q, a, ho⟩ | ⟨r, v, ho⟩ <;> simp [he, hpa] at ho
  have hpages : Pages (Function.update own pa (.held p va)) lim (takeFrame s i p va pa rest) :=
    h.pages.take hfree ⟨rfl, rfl, rfl, rfl, fun _ => rfl⟩ rfl rfl
  have hframes : Frames (Function.update own pa (.held p va))
      (takeFrame s i p va pa rest).frameTable := by
    refine h.frames.claim (i := i) hmov hva (fun j _ => hother j) ?_ fun j hj => ?_
    · simp [takeFrame]
    · simp [takeFrame, hj]
  refine ⟨⟨hpages, hframes, h.slots.mono hshift.roots (fun _ _ _ _ => rfl) rfl, h.raid, h.kend_pos⟩,
    ⟨⟨rfl, rfl, rfl, rfl, fun _ => rfl⟩, hshift.roots, fun x => hshift.eq_iff (by simp [Movable]) x,
      fun r v hr hv _ => ?_, le_rfl, le_rfl, fun _ _ ht x hx => ?_⟩, rfl, Or.inl hpa,
    fun _ _ _ => rfl, fun _ => rfl, fun _ => rfl, rfl, rfl,
    ⟨i, s.frameTable, s.clockHand, by simp [frameClaim, hff], .refl _, rfl, rfl,
      Or.inr ⟨by simp [hff], hpa⟩⟩⟩
  · refine flat_congr rfl (fun x hx => ?_) (fun _ _ => rfl) (h.pages.userEntry hr hv)
    have hne : x ≠ pa := by
      rintro rfl
      cases hpa.symm.trans (h.pages.own_user hr hv hx)
    simp [takeFrame, hne]
  · by_cases hxp : x = pa
    · exact ⟨i, by simp [takeFrame, hxp]⟩
    · rw [Function.update_of_ne hxp] at hx
      obtain ⟨j, hj, hjx⟩ := ht x hx
      have hji : j ≠ i := fun he => by rw [he, hi] at hj; cases hj
      exact ⟨j, by simp [takeFrame, hji, hj], by simp [takeFrame, hji, hjx]⟩

theorem SameEntries.fields {ft ft' : FrameTable} (h : SameEntries ft ft') (i : Fin MAX_FRAMES) :
    (ft' i).used = (ft i).used ∧ (ft' i).proc = (ft i).proc ∧ (ft' i).va = (ft i).va ∧
      (ft' i).pa = (ft i).pa := by
  obtain ⟨b, hb⟩ := h i
  rw [hb]
  exact ⟨rfl, rfl, rfl, rfl⟩

theorem SameEntries.frames {ft ft' : FrameTable} (h : SameEntries ft ft') (hf : Frames own ft) :
    Frames own ft' :=
  hf.sub fun i hi => by
    obtain ⟨hu, hp, hva, hpa⟩ := h.fields i
    exact ⟨hu ▸ hi, hp, hva, hpa⟩

theorem evictFrame_procs (s : Kernel) (p : ProcId) (va : Nat) (i : Fin MAX_FRAMES)
    (ft : FrameTable) (hand : Fin MAX_FRAMES) (q : ProcId) (r slot : Nat) (raid : Raid.State) :
    SameProcs s (evictFrame s p va i ft hand q r slot raid) := by
  refine ⟨rfl, rfl, rfl, rfl, fun x => ?_⟩
  have h₁ := (sameProcs_setProc s p { s.procs p with
    diskWrites := (s.procs p).diskWrites + 1,
    totalDiskLatency := (s.procs p).totalDiskLatency +
      swapLatency s.swapHead (slot * BLOCKS_PER_PAGE),
    diskOps := (s.procs p).diskOps + 1 } rfl).ident x
  refine Eq.trans ?_ h₁
  by_cases hx : x = q
  · subst hx
    simp [evictFrame, countEviction, creditWrite, setProc, Proc.ident]
  · simp [evictFrame, countEviction, creditWrite, setProc, hx]

theorem allocated_evict {i : Fin MAX_FRAMES} {ft : FrameTable} {hand : Fin MAX_FRAMES}
    {slot : Nat} {raid : Raid.State} (h : Wf own lim s) (hva : va % PGSIZE = 0)
    (hff : freeFrame s.frameTable = none)
    (hpick : clockPickVictim s.frameTable s.clockHand p = .ok (i, ft, hand))
    (hsame : SameEntries s.frameTable ft) (hroot : own r = .root q) (huser : own (ft i).pa = .user r ((ft i).va / PGSIZE))
    (hslot : slot < MAX_SWAP) (hfresh : (s.swapSpace slot).used = false) (hraid : Healthy raid)
    (hpage : ∀ n, n < MAX_SWAP →
      slotPage raid n = if n = slot then s.mem (ft i).pa else slotPage s.raid n) :
    Allocated own lim s (evictFrame s p va i ft hand q r slot raid) p va (ft i).pa := by
  have hused : (ft i).used = true := (hsame.fields i).1.trans (freeFrame_none hff i)
  have hmov : Movable (own (ft i).pa) := by simp [huser, Movable]
  have hshift : Shift own (Function.update own (ft i).pa (.held p va)) := shift_update hmov trivial
  obtain ⟨hr, hv, hres⟩ := (h.pages.user (r, (ft i).va / PGSIZE) (ft i).pa).mp huser
  have hr : IsTable own r := hr
  have hv : (ft i).va / PGSIZE < UPAGES := hv
  have hres : Resident (s.pte r ((ft i).va / PGSIZE)) (ft i).pa := hres
  have hsw : Swapped (swapOutPte slot (s.pte r ((ft i).va / PGSIZE))) slot :=
    swapOutPte_swapped (by simp only [MAX_SWAP] at hslot; omega) _
  have hprocs := evictFrame_procs s p va i ft hand q r slot raid
  have hframes : Frames own ft := hsame.frames h.frames
  have hpte : ∀ r' v', (evictFrame s p va i ft hand q r slot raid).pte r' v' =
      if r' = r ∧ v' = (ft i).va / PGSIZE then swapOutPte slot (s.pte r ((ft i).va / PGSIZE))
      else s.pte r' v' := fun r' v' => pte_setPte ..
  have hpages : Pages (Function.update own (ft i).pa (.held p va)) lim
      (evictFrame s p va i ft hand q r slot raid) :=
    h.pages.evict hr hv hprocs rfl hres hsw rfl
  have hframes' : Frames (Function.update own (ft i).pa (.held p va))
      (evictFrame s p va i ft hand q r slot raid).frameTable := by
    refine hframes.claim (i := i) hmov hva (fun j hj hju he => hj (hframes.inj j i hju hused he)) ?_
      fun j hj => ?_
    · simp [evictFrame]
    · simp [evictFrame, hj]
  have hslots : Slots (Function.update own (ft i).pa (.held p va))
      (evictFrame s p va i ft hand q r slot raid) := by
    refine h.slots.swap hshift rfl hsw (h.slots.fresh hfresh) ?_ fun n hn => ?_
    · simp only [evictFrame, Function.update_self]
      exact ⟨hslot, rfl, rfl, fun q' hq' => by cases hq'; exact Or.inl hroot⟩
    · simp [evictFrame, hn]
  refine ⟨⟨hpages, hframes', hslots, hraid, h.kend_pos⟩,
    ⟨hprocs, hshift.roots, fun x => hshift.eq_iff (by simp [Movable]) x, fun r' v' hr' hv' _ => ?_,
      le_rfl, le_rfl, fun _ _ ht x hx => ?_⟩, rfl, Or.inr ⟨r, _, huser⟩, fun r' v' hnr => ?_,
    fun r' => setPte_l1 .., fun r' => setPte_l0 .., rfl, rfl,
    ⟨i, ft, hand, by simp [frameClaim, hff, hpick], hsame, rfl, rfl,
      Or.inl ⟨hff, (hsame.fields i).2.2.2⟩⟩⟩
  · by_cases hk : r' = r ∧ v' = (ft i).va / PGSIZE
    · -- the evicted page: its bytes are in the slot
      obtain ⟨rfl, rfl⟩ := hk
      rw [flat_resident hres, flat_swapped (by rw [hpte, if_pos ⟨rfl, rfl⟩]; exact hsw), hpte,
        if_pos ⟨rfl, rfl⟩, swapOutPte_perm]
      exact congrArg (·, _) ((hpage slot hslot).trans (if_pos rfl))
    · refine flat_congr (by rw [hpte, if_neg hk]) (fun x hx => ?_) (fun n hn => ?_)
        (h.pages.userEntry hr' hv')
      · have hne : x ≠ (ft i).pa := by
          rintro rfl
          have := huser.symm.trans (h.pages.own_user hr' hv' hx)
          cases this
          exact hk ⟨rfl, rfl⟩
        simp [evictFrame, hne]
      · have hok := h.slots.ok r' v' n hr' hv' hn
        have hne : n ≠ slot := by
          rintro rfl
          cases hfresh.symm.trans hok.used
        exact (hpage n hok.lt).trans (if_neg hne)
  · by_cases hxp : x = (ft i).pa
    · exact ⟨i, by simp [evictFrame, hxp]⟩
    · rw [Function.update_of_ne hxp] at hx
      obtain ⟨j, hj, hjx⟩ := ht x hx
      obtain ⟨hu, -, -, hjpa⟩ := hsame.fields j
      have hji : j ≠ i := by
        rintro rfl
        exact hxp (hjx.symm.trans hjpa.symm)
      exact ⟨j, by simp [evictFrame, hji, hu, hj], by simp [evictFrame, hji, hjpa, hjx]⟩
  · rw [hpte]
    refine if_neg fun hk => ?_
    rw [hk.1, hk.2] at hnr
    exact hnr _ hres

/-! ### `kalloc_user` -/

theorem freeSlot_some {slot : Nat} (h : freeSlot s = some slot) :
    slot < MAX_SWAP ∧ (s.swapSpace slot).used = false := by
  have h₁ := List.mem_of_find?_eq_some h
  have h₂ := List.find?_some h
  exact ⟨List.mem_range.mp h₁, by simpa using h₂⟩

/-- Entry `f` is about a page of the page table of its process. -/
def OnRoot (own : Nat → Owner) (f : FrameEntry) (q : ProcId) (r : Nat) : Prop :=
  f.proc = some q ∧ own r = .root q ∧ own f.pa = .user r (f.va / PGSIZE)

/-- The frame that the clock would choose is about a page of the page table of its process. -/
def VictimOk (own : Nat → Owner) (s : Kernel) (p : ProcId) : Prop :=
  ∀ i ft hand, freeFrame s.frameTable = none →
    clockPickVictim s.frameTable s.clockHand p = .ok (i, ft, hand) →
    ∃ q r, OnRoot own (s.frameTable i) q r

/-- No table is under construction. -/
def NoNew (own : Nat → Owner) : Prop := ∀ x q, own x ≠ .newRoot q

/-- A used entry is so when no allocation is under way and no table under construction. -/
theorem Frames.onRoot {ft : FrameTable} (h : Frames own ft) (hheld : NoHeld own)
    (hnew : NoNew own) {i : Fin MAX_FRAMES} (hi : (ft i).used = true) :
    ∃ q r, OnRoot own (ft i) q r := by
  obtain ⟨q, hq, -, hh | ⟨r, hr, hu⟩⟩ := h.ok i hi
  · exact absurd hh (hheld _ _ _)
  · exact ⟨q, r, hq, hr.resolve_right (hnew r q), hu⟩

theorem Wf.victimOk (h : Wf own lim s) (hheld : NoHeld own) (hnew : NoNew own) (p : ProcId) :
    VictimOk own s p := fun i _ _ hff _ =>
  h.frames.onRoot hheld hnew (freeFrame_none hff i)

/-- The walk of an eviction finds the victim's entry. -/
theorem walk_resident (h : Pages own lim s) (hr : IsTable own r) {e : Pte}
    (he : s.pte r (va / PGSIZE) = e) (hres : Resident e pa) (hva : va / PGSIZE < UPAGES) :
    walk s r va = .ok (some e) := by
  have hlt : va < MAXVA := by
    simp only [UPAGES, TRAPFRAME, TRAMPOLINE, MAXVA, PGSIZE] at *
    omega
  rcases walk_eq (h.table r hr) hlt with hw | ⟨-, h0⟩
  · rw [hw, he]
  · exact absurd (he.symm.trans h0) hres.not_zero

/-- The victim of an eviction is a page of the page table of its process. -/
theorem Wf.victim (h : Wf own lim s) (hvict : VictimOk own s p) (hff : freeFrame s.frameTable = none) :
    ∃ i ft hand q r, clockPickVictim s.frameTable s.clockHand p = .ok (i, ft, hand) ∧
      SameEntries s.frameTable ft ∧ (ft i).proc = some q ∧ own r = .root q ∧
      own (ft i).pa = .user r ((ft i).va / PGSIZE) := by
  have hused := freeFrame_none hff
  have hproc : ∀ i, (s.frameTable i).proc ≠ none := by
    intro i
    obtain ⟨q, hq, -⟩ := h.frames.ok i (hused i)
    simp [hq]
  obtain ⟨i, ft, hand, hpick, hsame⟩ := clockPickVictim_spec hused hproc s.clockHand p
  obtain ⟨-, hp, hv, hpa⟩ := hsame.fields i
  obtain ⟨q, r, hq, hroot, huser⟩ := hvict i ft hand hff hpick
  rw [← hp] at hq
  rw [← hpa, ← hv] at huser
  exact ⟨i, ft, hand, q, r, hpick, hsame, hq, hroot, huser⟩

/-- **`kalloc_user`.** -/
theorem kallocUser_spec (h : Wf own lim s) (hva : va % PGSIZE = 0) (hvict : VictimOk own s p) :
    ∃ res s', kallocUser s p va = .ok (res, s') ∧ (res = none → AllocFailed own lim s s') ∧
      ∀ pa, res = some pa → Allocated own lim s s' p va pa := by
  cases hff : freeFrame s.frameTable with
  | some i =>
      cases hfree : s.freelist with
      | nil =>
          refine ⟨none, _, kallocUser_null hff hfree, fun _ => ?_, fun pa hpa => by cases hpa⟩
          have hfr : ∀ j, (Function.update s.frameTable i
              { used := false, proc := none, va := va, pa := (s.frameTable i).pa, refBit := true,
                grace := 0 } j).used = true → j ≠ i := by
            rintro j hj rfl
            rw [Function.update_self] at hj
            cases hj
          refine ⟨?_, ⟨⟨rfl, rfl, rfl, rfl, fun _ => rfl⟩, .refl own, fun _ => Iff.rfl,
            fun _ _ _ _ _ => rfl, Nat.le_succ _, le_rfl, fun hn _ _ => ?_⟩, rfl, rfl,
            Or.inl (Nat.lt_succ_self _)⟩
          · refine h.congr ⟨rfl, rfl, rfl, rfl, fun _ => rfl⟩ rfl rfl rfl (fun j hj => ?_) h.raid
            have hji := hfr j hj
            simp only [Function.update_of_ne hji] at hj ⊢
            exact ⟨hj, trivial, trivial, trivial⟩
          · exact absurd hn (Nat.succ_ne_self _)
      | cons pa rest =>
          refine ⟨some pa, _, kallocUser_free hff hfree, fun hn => (by cases hn), fun pa' hpa => ?_⟩
          cases hpa
          exact allocated_free h hva hff hfree
  | none =>
      obtain ⟨i, ft, hand, q, r, hpick, hsame, hq, hroot, huser⟩ := h.victim hvict hff
      cases hfs : freeSlot s with
      | none =>
          refine ⟨none, _, kallocUser_full hff hpick hfs, fun _ => ?_, fun pa hpa => by cases hpa⟩
          refine ⟨?_, ⟨⟨rfl, rfl, rfl, rfl, fun _ => rfl⟩, .refl own, fun _ => Iff.rfl,
            fun _ _ _ _ _ => rfl, le_rfl, Nat.le_succ _, fun _ hf _ => ?_⟩, rfl, rfl,
            Or.inr (Nat.lt_succ_self _)⟩
          · refine h.congr ⟨rfl, rfl, rfl, rfl, fun _ => rfl⟩ rfl rfl rfl (fun j hj => ?_) h.raid
            have hji : j ≠ i := by
              rintro rfl
              simp at hj
            simp only [Function.update_of_ne hji] at hj ⊢
            obtain ⟨hu', hp', hv', hpa'⟩ := hsame.fields j
            exact ⟨hu' ▸ hj, hp', hv', hpa'⟩
          · exact absurd hf (Nat.succ_ne_self _)
      | some slot =>
          obtain ⟨hslot, hfresh⟩ := freeSlot_some hfs
          obtain ⟨raid, hwrite, hhealthy, hpage⟩ := raidWrite_slot h.raid hslot (s.mem (ft i).pa)
          obtain ⟨hr, hvu, hres⟩ := (h.pages.user (r, (ft i).va / PGSIZE) (ft i).pa).mp huser
          have hwalk := walk_resident h.pages hr rfl hres hvu
          refine ⟨some (ft i).pa, _, kallocUser_evict hff hpick hfs hq
            ((h.pages.root q r).mp hroot) hwalk hres.valid h.kend_pos (h.pages.range _ (by simp [huser]))
            hwrite, fun hn => (by cases hn), fun pa' hpa' => ?_⟩
          cases hpa'
          exact allocated_evict h hva hff hpick hsame hroot huser hslot hfresh hhealthy hpage

end Xv6.Vm
