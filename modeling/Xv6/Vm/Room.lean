import Xv6.Vm.Rollback
import Xv6.Vm.UserCopy

/-!
# Vm — Room

When a page can be brought into memory, and when each of several pages can.

Whether it can depends on the free pages, the frame table, the slots and the page tables, and not on what
the pages hold.  So bytes that are stored between two page-ins make no difference to the second.

* `NoRoom`, `vmfault_zero_iff`: below the size `vmfault` returns 0 just when there is no room for the page.
* `SameButBytes`, `fetchPage_blind`: kernels that differ in the bytes only.
* `RoomFor`: room for some pages, one after the other.
* `copyinLoop_room`, `copyoutRun_room`: how far a call gets.
-/

namespace Xv6.Vm
open Xv6.Lib
open Xv6.Raid (Page zeroPage PGSIZE BLOCKS_PER_PAGE MAX_SWAP Healthy)

variable {own own' : Nat → Owner} {lim : Nat → Nat} {s s' t t' : Kernel} {p q : ProcId}
  {r v pa va : Nat}

/-! ### When there is no room -/

/-- Page `v` is not in memory and cannot be brought in: there are not the page-table pages for it,
or not the page besides, or no entry and no slot is free. -/
def NoRoom (s : Kernel) (r v : Nat) : Prop :=
  (s.pte r v).has PTE_V = false ∧
    (s.freelist.length < tablesMissing s r (v * PGSIZE) ∨
      (freeFrame s.frameTable ≠ none ∧ s.freelist.length ≤ tablesMissing s r (v * PGSIZE)) ∨
      (freeFrame s.frameTable = none ∧ freeSlot s = none))

instance (s : Kernel) (r v : Nat) : Decidable (NoRoom s r v) := inferInstanceAs (Decidable (_ ∧ _))

/-- A page with an entry has its tables. -/
theorem tablesMissing_of_pte {n : Nat} (ht : TableOk (s.tables r) n) (hne : s.pte r v ≠ 0) :
    tablesMissing s r (v * PGSIZE) = 0 := by
  have h0 := ht.pte_l0 v hne
  have h1 := ht.l0_l1 _ h0
  have hk0 : v * PGSIZE / 2 ^ 21 = v / 512 := by
    simp only [PGSIZE]
    omega
  have hk1 : v * PGSIZE / 2 ^ 30 = v / 512 / 512 := by
    simp only [PGSIZE]
    omega
  rw [tablesMissing, hk0, hk1, if_neg (Option.isSome_iff_ne_none.mp h0),
    if_neg (Option.isSome_iff_ne_none.mp h1)]

/-- Without a page from `kalloc_user`, a fault for a page that is not valid returns 0. -/
theorem serveFault_none (hval : (s.pte r v).has PTE_V = false)
    (hk : kallocUser s p (v * PGSIZE) = .ok (none, s')) : serveFault s p r v = .ok (0, s') := by
  cases hsw : (s.pte r v).has PTE_SWAPPED with
  | true =>
      simp only [serveFault, if_pos hsw, hk, ok_bind]
      rfl
  | false =>
      simp only [serveFault, hsw, hval, Bool.false_eq_true, if_false, Bool.not_false, if_true, hk,
        ok_bind]
      rfl

theorem serveFault_zero_iff {res : Nat} (h : Settled own lim s) (hr : own r = .root p)
    (hv : v < lim r) (hrun : serveFault s p r v = .ok (res, s')) : res = 0 ↔
    (s.pte r v).has PTE_V = false ∧ ((freeFrame s.frameTable ≠ none ∧ s.freelist = []) ∨
      (freeFrame s.frameTable = none ∧ freeSlot s = none)) := by
  have hvict := h.wf.victimOk h.noHeld h.noNew p
  obtain ⟨mem, s₁, hk, -⟩ := kallocUser_spec h.wf (page_mod v) hvict
  constructor
  · rintro rfl
    obtain ⟨hval, hnone⟩ := serveFault_failed h.wf hr h.noHeld h.noNew hv hrun
    refine ⟨hval, ?_⟩
    rcases kallocUser_cases h.wf hvict hnone with ⟨-, hff, hnil, -⟩ | ⟨-, hff, hfs, -⟩ | ⟨hne, -⟩ |
      ⟨hne, -⟩
    · exact Or.inl ⟨hff, hnil⟩
    · exact Or.inr ⟨hff, hfs⟩
    · exact absurd rfl hne
    · exact absurd rfl hne
  · rintro ⟨hval, hroom⟩
    have hnone : mem = none := by
      rcases kallocUser_cases h.wf hvict hk with ⟨hm, -⟩ | ⟨hm, -⟩ | ⟨-, hff, hlen⟩ | ⟨-, hff, hfs, -⟩
      · exact hm
      · exact hm
      · rcases hroom with ⟨-, hnil⟩ | ⟨hnone, -⟩
        · rw [hnil] at hlen
          cases hlen
        · exact absurd hnone hff
      · rcases hroom with ⟨hne, -⟩ | ⟨-, hnone⟩
        · exact absurd hff hne
        · exact absurd hnone hfs
    subst hnone
    cases hrun.symm.trans (serveFault_none hval hk)
    rfl

/-- **The result of `vmfault`** is 0 just when there is no room for the page. -/
theorem vmfault_zero_iff {res : Nat} (h : Settled own lim s) (hr : own r = .root p)
    (hva : pgRoundDown va < (s.procs p).sz) (hrun : vmfault s p r va = .ok (res, s')) :
    res = 0 ↔ NoRoom s r (va / PGSIZE) := by
  have htab : IsTable own r := ⟨p, Or.inl hr⟩
  have hmax : va / PGSIZE * PGSIZE < MAXVA := by
    have := h.sz_lt p
    simp only [pgRoundDown, MAXVA] at *
    omega
  have hv : va / PGSIZE < lim r := by
    rw [h.sized p r hr]
    exact page_lt_npages.mp hva
  obtain ⟨found, s₁, own₁, hw, hwf₁, hk₁, hyes, hno⟩ := walkAlloc_spec h.wf htab hmax
  obtain ⟨s₂, hw', -, hlen⟩ := walkAlloc_found (h.wf.pages.table r htab) hmax
  cases hw.symm.trans hw'
  have hlt : ¬ va / PGSIZE * PGSIZE ≥ (s.procs p).sz := not_le.mpr hva
  rw [vmfault_eq, if_neg hlt, hw, ok_bind] at hrun
  by_cases hmiss : tablesMissing s r (va / PGSIZE * PGSIZE) ≤ s.freelist.length
  · simp only [hmiss, decide_true, Bool.not_true, Bool.false_eq_true, if_false] at hrun
    have hset₁ : Settled own₁ lim s₁ :=
      h.of_keeps hwf₁ (hk₁.keeps h.wf (hyes (decide_eq_true hmiss)).1.ge) (hk₁.noHeld h.noHeld)
    -- the missing tables have taken their pages from the free list
    have hempty : s₁.freelist = [] ↔
        s.freelist.length ≤ tablesMissing s r (va / PGSIZE * PGSIZE) := by
      rw [← List.length_eq_zero_iff, hlen, Nat.sub_eq_zero_iff_le]
    have hslot : freeSlot s₁ = freeSlot s := by rw [freeSlot, hk₁.swapSpace, freeSlot]
    rw [serveFault_zero_iff hset₁ ((hk₁.roots p r).1.mpr hr) hv hrun, hk₁.pte, hk₁.frameTable,
      hempty, hslot, NoRoom]
    exact and_congr_right fun _ => ⟨Or.inr, fun hn => hn.resolve_left (not_lt.mpr hmiss)⟩
  · simp only [hmiss, decide_false, Bool.not_false, if_true] at hrun
    cases hrun
    refine iff_of_true rfl ⟨?_, Or.inl (not_le.mp hmiss)⟩
    by_contra hval
    rw [Bool.not_eq_false] at hval
    have hne : s.pte r (va / PGSIZE) ≠ 0 := fun h0 => by
      rw [h0] at hval
      cases hval
    exact hmiss (tablesMissing_of_pte (h.wf.pages.table r htab) hne ▸ Nat.zero_le _)

/-- Fetching a page below the size fails just when there is no room for it. -/
theorem fetchPage_zero_iff {res : Nat} (h : Settled own lim s) (hr : own r = .root p)
    (hv : v < npages (s.procs p).sz) (hrun : fetchPage s p r (v * PGSIZE) = .ok (res, s')) :
    res = 0 ↔ NoRoom s r v := by
  by_cases hacc : Accessible s r (v * PGSIZE / PGSIZE)
  · obtain ⟨pa, hwalk, hpa, -, -⟩ := walkaddr_accessible h hr hacc
    rw [page_div] at hacc
    simp only [fetchPage, hwalk, ok_bind, if_neg hpa] at hrun
    cases hrun
    exact iff_of_false hpa fun hno => by cases hno.1.symm.trans hacc.2.1
  · have hfetch : fetchPage s p r (v * PGSIZE) = vmfault s p r (v * PGSIZE) := by
      simp only [fetchPage, walkaddr_refused h hr hacc, ok_bind, if_true]
    rw [hfetch] at hrun
    have hlt : pgRoundDown (v * PGSIZE) < (s.procs p).sz := by
      rw [pgRoundDown, page_div]
      exact page_lt_npages.mpr hv
    have hzero := vmfault_zero_iff h hr hlt hrun
    rwa [page_div] at hzero

/-! ### Kernels that differ in the bytes -/

/-- The kernel with other bytes in its memory and on its disks. -/
def withBytes (s : Kernel) (m : Nat → Page) (d : Raid.State) : Kernel := { s with mem := m, raid := d }

def SameButBytes (s t : Kernel) : Prop := ∃ m d, t = withBytes s m d

theorem SameButBytes.refl (s : Kernel) : SameButBytes s s := ⟨s.mem, s.raid, rfl⟩

/-- What a function returns, and the rest of the kernel, do not depend on the bytes. -/
def Blind {α : Type} (f : Kernel → α × Kernel) : Prop :=
  ∀ s t, SameButBytes s t → (f s).1 = (f t).1 ∧ SameButBytes (f s).2 (f t).2

/-- The same of two runs, if neither panics. -/
def SameRuns {α : Type} (x y : Except String (α × Kernel)) : Prop :=
  ∀ a s b t, x = .ok (a, s) → y = .ok (b, t) → a = b ∧ SameButBytes s t

theorem sameRuns_ok {α : Type} {a : α} (h : SameButBytes s t) :
    SameRuns (.ok (a, s)) (.ok (a, t)) := by
  intro _ _ _ _ hx hy
  cases hx
  cases hy
  exact ⟨rfl, h⟩

theorem Blind.sameRuns {α : Type} {f : Kernel → α × Kernel} (hf : Blind f) (h : SameButBytes s t) :
    SameRuns (.ok (f s)) (.ok (f t)) := by
  intro a s' b t' hx hy
  have hft := hf s t h
  rw [Except.ok.inj hx, Except.ok.inj hy] at hft
  exact hft

theorem sameRuns_error {α : Type} {e : String} {y : Except String (α × Kernel)} : SameRuns (.error e) y :=
  fun _ _ _ _ hx _ => by cases hx

theorem SameRuns.bind {α β : Type} {x y : Except String (α × Kernel)}
    {f g : α × Kernel → Except String (β × Kernel)} (h : SameRuns x y)
    (hfg : ∀ a s t, SameButBytes s t → SameRuns (f (a, s)) (g (a, t))) : SameRuns (x >>= f) (y >>= g) := by
  intro b s b' t hx hy
  obtain ⟨⟨a, s₁⟩, hx₁, hx⟩ := bind_eq_ok.mp hx
  obtain ⟨⟨a', t₁⟩, hy₁, hy⟩ := bind_eq_ok.mp hy
  obtain ⟨rfl, hst⟩ := h a s₁ a' t₁ hx₁ hy₁
  exact hfg a s₁ t₁ hst b s b' t hx hy

/-- The same of functions that return the kernel alone. -/
def SameStates (x y : Except String Kernel) : Prop := ∀ s t, x = .ok s → y = .ok t → SameButBytes s t

theorem sameStates_ok (h : SameButBytes s t) : SameStates (.ok s) (.ok t) := by
  intro _ _ hx hy
  cases hx
  cases hy
  exact h

theorem SameStates.bind {β : Type} {x y : Except String Kernel}
    {f g : Kernel → Except String (β × Kernel)} (h : SameStates x y)
    (hfg : ∀ s t, SameButBytes s t → SameRuns (f s) (g t)) : SameRuns (x >>= f) (y >>= g) := by
  intro b s b' t hx hy
  obtain ⟨s₁, hx₁, hx⟩ := bind_eq_ok.mp hx
  obtain ⟨t₁, hy₁, hy⟩ := bind_eq_ok.mp hy
  exact hfg s₁ t₁ (h s₁ t₁ hx₁ hy₁) b s b' t hx hy

theorem kalloc_blind : Blind kalloc := by
  rintro s _ ⟨m, d, rfl⟩
  have hfree : (withBytes s m d).freelist = s.freelist := rfl
  simp only [kalloc, hfree]
  cases s.freelist with
  | nil => exact ⟨rfl, m, d, rfl⟩
  | cons pa rest => exact ⟨rfl, Function.update m pa fun _ => 5, d, rfl⟩

/-- `kalloc`, and then something that depends on its result alone. -/
theorem kalloc_match_blind {α : Type} {none' : Kernel → α × Kernel} {some' : Nat → Kernel → α × Kernel}
    (hnone : Blind none') (hsome : ∀ pa, Blind (some' pa)) : Blind fun s =>
      match kalloc s with
      | (none, s) => none' s
      | (some pa, s) => some' pa s := by
  intro s t hst
  obtain ⟨hres, hafter⟩ := kalloc_blind s t hst
  dsimp only
  generalize kalloc s = x at *
  generalize kalloc t = y at *
  obtain ⟨x, s⟩ := x
  obtain ⟨y, t⟩ := y
  cases hres
  cases x with
  | none => exact hnone s t hafter
  | some pa => exact hsome pa s t hafter

theorem walkL1_blind (r k : Nat) : Blind fun s => walkL1 s r k := by
  intro s t hst
  have htab : (t.tables r).l1 k = (s.tables r).l1 k := by
    obtain ⟨m, d, rfl⟩ := hst
    rfl
  simp only [walkL1, htab]
  cases (s.tables r).l1 k with
  | some _ => exact ⟨rfl, hst⟩
  | none =>
      refine kalloc_match_blind (fun s t hst => ⟨rfl, hst⟩) (fun pa => ?_) s t hst
      rintro s _ ⟨m, d, rfl⟩
      exact ⟨rfl, m, d, rfl⟩

theorem walkL0_blind (r k : Nat) : Blind fun s => walkL0 s r k := by
  intro s t hst
  have htab : (t.tables r).l0 k = (s.tables r).l0 k := by
    obtain ⟨m, d, rfl⟩ := hst
    rfl
  simp only [walkL0, htab]
  cases (s.tables r).l0 k with
  | some _ => exact ⟨rfl, hst⟩
  | none =>
      refine kalloc_match_blind (fun s t hst => ⟨rfl, hst⟩) (fun pa => ?_) s t hst
      rintro s _ ⟨m, d, rfl⟩
      exact ⟨rfl, m, d, rfl⟩

theorem walkAlloc_blind (hst : SameButBytes s t) (r va : Nat) : SameRuns (walkAlloc s r va) (walkAlloc t r va) := by
  rw [walkAlloc, walkAlloc]
  by_cases hva : va ≥ MAXVA
  · rw [if_pos hva, if_pos hva]
    exact sameRuns_error
  · rw [if_neg hva, if_neg hva]
    obtain ⟨hres, hafter⟩ := walkL1_blind r (va / 2 ^ 30) s t hst
    beta_reduce at hres hafter
    generalize walkL1 s r (va / 2 ^ 30) = x at *
    generalize walkL1 t r (va / 2 ^ 30) = y at *
    obtain ⟨x, s₁⟩ := x
    obtain ⟨y, t₁⟩ := y
    cases hres
    cases x with
    | false => exact sameRuns_ok hafter
    | true =>
        exact (walkL0_blind r (va / 2 ^ 21)).sameRuns hafter

theorem fillFrame_blind (i : Fin MAX_FRAMES) : Blind fun s => fillFrame s i :=
  kalloc_match_blind
    (by
      rintro s _ ⟨m, d, rfl⟩
      exact ⟨rfl, m, d, rfl⟩)
    (by
      rintro pa s _ ⟨m, d, rfl⟩
      exact ⟨rfl, m, d, rfl⟩)

theorem swapAlloc_blind : Blind swapAlloc := by
  rintro s _ ⟨m, d, rfl⟩
  have hsw : (withBytes s m d).swapSpace = s.swapSpace := rfl
  simp only [swapAlloc, hsw]
  cases (List.range MAX_SWAP).find? fun i => !(s.swapSpace i).used with
  | none => exact ⟨rfl, m, d, rfl⟩
  | some i => exact ⟨rfl, m, d, rfl⟩

theorem swapWrite_blind (hst : SameButBytes s t) (slot pa : Nat) (victim : Option ProcId) (va : Nat)
    (creditor : ProcId) :
    SameStates (swapWrite s slot pa victim va creditor) (swapWrite t slot pa victim va creditor) := by
  obtain ⟨m, d, rfl⟩ := hst
  intro s' t' hx hy
  by_cases hpa : pa = 0
  · rw [swapWrite, if_pos hpa] at hx
    cases hx
  · simp only [swapWrite, if_neg hpa] at hx hy
    obtain ⟨d₁, -, hx⟩ := bind_eq_ok.mp hx
    obtain ⟨d₂, -, hy⟩ := bind_eq_ok.mp hy
    cases hx
    cases hy
    exact ⟨m, d₂, rfl⟩

theorem swapRead_blind (hst : SameButBytes s t) (slot pa : Nat) (creditor : ProcId) :
    SameStates (swapRead s slot pa creditor) (swapRead t slot pa creditor) := by
  obtain ⟨m, d, rfl⟩ := hst
  intro s' t' hx hy
  obtain ⟨page₁, -, hx⟩ := bind_eq_ok.mp hx
  obtain ⟨page₂, -, hy⟩ := bind_eq_ok.mp hy
  cases hx
  cases hy
  exact ⟨Function.update m pa page₂, d, rfl⟩

theorem kfree_blind (hst : SameButBytes s t) (pa : Nat) : SameStates (kfree s pa) (kfree t pa) := by
  obtain ⟨m, d, rfl⟩ := hst
  rw [kfree, kfree]
  have hkend : (withBytes s m d).kend = s.kend := rfl
  rw [hkend]
  split
  · intro _ _ hx
    cases hx
  · exact sameStates_ok ⟨Function.update m pa fun _ => 1, d, rfl⟩

theorem walk_blind (hst : SameButBytes s t) (r va : Nat) : walk t r va = walk s r va := by
  obtain ⟨m, d, rfl⟩ := hst
  rfl

/-- The victim's entry and its counters. -/
theorem swapOutEntry_blind (hst : SameButBytes s t) (q : ProcId) (vva slot : Nat) :
    SameStates (swapOutEntry s q vva slot) (swapOutEntry t q vva slot) := by
  obtain ⟨m, d, rfl⟩ := hst
  have hpt : ((withBytes s m d).procs q).pagetable = (s.procs q).pagetable := rfl
  rw [swapOutEntry, swapOutEntry, hpt]
  cases (s.procs q).pagetable with
  | none => exact sameStates_ok ⟨m, d, rfl⟩
  | some r =>
      intro s' t' hx hy
      obtain ⟨e, he, hx⟩ := bind_eq_ok.mp hx
      obtain ⟨e', he', hy⟩ := bind_eq_ok.mp hy
      rw [walk_blind ⟨m, d, rfl⟩, he] at he'
      cases he'
      cases e with
      | none =>
          cases hx
          cases hy
          exact ⟨m, d, rfl⟩
      | some e =>
          simp only at hx hy
          split at hx
          · next hval =>
              rw [if_pos hval] at hy
              cases hx
              cases hy
              exact ⟨m, d, rfl⟩
          · next hval =>
              rw [if_neg hval] at hy
              cases hx
              cases hy
              exact ⟨m, d, rfl⟩

/-- The page of the victim is freed, and the frame is filled. -/
theorem refill_blind (hst : SameButBytes s t) (pa : Nat) (i : Fin MAX_FRAMES) :
    SameRuns (kfree s pa >>= fun s => .ok (fillFrame s i)) (kfree t pa >>= fun t => .ok (fillFrame t i)) :=
  (kfree_blind hst pa).bind fun _ _ h => (fillFrame_blind i).sameRuns h

theorem kallocUser_blind (hst : SameButBytes s t) (p : ProcId) (va : Nat) :
    SameRuns (kallocUser s p va) (kallocUser t p va) := by
  have hft : t.frameTable = s.frameTable := by
    obtain ⟨m, d, rfl⟩ := hst
    rfl
  have hhand : t.clockHand = s.clockHand := by
    obtain ⟨m, d, rfl⟩ := hst
    rfl
  rw [kallocUser, kallocUser, hft, hhand]
  cases freeFrame s.frameTable with
  | some i =>
      refine (fillFrame_blind i).sameRuns ?_
      obtain ⟨m, d, rfl⟩ := hst
      exact ⟨m, d, rfl⟩
  | none =>
      cases clockPickVictim s.frameTable s.clockHand p with
      | error e => exact sameRuns_error
      | ok x =>
          obtain ⟨victim, ft, hand⟩ := x
          simp only [ok_bind]
          have hclaim : SameButBytes (claimFrame { s with frameTable := ft, clockHand := hand } victim p va 0)
              (claimFrame { t with frameTable := ft, clockHand := hand } victim p va 0) := by
            obtain ⟨m, d, rfl⟩ := hst
            exact ⟨m, d, rfl⟩
          -- both sides take the same slot for the same victim
          obtain ⟨hres, hafter⟩ := swapAlloc_blind _ _ hclaim
          generalize swapAlloc (claimFrame { s with frameTable := ft, clockHand := hand } victim p va 0) = x at *
          generalize swapAlloc (claimFrame { t with frameTable := ft, clockHand := hand } victim p va 0) = y at *
          obtain ⟨x, s₁⟩ := x
          obtain ⟨y, t₁⟩ := y
          cases hres
          cases x with
          | none =>
              refine sameRuns_ok ?_
              obtain ⟨m, d, rfl⟩ := hafter
              exact ⟨m, d, rfl⟩
          | some slot =>
              refine (swapWrite_blind hafter slot _ _ _ p).bind fun s₂ t₂ h₂ => ?_
              cases (ft victim).proc with
              | none => exact refill_blind h₂ _ victim
              | some q =>
                  refine (swapOutEntry_blind h₂ q _ slot).bind fun s₃ t₃ h₃ => refill_blind ?_ _ victim
                  obtain ⟨m, d, rfl⟩ := h₃
                  exact ⟨m, d, rfl⟩

theorem serveFault_blind (hst : SameButBytes s t) (p : ProcId) (r v : Nat) :
    SameRuns (serveFault s p r v) (serveFault t p r v) := by
  have hpte : t.pte r v = s.pte r v := by
    obtain ⟨m, d, rfl⟩ := hst
    rfl
  have hft : t.frameTable = s.frameTable := by
    obtain ⟨m, d, rfl⟩ := hst
    rfl
  rw [serveFault, serveFault, hpte, hft]
  split
  · refine (kallocUser_blind hst p _).bind fun mem s₁ t₁ h₁ => ?_
    cases mem with
    | none => exact sameRuns_ok h₁
    | some mem =>
        refine (swapRead_blind h₁ _ mem p).bind fun s₂ t₂ h₂ => ?_
        obtain ⟨m, d, rfl⟩ := h₂
        exact sameRuns_ok ⟨m, d, rfl⟩
  · split
    · refine (kallocUser_blind hst p _).bind fun mem s₁ t₁ h₁ => ?_
      cases mem with
      | none => exact sameRuns_ok h₁
      | some mem =>
          obtain ⟨m, d, rfl⟩ := h₁
          exact sameRuns_ok ⟨Function.update m mem zeroPage, d, rfl⟩
    · split
      · exact sameRuns_ok hst
      · obtain ⟨m, d, rfl⟩ := hst
        exact sameRuns_ok ⟨m, d, rfl⟩

theorem vmfault_blind (hst : SameButBytes s t) (p : ProcId) (r va : Nat) :
    SameRuns (vmfault s p r va) (vmfault t p r va) := by
  have hsz : (t.procs p).sz = (s.procs p).sz := by
    obtain ⟨m, d, rfl⟩ := hst
    rfl
  rw [vmfault_eq, vmfault_eq, hsz]
  split
  · exact sameRuns_ok hst
  · refine (walkAlloc_blind hst r _).bind fun found s₁ t₁ h₁ => ?_
    dsimp only
    split
    · exact sameRuns_ok h₁
    · exact serveFault_blind h₁ p r _

/-- **Fetching a page** does not depend on the bytes. -/
theorem fetchPage_blind (hst : SameButBytes s t) (p : ProcId) (r va : Nat) :
    SameRuns (fetchPage s p r va) (fetchPage t p r va) := by
  have hwalk : walkaddr t r va = walkaddr s r va := by
    rw [walkaddr, walkaddr, walk_blind hst]
  rw [fetchPage, fetchPage, hwalk]
  cases walkaddr s r va with
  | error e => exact sameRuns_error
  | ok pa0 =>
      simp only [ok_bind]
      split
      · exact vmfault_blind hst p r va
      · exact sameRuns_ok hst

theorem noRoom_blind (hst : SameButBytes s t) : NoRoom t r v ↔ NoRoom s r v := by
  obtain ⟨m, d, rfl⟩ := hst
  exact Iff.rfl

/-! ### Room for several pages -/

/-- There is room for each of `n` pages from page `v` on, when they are brought in one after the other. -/
def RoomFor (p : ProcId) (r : Nat) : Nat → Nat → Kernel → Prop
  | 0, _, _ => True
  | n + 1, v, s => ¬ NoRoom s r v ∧
      ∀ pa s', fetchPage s p r (v * PGSIZE) = .ok (pa, s') → RoomFor p r n (v + 1) s'

theorem RoomFor.of_le {n m : Nat} : ∀ {v : Nat} {s : Kernel}, RoomFor p r n v s → m ≤ n → RoomFor p r m v s := by
  induction m generalizing n with
  | zero => exact fun _ _ => trivial
  | succ m ih =>
      intro v s h hle
      obtain ⟨n, rfl⟩ := Nat.exists_eq_add_of_le' (Nat.zero_lt_of_lt hle)
      exact ⟨h.1, fun pa s' hf => ih (h.2 pa s' hf) (Nat.le_of_succ_le_succ hle)⟩

/-- What the pages hold makes no difference. -/
theorem roomFor_blind (n : Nat) : ∀ (own own₁ : Nat → Owner) (v : Nat) (s t : Kernel), Settled own lim s →
    own r = .root p → Settled own₁ lim t → own₁ r = .root p → SameButBytes s t →
    (RoomFor p r n v t ↔ RoomFor p r n v s) := by
  induction n with
  | zero => exact fun _ _ _ _ _ _ _ _ _ _ => Iff.rfl
  | succ n ih =>
      intro own own₁ v s t h hr h₁ hr₁ hst
      obtain ⟨res, s', own', hs, hset, hk, -⟩ := fetchPage_spec (v := v) h hr
      obtain ⟨res₁, t', own₁', ht, hset₁, hk₁, -⟩ := fetchPage_spec (v := v) h₁ hr₁
      -- after the page has been fetched on both sides, the kernels still differ in the bytes only
      obtain ⟨-, hafter⟩ := fetchPage_blind hst p r _ _ _ _ _ hs ht
      have hrest := ih own' own₁' (v + 1) s' t' hset ((hk.roots p r).1.mpr hr) hset₁
        ((hk₁.roots p r).1.mpr hr₁) hafter
      rw [RoomFor, RoomFor, noRoom_blind hst]
      refine and_congr_right fun _ => ⟨fun hall pa s'' hf => ?_, fun hall pa t'' hf => ?_⟩
      · cases hs.symm.trans hf
        exact hrest.mp (hall _ _ ht)
      · cases ht.symm.trans hf
        exact hrest.mpr (hall _ _ hs)

/-- There is room for the page of `va + i`, when the pages from that of `va` to it are brought in one after the
other. -/
def RoomTo (p : ProcId) (r va i : Nat) (s : Kernel) : Prop :=
  RoomFor p r ((va + i) / PGSIZE + 1 - va / PGSIZE) (va / PGSIZE) s

theorem RoomTo.of_le {i j : Nat} (h : RoomTo p r va i s) (hji : j ≤ i) : RoomTo p r va j s := by
  refine RoomFor.of_le h ?_
  simp only [PGSIZE]
  omega

/-- In the first page. -/
theorem roomTo_first {i len : Nat} (hi : i < turnLen va len) :
    RoomTo p r va i s ↔ ¬ NoRoom s r (va / PGSIZE) := by
  rw [RoomTo, turnLen_page hi, Nat.add_sub_cancel_left]
  exact and_iff_left fun _ _ _ => trivial

/-- After the first page. -/
theorem roomTo_next {i len : Nat} (hi : i < len - turnLen va len)
    (hfetch : fetchPage s p r (va / PGSIZE * PGSIZE) = .ok (pa, s')) (hroom : ¬ NoRoom s r (va / PGSIZE)) :
    RoomTo p r va (turnLen va len + i) s ↔ RoomTo p r (va / PGSIZE * PGSIZE + PGSIZE) i s' := by
  have hnext : va / PGSIZE * PGSIZE + PGSIZE = va + turnLen va len := turnLen_next (by omega)
  have hpage : (va / PGSIZE * PGSIZE + PGSIZE) / PGSIZE = va / PGSIZE + 1 := by
    simp only [PGSIZE]
    omega
  have hle : va / PGSIZE + 1 ≤ (va / PGSIZE * PGSIZE + PGSIZE + i) / PGSIZE := by
    rw [← hpage]
    exact Nat.div_le_div_right (Nat.le_add_right _ _)
  rw [RoomTo, RoomTo, hpage, ← Nat.add_assoc, ← hnext,
    show (va / PGSIZE * PGSIZE + PGSIZE + i) / PGSIZE + 1 - va / PGSIZE =
      (va / PGSIZE * PGSIZE + PGSIZE + i) / PGSIZE + 1 - (va / PGSIZE + 1) + 1 by omega]
  refine ⟨fun h => h.2 pa s' hfetch, fun h => ⟨hroom, fun pa' s'' hf => ?_⟩⟩
  cases hfetch.symm.trans hf
  exact h

/-- A call for the bytes at `va` has moved `k` of them: there was room for their pages.  When it has stopped at
a page below the size that satisfies `W`, there was none for that. -/
structure Housed (m : FlatProc) (W : Pte → Bool) (p : ProcId) (r va k : Nat) (ok : Bool) (s : Kernel) : Prop where
  moved : ∀ i, i < k → RoomTo p r va i s
  stop : ok = false → (va + k) / PGSIZE < npages m.sz → W (m.perm ((va + k) / PGSIZE)) = true →
    ¬ RoomTo p r va k s

section Housed

variable {m : FlatProc} {W : Pte → Bool} {len k : Nat} {ok : Bool}

theorem housed_nothing (hstop : ok = false → va / PGSIZE < npages m.sz → W (m.perm (va / PGSIZE)) = true →
    NoRoom s r (va / PGSIZE)) : Housed m W p r va 0 ok s := by
  refine ⟨fun i hi => absurd hi (Nat.not_lt_zero i), fun hok hv hW hroom => ?_⟩
  rw [Nat.add_zero] at hv hW
  exact (roomTo_first (turnLen_pos Nat.one_pos)).mp hroom (hstop hok hv hW)

/-- One turn, and the rest of the call. -/
theorem Housed.turn (hfetch : fetchPage s p r (va / PGSIZE * PGSIZE) = .ok (pa, s'))
    (hroom : ¬ NoRoom s r (va / PGSIZE))
    (hle : k ≤ len - turnLen va len) (hstop : ok = false → k < len - turnLen va len)
    (h : Housed m W p r (va / PGSIZE * PGSIZE + PGSIZE) k ok s') :
    Housed m W p r va (turnLen va len + k) ok s := by
  refine ⟨fun i hi => ?_, fun hok hv hW => ?_⟩
  · by_cases hturn : i < turnLen va len
    · exact (roomTo_first hturn).mpr hroom
    · obtain ⟨j, rfl⟩ := Nat.exists_eq_add_of_le (not_lt.mp hturn)
      exact (roomTo_next (by omega) hfetch hroom).mpr (h.moved j (by omega))
  · have hlt := hstop hok
    rw [roomTo_next hlt hfetch hroom]
    have hturn : va / PGSIZE * PGSIZE + PGSIZE = va + turnLen va len := turnLen_next (by omega)
    rw [← Nat.add_assoc, ← hturn] at hv hW
    exact h.stop hok hv hW

/-- The bytes that a turn stores make no difference. -/
theorem Housed.of_storeBytes {dstva : Nat} {bytes : List UInt8} (h : Settled own lim s) (hr : own r = .root p)
    (hv : dstva / PGSIZE < npages (s.procs p).sz) (hres : Resident (s.pte r (dstva / PGSIZE)) pa)
    (hlen : bytes.length ≤ PGSIZE - dstva % PGSIZE)
    (hh : Housed (flatMem (storeBytes s pa (dstva % PGSIZE) bytes) p) W p r va k ok
      (storeBytes s pa (dstva % PGSIZE) bytes)) : Housed (flatMem s p) W p r va k ok s := by
  have hst : SameButBytes s (storeBytes s pa (dstva % PGSIZE) bytes) := ⟨_, _, rfl⟩
  have hroom : ∀ i, RoomTo p r va i (storeBytes s pa (dstva % PGSIZE) bytes) ↔ RoomTo p r va i s :=
    fun i => roomFor_blind _ own own _ _ _ h hr (h.setPage pa _) hr hst
  rw [flatMem_storeBytes h hr hv hres hlen, Function.update_self] at hh
  refine ⟨fun i hi => (hroom i).mp (hh.moved i hi), fun hok hpage hW hto => ?_⟩
  exact hh.stop hok hpage hW ((hroom k).mpr hto)

end Housed

/-- **`copyin`** goes on as long as there is room. -/
theorem copyinLoop_room : ∀ (n : Nat) (own : Nat → Owner) (s : Kernel) (srcva len : Nat), len < n →
    Settled own lim s → own r = .root p → ∀ ok bytes s',
    copyinLoop p r n s srcva len = .ok ((ok, bytes), s') →
    Housed (flatMem s p) (fun _ => true) p r srcva bytes.length ok s := by
  intro n
  induction n with
  | zero => exact fun _ _ _ _ hlt => absurd hlt (Nat.not_lt_zero _)
  | succ n ih =>
      intro own s srcva len hlt h hr ok bytes s' hrun
      have hsz := flatMem_sz ⟨own, lim, h⟩ p
      rw [copyinLoop] at hrun
      by_cases hlen : len = 0
      · rw [if_pos hlen] at hrun
        cases hrun
        exact housed_nothing fun hok => by cases hok
      obtain ⟨res, s₁, own₁, hfetch, hset₁, hk₁, hgiven, -⟩ := fetchPage_spec (v := srcva / PGSIZE) h hr
      have hfetch' : fetchPage s p r (pgRoundDown srcva) = .ok (res, s₁) := hfetch
      simp only [if_neg hlen, hfetch', ok_bind] at hrun
      by_cases hres : res = 0
      · rw [if_pos hres] at hrun
        cases hrun
        refine housed_nothing fun _ hv _ => ?_
        rw [hsz] at hv
        exact (fetchPage_zero_iff h hr hv hfetch).mp hres
      rw [if_neg hres] at hrun
      obtain ⟨hv, -⟩ := hgiven hres
      have hr₁ : own₁ r = .root p := (hk₁.roots p r).1.mpr hr
      have hpos := Nat.pos_of_ne_zero hlen
      have hturn : 0 < turnLen srcva len := turnLen_pos hpos
      have hlen' : min (PGSIZE - (srcva - pgRoundDown srcva)) len = turnLen srcva len := by
        rw [sub_pgRoundDown]
        rfl
      rw [hlen'] at hrun
      obtain ⟨ok₂, k, s₂, own₂, hrest, -, -, hmoved⟩ := copyinLoop_spec n own₁ s₁
        (srcva / PGSIZE * PGSIZE + PGSIZE) (len - turnLen srcva len) (by omega) hset₁ hr₁
      have hhoused := ih own₁ s₁ _ _ (by omega) hset₁ hr₁ _ _ _ hrest
      have hrest : copyinLoop p r n s₁ (pgRoundDown srcva + PGSIZE) (len - turnLen srcva len) = _ := hrest
      rw [hrest, ok_bind] at hrun
      cases hrun
      rw [FlatProc.length_read, flatMem_keeps h hk₁] at hhoused
      rw [List.length_append, FlatProc.length_read, loadBytes, List.length_map, List.length_range]
      exact hhoused.turn hfetch (fun hno => hres ((fetchPage_zero_iff h hr hv hfetch).mpr hno)) hmoved.le
        fun hok => (hmoved.stop hok).1

/-- **`copyout`** goes on as long as there is room and the pages are to be written. -/
theorem copyoutRun_room : ∀ (n : Nat) (own : Nat → Owner) (s : Kernel) (dstva : Nat) (src : List UInt8),
    src.length < n → Settled own lim s → own r = .root p → ∀ ok k s',
    copyoutRun p r n s dstva src = .ok ((ok, k), s') →
    Housed (flatMem s p) (fun e => e.has PTE_W) p r dstva k ok s := by
  intro n
  induction n with
  | zero => exact fun _ _ _ _ hlt => absurd hlt (Nat.not_lt_zero _)
  | succ n ih =>
      intro own s dstva src hlt h hr ok k s' hrun
      have hsz := flatMem_sz ⟨own, lim, h⟩ p
      rw [copyoutRun] at hrun
      by_cases hsrc : src = []
      · rw [if_pos hsrc] at hrun
        cases hrun
        exact housed_nothing fun hok => by cases hok
      rw [if_neg hsrc] at hrun
      have hpos : 0 < src.length := List.length_pos_of_ne_nil hsrc
      by_cases hmax : pgRoundDown dstva ≥ MAXVA
      · rw [if_pos hmax] at hrun
        cases hrun
        refine housed_nothing fun _ hv _ => ?_
        have hle := npages_le (h.sz_le p)
        rw [hsz] at hv
        simp only [pgRoundDown, MAXVA, UPAGES, TRAPFRAME, TRAMPOLINE, PGSIZE] at *
        omega
      obtain ⟨res, s₁, own₁, hfetch, hset₁, hk₁, hgiven, -⟩ := fetchPage_spec (v := dstva / PGSIZE) h hr
      have hfetch' : fetchPage s p r (pgRoundDown dstva) = .ok (res, s₁) := hfetch
      simp only [if_neg hmax, hfetch', ok_bind] at hrun
      by_cases hres : res = 0
      · rw [if_pos hres] at hrun
        cases hrun
        refine housed_nothing fun _ hv _ => ?_
        rw [hsz] at hv
        exact (fetchPage_zero_iff h hr hv hfetch).mp hres
      obtain ⟨hv, hresid⟩ := hgiven hres
      obtain ⟨hwalk, hperm⟩ := fetched_perm h hr hset₁ hk₁ hv hresid
      simp only [if_neg hres, hwalk, ok_bind] at hrun
      cases hw : (s₁.pte r (dstva / PGSIZE)).has PTE_W with
      | false =>
          simp only [hw, Bool.not_false, if_true] at hrun
          cases hrun
          exact housed_nothing fun _ _ hW => by cases (hperm.trans hw).symm.trans hW
      | true =>
          simp only [hw, Bool.not_true, Bool.false_eq_true, if_false, sub_pgRoundDown, take_turn,
            drop_turn] at hrun
          have hr₁ : own₁ r = .root p := (hk₁.roots p r).1.mpr hr
          have hturn : 0 < turnLen dstva src.length := turnLen_pos hpos
          have hle : turnLen dstva src.length ≤ src.length := Nat.min_le_right ..
          have hleft : (src.drop (turnLen dstva src.length)).length < n := by
            rw [List.length_drop]
            omega
          have hfits : (src.take (turnLen dstva src.length)).length ≤ PGSIZE - dstva % PGSIZE := by
            rw [← take_turn]
            exact List.length_take_le ..
          obtain ⟨ok₂, j, s₂, own₂, hrest, hout⟩ := copyoutRun_spec n own₁ _
            (dstva / PGSIZE * PGSIZE + PGSIZE) _ hleft (hset₁.setPage res _) hr₁
          have hmoved := hout.moved
          have hhoused := ih own₁ _ _ _ hleft (hset₁.setPage res _) hr₁ _ _ _ hrest
          have hrest : copyoutRun p r n (storeBytes s₁ res (dstva % PGSIZE)
              (src.take (turnLen dstva src.length))) (pgRoundDown dstva + PGSIZE)
              (src.drop (turnLen dstva src.length)) = .ok ((ok₂, j), s₂) := hrest
          rw [hrest, ok_bind] at hrun
          cases hrun
          -- the rest of the call starts from the state with the bytes of this turn stored
          have hhoused₁ := Housed.of_storeBytes hset₁ hr₁ (by rwa [hk₁.procs.sz p]) hresid hfits hhoused
          rw [flatMem_keeps h hk₁] at hhoused₁
          rw [List.length_drop] at hmoved
          rw [List.length_take_of_le hle]
          exact Housed.turn hfetch (fun hno => hres ((fetchPage_zero_iff h hr hv hfetch).mpr hno)) hmoved.le
            (fun hok => (hmoved.stop hok).1) hhoused₁

end Xv6.Vm
