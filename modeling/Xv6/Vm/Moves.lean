import Xv6.Vm.Inv

/-!
# Vm — Moves

How the invariant survives a page, an entry or a slot changing hands.  Each function of the
kernel is a sequence of these moves:

* `Wf.take`: a free page becomes the page of a frame-table entry;
* `Wf.evict`: a resident page becomes a swapped one, and its physical page another allocation's;
* `Wf.map`: a held page is mapped;
* `Wf.drop`, `Wf.dropSlot`: a resident or a swapped page is unmapped;
* `Wf.takeL1`, `Wf.takeL0`: a free page becomes a lower-level table.
-/

namespace Xv6.Vm
open Xv6.Lib
open Xv6.Raid (Page zeroPage PGSIZE BLOCKS_PER_PAGE MAX_SWAP Healthy)

variable {own own' : Nat → Owner} {lim : Nat → Nat} {s s' : Kernel} {p q : ProcId} {r v pa : Nat}

/-! ### What the invariant reads of the processes -/

/-- A process without its counters. -/
def Proc.ident (x : Proc) : Proc :=
  { x with
    pageFaults := 0, pagesEvicted := 0, pagesSwappedIn := 0, pagesSwappedOut := 0,
    residentPages := 0, diskReads := 0, diskWrites := 0, totalDiskLatency := 0, diskOps := 0 }

section Ident

variable {x y : Proc} (h : x.ident = y.ident)

include h

theorem ident_pagetable : x.pagetable = y.pagetable := by
  have := congrArg Proc.pagetable h
  exact this

theorem ident_trapframe : x.trapframe = y.trapframe := by
  have := congrArg Proc.trapframe h
  exact this

theorem ident_sz : x.sz = y.sz := by
  have := congrArg Proc.sz h
  exact this

theorem ident_state : x.state = y.state := by
  have := congrArg Proc.state h
  exact this

end Ident

/-- The processes differ in their counters only, and the constants of the kernel are the same. -/
structure SameProcs (s s' : Kernel) : Prop where
  kend : s'.kend = s.kend
  trampoline : s'.trampoline = s.trampoline
  initproc : s'.initproc = s.initproc
  nextpid : s'.nextpid = s.nextpid
  ident : ∀ p, (s'.procs p).ident = (s.procs p).ident

theorem SameProcs.refl (s : Kernel) : SameProcs s s := ⟨rfl, rfl, rfl, rfl, fun _ => rfl⟩

theorem SameProcs.trans {s₁ s₂ s₃ : Kernel} (h : SameProcs s₁ s₂) (h' : SameProcs s₂ s₃) :
    SameProcs s₁ s₃ :=
  ⟨h'.kend.trans h.kend, h'.trampoline.trans h.trampoline, h'.initproc.trans h.initproc,
    h'.nextpid.trans h.nextpid, fun p => (h'.ident p).trans (h.ident p)⟩

theorem SameProcs.pagetable (h : SameProcs s s') (p : ProcId) :
    (s'.procs p).pagetable = (s.procs p).pagetable := ident_pagetable (h.ident p)

theorem SameProcs.trapframe (h : SameProcs s s') (p : ProcId) :
    (s'.procs p).trapframe = (s.procs p).trapframe := ident_trapframe (h.ident p)

theorem SameProcs.sz (h : SameProcs s s') (p : ProcId) :
    (s'.procs p).sz = (s.procs p).sz := ident_sz (h.ident p)

theorem SameProcs.state (h : SameProcs s s') (p : ProcId) :
    (s'.procs p).state = (s.procs p).state := ident_state (h.ident p)

/-- Changing the counters of one process. -/
theorem sameProcs_setProc (s : Kernel) (p : ProcId) (x : Proc) (h : x.ident = (s.procs p).ident) :
    SameProcs s (setProc s p x) := by
  refine ⟨rfl, rfl, rfl, rfl, fun q => ?_⟩
  by_cases hq : q = p
  · subst hq
    simpa [setProc] using h
  · simp [setProc, hq]

/-! ### Tables under a change of owner -/

/-- The roots are the same. -/
def SameRoots (own own' : Nat → Owner) : Prop := ∀ p r,
  (own' r = .root p ↔ own r = .root p) ∧ (own' r = .newRoot p ↔ own r = .newRoot p)

theorem SameRoots.refl (own : Nat → Owner) : SameRoots own own := fun _ _ => ⟨Iff.rfl, Iff.rfl⟩

theorem SameRoots.trans {o₁ o₂ o₃ : Nat → Owner} (h : SameRoots o₁ o₂) (h' : SameRoots o₂ o₃) :
    SameRoots o₁ o₃ := fun p r =>
  ⟨(h' p r).1.trans (h p r).1, (h' p r).2.trans (h p r).2⟩

theorem SameRoots.owns (h : SameRoots own own') (p : ProcId) (r : Nat) :
    OwnsTable own' p r ↔ OwnsTable own p r := or_congr (h p r).1 (h p r).2

theorem SameRoots.isTable (h : SameRoots own own') (r : Nat) : IsTable own' r ↔ IsTable own r :=
  exists_congr fun p => h.owns p r

/-- Neither the old nor the new owner of `pa` is a root. -/
theorem sameRoots_update {b : Owner} (ha : ∀ p, own pa ≠ .root p ∧ own pa ≠ .newRoot p)
    (hb : ∀ p, b ≠ .root p ∧ b ≠ .newRoot p) : SameRoots own (Function.update own pa b) := by
  intro p r
  by_cases hr : r = pa
  · subst hr
    simp [hb p, ha p]
  · simp [hr]

/-! ### Frames and slots under a change of owner -/

theorem Frames.mono {ft : FrameTable} (h : Frames own ft) (hroots : SameRoots own own')
    (hpa : ∀ i, (ft i).used = true → own' (ft i).pa = own (ft i).pa) : Frames own' ft := by
  refine ⟨fun i hi => ?_, h.inj⟩
  obtain ⟨p, hp, hva, hown⟩ := h.ok i hi
  refine ⟨p, hp, hva, ?_⟩
  rw [hpa i hi]
  exact hown.imp_right fun ⟨r, hr, hu⟩ => ⟨r, (hroots.owns p r).mpr hr, hu⟩

/-- Entries may be forgotten, and their reference bits changed. -/
theorem Frames.sub {ft ft' : FrameTable} (h : Frames own ft)
    (hft : ∀ i, (ft' i).used = true → (ft i).used = true ∧ (ft' i).proc = (ft i).proc ∧
      (ft' i).va = (ft i).va ∧ (ft' i).pa = (ft i).pa) : Frames own ft' := by
  refine ⟨fun i hi => ?_, fun i j hi hj he => ?_⟩
  · obtain ⟨hu, hp, hva, hpa⟩ := hft i hi
    unfold FrameOk
    rw [hp, hva, hpa]
    exact h.ok i hu
  · obtain ⟨hu, -, -, hpa⟩ := hft i hi
    obtain ⟨hu', -, -, hpa'⟩ := hft j hj
    exact h.inj i j hu hu' (by rw [← hpa, ← hpa', he])

/-- The owner of a used entry's page. -/
theorem Frames.owner {ft : FrameTable} (h : Frames own ft) {i : Fin MAX_FRAMES}
    (hi : (ft i).used = true) :
    (∃ p va, own (ft i).pa = .held p va) ∨ ∃ r v, own (ft i).pa = .user r v := by
  obtain ⟨p, -, -, hh | ⟨r, -, hu⟩⟩ := h.ok i hi
  · exact Or.inl ⟨p, _, hh⟩
  · exact Or.inr ⟨r, _, hu⟩

theorem Slots.mono (h : Slots own s) (hroots : SameRoots own own')
    (hpte : ∀ r, IsTable own r → ∀ v, v < UPAGES → s'.pte r v = s.pte r v)
    (hsw : s'.swapSpace = s.swapSpace) : Slots own' s' := by
  have hback : ∀ {r v slot}, IsTable own' r → v < UPAGES → Swapped (s'.pte r v) slot →
      IsTable own r ∧ Swapped (s.pte r v) slot := fun {r v slot} hr hv hs =>
    ⟨(hroots.isTable r).mp hr, hpte r ((hroots.isTable r).mp hr) v hv ▸ hs⟩
  refine ⟨fun r v slot hr hv hs => ?_, fun r v r' v' slot hr hv hs hr' hv' hs' => ?_⟩
  · obtain ⟨hr, hs⟩ := hback hr hv hs
    have hok := h.ok r v slot hr hv hs
    rw [hsw]
    exact ⟨hok.lt, hok.used, hok.block, fun q hq => (hroots.owns q r).mpr (hok.proc q hq)⟩
  · obtain ⟨hr, hs⟩ := hback hr hv hs
    obtain ⟨hr', hs'⟩ := hback hr' hv' hs'
    exact h.inj r v r' v' slot hr hv hs hr' hv' hs'

/-! ### Pages under a change that is not about pages -/

theorem Pages.congr (h : Pages own lim s) (hp : SameProcs s s') (hf : s'.freelist = s.freelist)
    (ht : s'.tables = s.tables) : Pages own lim s' := by
  refine ⟨by rw [hp.kend]; exact h.range, by rw [hf]; exact h.free, by rw [hf]; exact h.nodup,
    h.root.congr fun p r => by rw [hp.pagetable], h.trapframe.congr fun p r => by rw [hp.trapframe],
    ?_, ?_, ?_, ?_⟩
  all_goals first
    | (rw [ht]; exact h.l1)
    | (rw [ht]; exact h.l0)
    | (unfold Kernel.pte; rw [ht]; exact h.user)
    | (rw [ht]; exact h.table)

/-- A change that the invariant does not see. -/
theorem Wf.congr (h : Wf own lim s) (hp : SameProcs s s') (hf : s'.freelist = s.freelist)
    (ht : s'.tables = s.tables) (hsw : s'.swapSpace = s.swapSpace)
    (hfr : ∀ i, (s'.frameTable i).used = true → (s.frameTable i).used = true ∧
      (s'.frameTable i).proc = (s.frameTable i).proc ∧
      (s'.frameTable i).va = (s.frameTable i).va ∧ (s'.frameTable i).pa = (s.frameTable i).pa)
    (hr : Healthy s'.raid) : Wf own lim s' :=
  ⟨h.pages.congr hp hf ht, h.frames.sub hfr,
    h.slots.mono (SameRoots.refl own) (fun r _ v _ => by rw [Kernel.pte, Kernel.pte, ht]) hsw, hr,
    by rw [hp.kend]; exact h.kend_pos⟩

/-! ### Entries -/

theorem pte_setPte (s : Kernel) (r v : Nat) (e : Pte) (r' v' : Nat) :
    (setPte s r v e).pte r' v' = if r' = r ∧ v' = v then e else s.pte r' v' := by
  by_cases hr : r' = r
  · subst hr
    by_cases hv : v' = v
    · subst hv
      simp [Kernel.pte, setPte, setTable]
    · simp [Kernel.pte, setPte, setTable, hv]
  · simp [Kernel.pte, setPte, setTable, hr]

theorem pte_of_tables (ht : s'.tables = s.tables) (r v : Nat) : s'.pte r v = s.pte r v := by
  rw [Kernel.pte, Kernel.pte, ht]

theorem setPte_l1 (s : Kernel) (r v : Nat) (e : Pte) (r' : Nat) :
    ((setPte s r v e).tables r').l1 = (s.tables r').l1 := by
  by_cases hr : r' = r
  · subst hr
    simp [setPte, setTable]
  · simp [setPte, setTable, hr]

theorem setPte_l0 (s : Kernel) (r v : Nat) (e : Pte) (r' : Nat) :
    ((setPte s r v e).tables r').l0 = (s.tables r').l0 := by
  by_cases hr : r' = r
  · subst hr
    simp [setPte, setTable]
  · simp [setPte, setTable, hr]

/-- The shapes of the entry of a user page. -/
def UserEntry (e : Pte) : Prop := e = 0 ∨ (∃ pa, Resident e pa) ∨ ∃ slot, Swapped e slot

theorem TableOk.setPte {t : PageTable} {n : Nat} {e : Pte} (h : TableOk t n) (hv : v < UPAGES)
    (hn : e ≠ 0 → v < n) (hl0 : e ≠ 0 → (t.l0 (v / 512)).isSome) (he : UserEntry e) :
    TableOk { t with pte := Function.update t.pte v e } n := by
  refine ⟨h.l1_lt, h.l0_l1, fun w hw => ?_, fun w hw => ?_, h.lim_le, fun w hw hwu => ?_,
    fun w hw => ?_⟩
  · by_cases hwv : w = v
    · subst hwv
      exact hl0 (by simpa using hw)
    · exact h.pte_l0 w (by simpa [hwv] using hw)
  · by_cases hwv : w = v
    · subst hwv
      simpa [UserEntry] using he
    · simpa [hwv] using h.shape w hw
  · by_cases hwv : w = v
    · subst hwv
      by_contra hne
      have := hn (by simpa using hne)
      omega
    · simpa [hwv] using h.above w hw hwu
  · have hwv : w ≠ v := by omega
    simpa [hwv] using h.top w hw

/-! ### Pages that move -/

/-- Pages that user memory takes and gives back. -/
def Movable : Owner → Prop
  | .free | .user _ _ | .held _ _ => True
  | _ => False

/-- Only movable pages have changed hands, and only among movable owners. -/
def Shift (own own' : Nat → Owner) : Prop :=
  ∀ x, own' x = own x ∨ (Movable (own x) ∧ Movable (own' x))

theorem Shift.refl (own : Nat → Owner) : Shift own own := fun _ => Or.inl rfl

theorem Shift.trans {o₁ o₂ o₃ : Nat → Owner} (h : Shift o₁ o₂) (h' : Shift o₂ o₃) :
    Shift o₁ o₃ := by
  intro x
  rcases h x with he | ⟨hm, hm'⟩ <;> rcases h' x with he' | ⟨hn, hn'⟩
  · exact Or.inl (he'.trans he)
  · exact Or.inr ⟨he ▸ hn, hn'⟩
  · exact Or.inr ⟨hm, by rwa [he']⟩
  · exact Or.inr ⟨hm, hn'⟩

theorem shift_update {b : Owner} (ha : Movable (own pa)) (hb : Movable b) :
    Shift own (Function.update own pa b) := by
  intro x
  by_cases hx : x = pa
  · subst hx
    exact Or.inr ⟨ha, by rwa [Function.update_self]⟩
  · exact Or.inl (Function.update_of_ne hx ..)

theorem Shift.eq_iff (h : Shift own own') {o : Owner} (ho : ¬ Movable o) (x : Nat) :
    own' x = o ↔ own x = o := by
  rcases h x with he | ⟨hm, hm'⟩
  · rw [he]
  · exact iff_of_false (fun he => ho (he ▸ hm')) fun he => ho (he ▸ hm)

theorem Shift.roots (h : Shift own own') : SameRoots own own' := fun _ r =>
  ⟨h.eq_iff (by simp [Movable]) r, h.eq_iff (by simp [Movable]) r⟩

/-- The owners that do not move keep their lists. -/
theorem Shift.lists {κ : Type} {k : κ → Owner} {P P' : κ → Nat → Prop} (h : Shift own own')
    (hk : ∀ key, ¬ Movable (k key)) (hl : Lists own k P) (hP : ∀ key x, P' key x ↔ P key x) :
    Lists own' k P' := fun key x =>
  (h.eq_iff (hk key) x).trans ((hl key x).trans (hP key x).symm)

theorem ownUser_injective : Function.Injective ownUser := by
  rintro ⟨r, v⟩ ⟨r', v'⟩ h
  simpa [ownUser] using h

/-- What has to be shown when pages move: the free list and the user mappings. -/
theorem Pages.shift {lim' : Nat → Nat} (h : Pages own lim s) (hs : Shift own own')
    (hp : SameProcs s s')
    (hl1 : ∀ r, IsTable own r → (s'.tables r).l1 = (s.tables r).l1)
    (hl0 : ∀ r, IsTable own r → (s'.tables r).l0 = (s.tables r).l0)
    (hfree : Lists own' ownFree fun _ x => x ∈ s'.freelist) (hnd : s'.freelist.Nodup)
    (huser : Lists own' ownUser fun k x => IsTable own k.1 ∧ k.2 < UPAGES ∧
      Resident (s'.pte k.1 k.2) x)
    (htable : ∀ r, IsTable own r → TableOk (s'.tables r) (lim' r)) : Pages own' lim' s' := by
  have hroots := hs.roots
  refine ⟨fun x hx => ?_, hfree, hnd, ?_, ?_, ?_, ?_, ?_, ?_⟩
  · rw [hp.kend]
    exact h.range x fun he => hx ((hs.eq_iff (by simp [Movable]) x).mpr he)
  · exact hs.lists (by simp [Movable]) h.root fun q x => by rw [hp.pagetable]
  · exact hs.lists (by simp [Movable]) h.trapframe fun q x => by rw [hp.trapframe]
  · refine hs.lists (by simp [Movable, ownL1]) h.l1 fun k x => ?_
    rw [hroots.isTable]
    exact and_congr_right fun hr => by rw [hl1 _ hr]
  · refine hs.lists (by simp [Movable, ownL0]) h.l0 fun k x => ?_
    rw [hroots.isTable]
    exact and_congr_right fun hr => by rw [hl0 _ hr]
  · exact huser.congr fun k x => by rw [hroots.isTable]
  · exact fun r hr => htable r ((hroots.isTable r).mp hr)

theorem Pages.own_head {rest : List Nat} (h : Pages own lim s) (hfree : s.freelist = pa :: rest) :
    own pa = .free := (h.free () pa).mpr (by simp [hfree])

/-- The free list without its head, once the head has an owner `b` of another kind. -/
theorem Pages.free_tail {rest : List Nat} (h : Pages own lim s) (hfree : s.freelist = pa :: rest)
    {b : Owner} (hb : b ≠ .free) :
    Lists (Function.update own pa b) ownFree (fun _ x => x ∈ rest) ∧ rest.Nodup := by
  have hnd := h.nodup
  rw [hfree, List.nodup_cons] at hnd
  refine ⟨h.free.drop (fun _ => hb) fun _ y => ?_, hnd.2⟩
  rw [hfree, List.mem_cons]
  constructor
  · exact fun hy => ⟨Or.inr hy, fun he => hnd.1 (he ▸ hy)⟩
  · exact fun ⟨hy, hne⟩ => hy.resolve_left hne

/-- The free list with a new head. -/
theorem Pages.free_cons (h : Pages own lim s) (hpa : own pa ≠ .free) :
    Lists (Function.update own pa .free) ownFree (fun _ x => x ∈ pa :: s.freelist) ∧
      (pa :: s.freelist).Nodup := by
  have hnot : pa ∉ s.freelist := fun hm => hpa ((h.free () pa).mpr hm)
  refine ⟨h.free.add (fun _ _ _ => rfl) () (fun _ => hpa) fun _ y => ?_,
    List.nodup_cons.mpr ⟨hnot, h.nodup⟩⟩
  rw [List.mem_cons]
  constructor
  · exact fun hy => hy.symm.imp_right fun he => ⟨rfl, he⟩
  · exact fun hy => (hy.imp_right And.right).symm

/-- A free page becomes a page held by an allocation. -/
theorem Pages.take {rest : List Nat} {va : Nat} (h : Pages own lim s)
    (hfree : s.freelist = pa :: rest) (hp : SameProcs s s') (hf : s'.freelist = rest)
    (ht : s'.tables = s.tables) : Pages (Function.update own pa (.held p va)) lim s' := by
  have hpa := h.own_head hfree
  obtain ⟨hfr, hnd⟩ := h.free_tail hfree (b := .held p va) (by simp)
  refine h.shift (shift_update (by simp [hpa, Movable]) trivial) hp (fun r _ => by rw [ht])
    (fun r _ => by rw [ht]) (hf ▸ hfr) (hf ▸ hnd) ?_ fun r hr => by rw [ht]; exact h.table r hr
  exact h.user.keep (by simp [hpa, ownUser]) (by simp [ownUser]) fun k x => by
    rw [pte_of_tables ht]

/-- The tables after a change of one entry. -/
theorem Pages.table_setPte {e : Pte} (h : Pages own lim s) (hv : v < UPAGES)
    (ht : s'.tables = (setPte s r v e).tables) (hn : e ≠ 0 → v < lim r)
    (hl0 : e ≠ 0 → ((s.tables r).l0 (v / 512)).isSome) (he : UserEntry e) :
    ∀ r', IsTable own r' → TableOk (s'.tables r') (lim r') := by
  intro r' hr'
  have hold := h.table r' hr'
  rw [ht]
  by_cases hrr : r' = r
  · subst hrr
    simpa [setPte, setTable] using hold.setPte hv hn hl0 he
  · simpa [setPte, setTable, hrr] using hold

section Entry

variable {e : Pte} (h : Pages own lim s) (hr : IsTable own r) (hv : v < UPAGES)
  (hp : SameProcs s s') (ht : s'.tables = (setPte s r v e).tables)

include h hr hv hp ht

/-- The entry of a resident page becomes a swapped one; its physical page is held by another
allocation. -/
theorem Pages.evict {slot va : Nat} (hold : Resident (s.pte r v) pa) (he : Swapped e slot)
    (hf : s'.freelist = s.freelist) : Pages (Function.update own pa (.held p va)) lim s' := by
  have hpa := h.own_user hr hv hold
  have htab := h.table r hr
  have hpte : ∀ r' v', s'.pte r' v' = if r' = r ∧ v' = v then e else s.pte r' v' := fun r' v' => by
    rw [pte_of_tables ht, pte_setPte]
  refine h.shift (shift_update (by simp [hpa, Movable]) trivial) hp
    (fun r' _ => by rw [ht, setPte_l1]) (fun r' _ => by rw [ht, setPte_l0]) ?_ (hf ▸ h.nodup) ?_
    (h.table_setPte hv ht (fun _ => ?_) (fun _ => htab.pte_l0 v hold.not_zero)
      (Or.inr (Or.inr ⟨slot, he⟩)))
  · rw [hf]
    exact h.free.keep (by simp [hpa, ownFree]) (by simp [ownFree]) fun _ _ => Iff.rfl
  · -- the page mapped by the entry is the one that is gone
    refine h.user.drop (by simp [ownUser]) fun k x => ?_
    rw [hpte]
    by_cases hk : k.1 = r ∧ k.2 = v
    · rw [if_pos hk, hk.1, hk.2]
      refine iff_of_false (fun hx => hx.2.2.not_Swapped he) fun hx => hx.2 ?_
      exact hx.1.2.2.pa_eq.symm.trans hold.pa_eq
    · rw [if_neg hk]
      refine ⟨fun hx => ⟨hx, fun hxp => hk ?_⟩, And.left⟩
      have := h.own_user hx.1 hx.2.1 hx.2.2
      rw [hxp, hpa] at this
      cases this
      exact ⟨rfl, rfl⟩
  · by_contra hlim
    exact hold.not_zero (htab.above v (by omega) hv)

/-- A held page is mapped by an entry that mapped none. -/
theorem Pages.map {va : Nat} (hold : ∀ x, ¬ Resident (s.pte r v) x) (hpa : own pa = .held p va)
    (he : Resident e pa) (hn : v < lim r) (hl0 : ((s.tables r).l0 (v / 512)).isSome)
    (hf : s'.freelist = s.freelist) : Pages (Function.update own pa (.user r v)) lim s' := by
  have hpte : ∀ r' v', s'.pte r' v' = if r' = r ∧ v' = v then e else s.pte r' v' := fun r' v' => by
    rw [pte_of_tables ht, pte_setPte]
  refine h.shift (shift_update (by simp [hpa, Movable]) trivial) hp
    (fun r' _ => by rw [ht, setPte_l1]) (fun r' _ => by rw [ht, setPte_l0]) ?_ (hf ▸ h.nodup) ?_
    (h.table_setPte hv ht (fun _ => hn) (fun _ => hl0) (Or.inr (Or.inl ⟨pa, he⟩)))
  · rw [hf]
    exact h.free.keep (by simp [hpa, ownFree]) (by simp [ownFree]) fun _ _ => Iff.rfl
  · refine h.user.add ownUser_injective (r, v) (by simp [hpa, ownUser]) fun k x => ?_
    rw [hpte]
    by_cases hk : k.1 = r ∧ k.2 = v
    · rw [if_pos hk, hk.1, hk.2]
      constructor
      · exact fun hx => Or.inr ⟨Prod.ext hk.1 hk.2, hx.2.2.pa_eq.symm.trans he.pa_eq⟩
      · rintro (hx | ⟨-, rfl⟩)
        · exact absurd hx.2.2 (hold x)
        · exact ⟨hr, hv, he⟩
    · rw [if_neg hk]
      refine ⟨Or.inl, fun hx => hx.resolve_right fun hkey => hk ?_⟩
      rw [hkey.1]
      exact ⟨rfl, rfl⟩

/-- A resident page is unmapped and freed. -/
theorem Pages.drop (hold : Resident (s.pte r v) pa) (he : e = 0)
    (hf : s'.freelist = pa :: s.freelist) : Pages (Function.update own pa .free) lim s' := by
  have hpa := h.own_user hr hv hold
  have hpte : ∀ r' v', s'.pte r' v' = if r' = r ∧ v' = v then e else s.pte r' v' := fun r' v' => by
    rw [pte_of_tables ht, pte_setPte]
  obtain ⟨hfr, hnd⟩ := h.free_cons (by simp [hpa] : own pa ≠ .free)
  refine h.shift (shift_update (by simp [hpa, Movable]) trivial) hp
    (fun r' _ => by rw [ht, setPte_l1]) (fun r' _ => by rw [ht, setPte_l0]) (hf ▸ hfr) (hf ▸ hnd) ?_
    (h.table_setPte hv ht (fun hne => absurd he hne) (fun hne => absurd he hne) (Or.inl he))
  refine h.user.drop (by simp [ownUser]) fun k x => ?_
  rw [hpte]
  by_cases hk : k.1 = r ∧ k.2 = v
  · rw [if_pos hk, hk.1, hk.2]
    refine iff_of_false (fun hx => hx.2.2.not_zero he) fun hx => hx.2 ?_
    exact hx.1.2.2.pa_eq.symm.trans hold.pa_eq
  · rw [if_neg hk]
    refine ⟨fun hx => ⟨hx, fun hxp => hk ?_⟩, And.left⟩
    have := h.own_user hx.1 hx.2.1 hx.2.2
    rw [hxp, hpa] at this
    cases this
    exact ⟨rfl, rfl⟩

omit hr in
/-- An entry that maps no page changes to another that maps none. -/
theorem Pages.entry (hold : ∀ x, ¬ Resident (s.pte r v) x) (he : ∀ x, ¬ Resident e x)
    (hue : UserEntry e) (hn : e ≠ 0 → v < lim r)
    (hl0 : e ≠ 0 → ((s.tables r).l0 (v / 512)).isSome) (hf : s'.freelist = s.freelist) :
    Pages own lim s' := by
  refine h.shift (Shift.refl own) hp (fun r' _ => by rw [ht, setPte_l1])
    (fun r' _ => by rw [ht, setPte_l0]) (by rw [hf]; exact h.free) (hf ▸ h.nodup) ?_
    (h.table_setPte hv ht hn hl0 hue)
  refine h.user.congr fun k x => ?_
  rw [pte_of_tables ht, pte_setPte]
  by_cases hk : k.1 = r ∧ k.2 = v
  · rw [if_pos hk, hk.1, hk.2]
    exact iff_of_false (fun hx => he x hx.2.2) fun hx => hold x hx.2.2
  · rw [if_neg hk]

end Entry

/-! ### Frames and slots after a move -/

/-- An entry of the frame table is claimed for page `pa`, which no other used entry names. -/
theorem Frames.claim {ft ft' : FrameTable} {i : Fin MAX_FRAMES} {va : Nat}
    (h : Frames own ft) (hpa : Movable (own pa)) (hva : va % PGSIZE = 0)
    (hother : ∀ j, j ≠ i → (ft j).used = true → (ft j).pa ≠ pa)
    (hnew : (ft' i).proc = some p ∧ (ft' i).va = va ∧ (ft' i).pa = pa)
    (hft : ∀ j, j ≠ i → (ft' j).used = (ft j).used ∧ (ft' j).proc = (ft j).proc ∧
      (ft' j).va = (ft j).va ∧ (ft' j).pa = (ft j).pa) :
    Frames (Function.update own pa (.held p va)) ft' := by
  have hroots : SameRoots own (Function.update own pa (.held p va)) :=
    (shift_update (b := .held p va) hpa trivial).roots
  obtain ⟨hp, hv, hpa'⟩ := hnew
  refine ⟨fun j hj => ?_, fun j k hj hk he => ?_⟩
  · by_cases hji : j = i
    · subst hji
      exact ⟨p, hp, by rw [hv, hva], Or.inl (by rw [hpa', hv, Function.update_self])⟩
    · obtain ⟨hu, hq, hqv, hqp⟩ := hft j hji
      rw [hu] at hj
      obtain ⟨q, hpq, hqa, hown⟩ := h.ok j hj
      refine ⟨q, by rw [hq, hpq], by rw [hqv, hqa], ?_⟩
      rw [hqv, hqp, Function.update_of_ne (hother j hji hj)]
      exact hown.imp_right fun ⟨r, hr, hu⟩ => ⟨r, (hroots.owns q r).mpr hr, hu⟩
  · -- two used entries with one page: neither is the claimed one, or both are
    by_cases hji : j = i <;> by_cases hki : k = i
    · rw [hji, hki]
    · obtain ⟨hu, -, -, hqp⟩ := hft k hki
      exact absurd (hqp.symm.trans (he.symm.trans (hji ▸ hpa'))) (hother k hki (hu ▸ hk))
    · obtain ⟨hu, -, -, hqp⟩ := hft j hji
      exact absurd (hqp.symm.trans (he.trans (hki ▸ hpa'))) (hother j hji (hu ▸ hj))
    · obtain ⟨hu, -, -, hqp⟩ := hft j hji
      obtain ⟨hu', -, -, hqp'⟩ := hft k hki
      exact h.inj j k (hu ▸ hj) (hu' ▸ hk) (by rw [← hqp, ← hqp', he])

/-- The entry that holds a page is about its mapping, once the page is mapped where the entry
says. -/
theorem Frames.map {ft : FrameTable} {va : Nat} (h : Frames own ft) (hpa : own pa = .held p va)
    (hr : OwnsTable own p r) (hv : va / PGSIZE = v) :
    Frames (Function.update own pa (.user r v)) ft := by
  have hroots : SameRoots own (Function.update own pa (.user r v)) :=
    (shift_update (b := .user r v) (by simp [hpa, Movable]) trivial).roots
  refine ⟨fun i hi => ?_, h.inj⟩
  obtain ⟨q, hq, hqa, hown⟩ := h.ok i hi
  refine ⟨q, hq, hqa, ?_⟩
  by_cases hip : (ft i).pa = pa
  · rw [hip] at hown ⊢
    rw [hpa] at hown
    rcases hown with hh | ⟨r', -, hu⟩
    · cases hh
      exact Or.inr ⟨r, (hroots.owns p r).mpr hr, by rw [Function.update_self, hv]⟩
    · cases hu
  · rw [Function.update_of_ne hip]
    exact hown.imp_right fun ⟨r', hr', hu⟩ => ⟨r', (hroots.owns q r').mpr hr', hu⟩

/-- Entries about other pages do not mind that a page is freed. -/
theorem Frames.free {ft : FrameTable} (h : Frames own ft) (hpa : Movable (own pa))
    (hnone : ∀ i, (ft i).used = true → (ft i).pa ≠ pa) :
    Frames (Function.update own pa .free) ft :=
  h.mono (shift_update (b := .free) hpa trivial).roots fun i hi => Function.update_of_ne (hnone i hi) ..

/-- A slot that is not in use is named by no entry. -/
theorem Slots.fresh {slot : Nat} (h : Slots own s) (hu : (s.swapSpace slot).used = false) (r v : Nat)
    (hr : IsTable own r) (hv : v < UPAGES) : ¬ Swapped (s.pte r v) slot := fun hs => by
  cases hu.symm.trans (h.ok r v slot hr hv hs).used

section SlotMoves

variable {e : Pte} {slot : Nat} (h : Slots own s) (hs : Shift own own')
  (ht : s'.tables = (setPte s r v e).tables)

include h hs ht

/-- An entry is replaced by one that names no slot. -/
theorem Slots.unswap (he : ∀ n, ¬ Swapped e n)
    (hsw : ∀ n, (∀ m, Swapped (s.pte r v) m → n ≠ m) → s'.swapSpace n = s.swapSpace n)
    (hr : IsTable own r) (hv : v < UPAGES) : Slots own' s' := by
  have hroots := hs.roots
  have hpte : ∀ r' v', s'.pte r' v' = if r' = r ∧ v' = v then e else s.pte r' v' := fun r' v' => by
    rw [pte_of_tables ht, pte_setPte]
  have hback : ∀ {r' v' n}, IsTable own' r' → Swapped (s'.pte r' v') n →
      IsTable own r' ∧ Swapped (s.pte r' v') n ∧ ¬ (r' = r ∧ v' = v) := by
    intro r' v' n hr' hsw'
    rw [hpte] at hsw'
    by_cases hk : r' = r ∧ v' = v
    · rw [if_pos hk] at hsw'
      exact absurd hsw' (he n)
    · rw [if_neg hk] at hsw'
      exact ⟨(hroots.isTable r').mp hr', hsw', hk⟩
  refine ⟨fun r' v' n hr' hv' hn => ?_, fun r₁ v₁ r₂ v₂ n hr₁ hv₁ h₁ hr₂ hv₂ h₂ => ?_⟩
  · obtain ⟨hr', hn, hk⟩ := hback hr' hn
    have hok := h.ok r' v' n hr' hv' hn
    -- the slot that has been given up is another one
    rw [hsw n fun m hm hnm => hk (h.inj r' v' r v m hr' hv' (hnm ▸ hn) hr hv hm)]
    exact ⟨hok.lt, hok.used, hok.block, fun q hq => (hroots.owns q r').mpr (hok.proc q hq)⟩
  · obtain ⟨hr₁, h₁, -⟩ := hback hr₁ h₁
    obtain ⟨hr₂, h₂, -⟩ := hback hr₂ h₂
    exact h.inj r₁ v₁ r₂ v₂ n hr₁ hv₁ h₁ hr₂ hv₂ h₂

/-- An entry is replaced by one that names a slot no entry named. -/
theorem Slots.swap (he : Swapped e slot)
    (hfresh : ∀ r v, IsTable own r → v < UPAGES → ¬ Swapped (s.pte r v) slot)
    (hok : SlotOk own (s'.swapSpace slot) r slot)
    (hsw : ∀ n, n ≠ slot → s'.swapSpace n = s.swapSpace n) : Slots own' s' := by
  have hroots := hs.roots
  have hpte : ∀ r' v', s'.pte r' v' = if r' = r ∧ v' = v then e else s.pte r' v' := fun r' v' => by
    rw [pte_of_tables ht, pte_setPte]
  -- an entry of the new state is the new one, or an old one about another slot
  have hback : ∀ {r' v' n}, IsTable own' r' → v' < UPAGES → Swapped (s'.pte r' v') n →
      (r' = r ∧ v' = v ∧ n = slot) ∨ (IsTable own r' ∧ Swapped (s.pte r' v') n ∧ n ≠ slot) := by
    intro r' v' n hr' hv' hn
    rw [hpte] at hn
    by_cases hk : r' = r ∧ v' = v
    · rw [if_pos hk] at hn
      exact Or.inl ⟨hk.1, hk.2, hn.slot_eq.symm.trans he.slot_eq⟩
    · rw [if_neg hk] at hn
      have hr'' := (hroots.isTable r').mp hr'
      exact Or.inr ⟨hr'', hn, fun hns => hfresh r' v' hr'' hv' (hns ▸ hn)⟩
  refine ⟨fun r' v' n hr' hv' hn => ?_, fun r₁ v₁ r₂ v₂ n hr₁ hv₁ h₁ hr₂ hv₂ h₂ => ?_⟩
  · rcases hback hr' hv' hn with ⟨rfl, rfl, rfl⟩ | ⟨hr', hn, hns⟩
    · exact ⟨hok.lt, hok.used, hok.block, fun q hq => (hroots.owns q r').mpr (hok.proc q hq)⟩
    · have hold := h.ok r' v' n hr' hv' hn
      rw [hsw n hns]
      exact ⟨hold.lt, hold.used, hold.block, fun q hq => (hroots.owns q r').mpr (hold.proc q hq)⟩
  · rcases hback hr₁ hv₁ h₁ with ⟨rfl, rfl, rfl⟩ | ⟨hr₁, h₁, hn₁⟩ <;>
      rcases hback hr₂ hv₂ h₂ with ⟨rfl, rfl, h₂'⟩ | ⟨hr₂, h₂, hn₂⟩
    · exact ⟨rfl, rfl⟩
    · exact absurd rfl hn₂
    · exact absurd h₂' hn₁
    · exact h.inj r₁ v₁ r₂ v₂ n hr₁ hv₁ h₁ hr₂ hv₂ h₂

end SlotMoves

/-! ### What an operation keeps -/

/-- Every page that is mapped or held has an entry in the frame table. -/
def Tracked (own : Nat → Owner) (ft : FrameTable) : Prop :=
  ∀ pa, ((∃ r v, own pa = .user r v) ∨ ∃ p va, own pa = .held p va) →
    ∃ i, (ft i).used = true ∧ (ft i).pa = pa

/-- An operation that may change the user pages in `T` keeps everything else: the processes but
for their counters, the tables' owners, the contents and permissions of all other pages.  Unless
an allocation fails, the frame table still lists every resident page if it did before. -/
structure Keeps (T : Nat → Nat → Prop) (own own' : Nat → Owner) (s s' : Kernel) : Prop where
  procs : SameProcs s s'
  roots : SameRoots own own'
  kernel : ∀ x, own' x = .kernel ↔ own x = .kernel
  flat : ∀ r v, IsTable own r → v < UPAGES → ¬ T r v → flat s' r v = flat s r v
  nulls : s.nullAllocs ≤ s'.nullAllocs
  fulls : s.swapFulls ≤ s'.swapFulls
  tracked : s'.nullAllocs = s.nullAllocs → s'.swapFulls = s.swapFulls →
    Tracked own s.frameTable → Tracked own' s'.frameTable

/-- No page is touched. -/
abbrev noPage : Nat → Nat → Prop := fun _ _ => False

/-- Only page `v` of table `r` is touched. -/
abbrev onePage (r v : Nat) : Nat → Nat → Prop := fun r' v' => r' = r ∧ v' = v

theorem Keeps.refl (own : Nat → Owner) (s : Kernel) : Keeps noPage own own s s :=
  ⟨.refl s, .refl own, fun _ => Iff.rfl, fun _ _ _ _ _ => rfl, le_rfl, le_rfl, fun _ _ h => h⟩

theorem Keeps.trans {T T' U : Nat → Nat → Prop} {o₁ o₂ o₃ : Nat → Owner} {s₁ s₂ s₃ : Kernel}
    (h : Keeps T o₁ o₂ s₁ s₂) (h' : Keeps T' o₂ o₃ s₂ s₃) (hU : ∀ r v, T r v ∨ T' r v → U r v) :
    Keeps U o₁ o₃ s₁ s₃ := by
  refine ⟨h.procs.trans h'.procs, h.roots.trans h'.roots,
    fun x => (h'.kernel x).trans (h.kernel x), fun r v hr hv hU' => ?_, h.nulls.trans h'.nulls,
    h.fulls.trans h'.fulls, fun hn hf ht => ?_⟩
  · rw [h'.flat r v ((h.roots.isTable r).mpr hr) hv fun ht => hU' (hU r v (Or.inr ht)),
      h.flat r v hr hv fun ht => hU' (hU r v (Or.inl ht))]
  · -- the counters only grow, so neither part had a failure
    have hn₁ := h.nulls
    have hn₂ := h'.nulls
    have hf₁ := h.fulls
    have hf₂ := h'.fulls
    exact h'.tracked (by omega) (by omega) (h.tracked (by omega) (by omega) ht)

theorem Keeps.weaken {T U : Nat → Nat → Prop} (h : Keeps T own own' s s')
    (hU : ∀ r v, T r v → U r v) : Keeps U own own' s s' :=
  ⟨h.procs, h.roots, h.kernel, fun r v hr hv hn => h.flat r v hr hv fun ht => hn (hU r v ht),
    h.nulls, h.fulls, h.tracked⟩

/-- The flat contents of a page depend on its entry, its physical page and its slot. -/
theorem flat_congr (hpte : s'.pte r v = s.pte r v)
    (hmem : ∀ x, Resident (s.pte r v) x → s'.mem x = s.mem x)
    (hslot : ∀ n, Swapped (s.pte r v) n → slotPage s'.raid n = slotPage s.raid n)
    (hue : UserEntry (s.pte r v)) : flat s' r v = flat s r v := by
  rcases hue with h0 | ⟨x, hx⟩ | ⟨n, hn⟩
  · rw [flat_zero h0, flat_zero (hpte.trans h0)]
  · rw [flat_resident hx, flat_resident (hpte ▸ hx), hpte, hmem x hx]
  · rw [flat_swapped hn, flat_swapped (hpte ▸ hn), hpte, hslot n hn]

theorem Pages.userEntry (h : Pages own lim s) (hr : IsTable own r) (hv : v < UPAGES) :
    UserEntry (s.pte r v) := (h.table r hr).shape v hv

end Xv6.Vm
