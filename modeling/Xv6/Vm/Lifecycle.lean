import Xv6.Vm.Fork
import Mathlib.Data.Set.Card

/-!
# Vm — Lifecycle

The frame table over the life of processes.

The machine performs complete operations of processes: `vmfault`, `growproc`, `kfork`, `kexit` and
`kwait`.

* `FrameTableExact`: the used entries of the frame table are one to one with the resident pages.
* `frameTableExact_iff`: given the invariant, it is enough that every resident page is listed.
* `kernelStep_listed`: each operation keeps this, unless `kalloc` returns 0 or swap is full.
* `frameTable_exact`: and so does every run.
-/

namespace Xv6.Vm
open Xv6.Lib
open Xv6.Raid (Page zeroPage PGSIZE BLOCKS_PER_PAGE MAX_SWAP Healthy)

variable {own own' : Nat → Owner} {lim : Nat → Nat} {s s' : Kernel} {p q np : ProcId}
  {r v pa va : Nat}

/-! ### The frame table and the page tables -/

/-- Page `v` of process `p` is in memory, at `pa`. -/
def ResidentAt (s : Kernel) (p : ProcId) (v pa : Nat) : Prop :=
  (s.procs p).state ≠ .unused ∧ v < UPAGES ∧ ∃ r, (s.procs p).pagetable = some r ∧
    (s.pte r v).has PTE_V = true ∧ pte2Pa (s.pte r v) = pa

/-- Entry `f` is about page `v` of process `p`, and gives its place. -/
def EntryOf (s : Kernel) (f : FrameEntry) (p : ProcId) (v : Nat) : Prop :=
  f.proc = some p ∧ f.va = v * PGSIZE ∧ ResidentAt s p v f.pa

/-- The used entries are one to one with the resident pages. -/
structure FrameTableExact (s : Kernel) : Prop where
  entry : ∀ i, (s.frameTable i).used = true → ∃ p v, EntryOf s (s.frameTable i) p v
  page : ∀ p v pa, ResidentAt s p v pa →
    ∃ i, (s.frameTable i).used = true ∧ EntryOf s (s.frameTable i) p v
  place_inj : ∀ i j, (s.frameTable i).used = true → (s.frameTable j).used = true →
    (s.frameTable i).proc = (s.frameTable j).proc → (s.frameTable i).va = (s.frameTable j).va → i = j
  pa_inj : ∀ i j, (s.frameTable i).used = true → (s.frameTable j).used = true →
    (s.frameTable i).pa = (s.frameTable j).pa → i = j

section Exact

variable (h : Settled own lim s)

include h

/-- A page in memory belongs to the table of its process. -/
theorem residentAt_iff : ResidentAt s p v pa ↔ ∃ r, own r = .root p ∧ own pa = .user r v := by
  constructor
  · rintro ⟨-, hv, r, hr, hval, rfl⟩
    have hroot := h.wf.pages.own_root hr
    have htab : IsTable own r := ⟨p, Or.inl hroot⟩
    exact ⟨r, hroot, h.wf.pages.own_user htab hv ((h.wf.pages.table r htab).resident_of hv hval)⟩
  · rintro ⟨r, hroot, huser⟩
    obtain ⟨-, hv, hres⟩ := (h.wf.pages.user (r, v) pa).mp huser
    have hr := h.wf.pages.pagetable hroot
    refine ⟨fun hun => ?_, hv, r, hr, hres.valid, hres.pa_eq⟩
    rw [(h.live p).mp hun] at hr
    cases hr

/-- What a used entry is about. -/
theorem Settled.entry {i : Fin MAX_FRAMES} (hi : (s.frameTable i).used = true) :
    ∃ p r, (s.frameTable i).proc = some p ∧ own r = .root p ∧
      (s.frameTable i).va = (s.frameTable i).va / PGSIZE * PGSIZE ∧
      own (s.frameTable i).pa = .user r ((s.frameTable i).va / PGSIZE) := by
  obtain ⟨p, hp, hva, hh | ⟨r, hr, hu⟩⟩ := h.wf.frames.ok i hi
  · exact absurd hh (h.noHeld _ _ _)
  · refine ⟨p, r, hp, hr.resolve_right (h.noNew r p), ?_, hu⟩
    have := Nat.div_add_mod (s.frameTable i).va PGSIZE
    rw [hva] at this
    rw [Nat.mul_comm]
    exact this.symm

/-- **The entries are exact as soon as every resident page is listed.** -/
theorem frameTableExact_iff : FrameTableExact s ↔ Tracked own s.frameTable := by
  constructor
  · rintro hex pa (⟨r, v, hu⟩ | ⟨q, a, hh⟩)
    · obtain ⟨⟨p, hp⟩, -⟩ := (h.wf.pages.user (r, v) pa).mp hu
      have hroot : own r = .root p := hp.resolve_right (h.noNew r p)
      have hat : ResidentAt s p v pa := (residentAt_iff h).mpr ⟨r, hroot, hu⟩
      obtain ⟨i, hi, -, -, hat'⟩ := hex.page p v pa hat
      refine ⟨i, hi, ?_⟩
      obtain ⟨-, -, r₁, hr₁, -, rfl⟩ := hat
      obtain ⟨-, -, r₂, hr₂, -, hpa⟩ := hat'
      cases hr₁.symm.trans hr₂
      exact hpa.symm
    · exact absurd hh (h.noHeld _ _ _)
  · intro htr
    refine ⟨fun i hi => ?_, fun p v pa hat => ?_, fun i j hi hj hp hva => ?_, h.wf.frames.inj⟩
    · obtain ⟨p, r, hp, hr, hva, hu⟩ := h.entry hi
      exact ⟨p, _, hp, hva, (residentAt_iff h).mpr ⟨r, hr, hu⟩⟩
    · obtain ⟨r, hr, hu⟩ := (residentAt_iff h).mp hat
      obtain ⟨i, hi, hpa⟩ := htr pa (Or.inl ⟨r, v, hu⟩)
      obtain ⟨q, r', hq, hr', hva, hu'⟩ := h.entry hi
      rw [hpa, hu] at hu'
      injection hu' with hrr hvv
      subst hrr
      rw [hr] at hr'
      cases hr'
      exact ⟨i, hi, hq, by rw [hva, ← hvv], hpa ▸ hat⟩
    · obtain ⟨p, r, hpi, hr, -, hu⟩ := h.entry hi
      obtain ⟨q, r', hpj, hr', -, hu'⟩ := h.entry hj
      rw [hpi, hpj] at hp
      cases hp
      cases h.wf.pages.root_unique hr hr'
      rw [← hva] at hu'
      obtain ⟨-, -, hx⟩ := (h.wf.pages.user (r, _) _).mp hu
      obtain ⟨-, -, hy⟩ := (h.wf.pages.user (r, _) _).mp hu'
      exact h.wf.frames.inj i j hi hj (hx.pa_eq.symm.trans hy.pa_eq)

end Exact

/-- There are at most `MAX_FRAMES` resident pages. -/
theorem FrameTableExact.encard_le (h : FrameTableExact s) :
    {x : ProcId × Nat | ∃ pa, ResidentAt s x.1 x.2 pa}.encard ≤ MAX_FRAMES := by
  classical
  -- the entry of a resident page
  let f : ProcId × Nat → Fin MAX_FRAMES := fun x =>
    if hx : ∃ pa, ResidentAt s x.1 x.2 pa then (h.page x.1 x.2 hx.choose hx.choose_spec).choose else 0
  have hf : ∀ x, (∃ pa, ResidentAt s x.1 x.2 pa) → EntryOf s (s.frameTable (f x)) x.1 x.2 := by
    intro x hx
    simp only [f, dif_pos hx]
    exact (h.page x.1 x.2 hx.choose hx.choose_spec).choose_spec.2
  have hinj : Set.InjOn f {x : ProcId × Nat | ∃ pa, ResidentAt s x.1 x.2 pa} := by
    intro x hx y hy he
    obtain ⟨hp, hva, -⟩ := hf x hx
    obtain ⟨hp', hva', -⟩ := hf y hy
    rw [he, hp'] at hp
    rw [he, hva'] at hva
    refine Prod.ext (Option.some.inj hp).symm ?_
    exact (Nat.eq_of_mul_eq_mul_right (by decide) hva).symm
  calc {x : ProcId × Nat | ∃ pa, ResidentAt s x.1 x.2 pa}.encard
      ≤ (Set.univ : Set (Fin MAX_FRAMES)).encard :=
        Set.encard_le_encard_of_injOn (fun _ _ => Set.mem_univ _) hinj
    _ = MAX_FRAMES := by simp

/-! ### Exit -/

/-- A process without the fields by which it waits and is waited for. -/
def Proc.bare (x : Proc) : Proc :=
  { x with state := .unused, chan := none, parent := none, xstate := 0 }

/-- Only these fields of the processes have changed, and no process has come or gone. -/
structure Relabelled (s s' : Kernel) : Prop where
  only : s' = { s with procs := s'.procs }
  bare : ∀ q, (s'.procs q).bare = (s.procs q).bare
  unused : ∀ q, (s'.procs q).state = .unused ↔ (s.procs q).state = .unused

theorem Relabelled.refl (s : Kernel) : Relabelled s s := ⟨rfl, fun _ => rfl, fun _ => Iff.rfl⟩

theorem Relabelled.trans {s₁ s₂ s₃ : Kernel} (h : Relabelled s₁ s₂) (h' : Relabelled s₂ s₃) :
    Relabelled s₁ s₃ := by
  refine ⟨?_, fun q => (h'.bare q).trans (h.bare q), fun q => (h'.unused q).trans (h.unused q)⟩
  have h₁ := h.only
  have h₂ := h'.only
  rw [h₁] at h₂
  exact h₂

theorem Relabelled.settled (h : Relabelled s s') (hset : Settled own lim s) :
    Settled own lim s' := by
  rw [h.only]
  refine hset.setProcs (fun q => ?_) (fun q => ?_) (fun q => ?_) h.unused
  · have hq := congrArg Proc.pagetable (h.bare q)
    exact hq
  · have hq := congrArg Proc.trapframe (h.bare q)
    exact hq
  · have hq := congrArg Proc.sz (h.bare q)
    exact hq

theorem Relabelled.tracked (h : Relabelled s s') (ht : Tracked own s.frameTable) :
    Tracked own s'.frameTable := by
  rw [h.only]
  exact ht

/-- One process is given another label, and stays in use. -/
theorem relabelled_setProc {x : Proc} (hx : x.bare = (s.procs p).bare)
    (hst : x.state = .unused ↔ (s.procs p).state = .unused) : Relabelled s (setProc s p x) := by
  refine ⟨rfl, fun q => ?_, fun q => ?_⟩
  · by_cases hq : q = p
    · subst hq
      simpa [setProc] using hx
    · simp [setProc, hq]
  · by_cases hq : q = p
    · subst hq
      simpa [setProc] using hst
    · simp [setProc, hq]

theorem wakeup_relabelled (s : Kernel) (p : ProcId) (chan : Option ProcId) :
    Relabelled s (wakeup s p chan) := by
  refine ⟨rfl, fun q => ?_, fun q => ?_⟩ <;> simp only [wakeup] <;> split
  · rfl
  · rfl
  · next hq => simp [hq.2.1]
  · exact Iff.rfl

theorem reparent_relabelled (s : Kernel) (p : ProcId) : Relabelled s (reparent s p) := by
  have hloop : ∀ (l : List ProcId) (s : Kernel), Relabelled s (l.foldl (fun s pp =>
      if (s.procs pp).parent = some p then
        wakeup (setProc s pp { s.procs pp with parent := some s.initproc }) p (some s.initproc)
      else s) s) := by
    intro l
    induction l with
    | nil => exact fun s => .refl s
    | cons x l ih =>
        intro s
        rw [List.foldl_cons]
        refine Relabelled.trans ?_ (ih _)
        split
        · have h₁ : Relabelled s (setProc s x { s.procs x with parent := some s.initproc }) :=
            relabelled_setProc rfl Iff.rfl
          exact h₁.trans (wakeup_relabelled ..)
        · exact .refl s
  exact hloop _ s

theorem kexit_relabelled {status : Int} (hp : (s.procs p).state ≠ .unused)
    (hrun : kexit s p status = .ok s') : Relabelled s s' := by
  unfold kexit at hrun
  split at hrun
  · cases hrun
  · have h₁ := (reparent_relabelled s p).trans
      (wakeup_relabelled (reparent s p) p ((reparent s p).procs p).parent)
    rw [← Except.ok.inj hrun]
    refine h₁.trans (relabelled_setProc rfl (iff_of_false (by simp) ?_))
    exact fun hun => hp ((h₁.unused p).mp hun)

/-! ### Wait -/

/-- Any page may have been written to. -/
abbrev anyPage : Nat → Nat → Prop := fun _ _ => True

theorem keeps_setPage (own : Nat → Owner) (s : Kernel) (pa : Nat) (x : Page) :
    Keeps anyPage own own s (setPage s pa x) :=
  ⟨⟨rfl, rfl, rfl, rfl, fun _ => rfl⟩, .refl own, fun _ => Iff.rfl,
    fun _ _ _ _ hn => absurd trivial hn, le_rfl, le_rfl, fun _ _ h => h⟩

/-- `vmfault` at any address. -/
theorem vmfault_keeps {res : Nat} (h : Settled own lim s) (hr : own r = .root p)
    (hrun : vmfault s p r va = .ok (res, s')) :
    ∃ own', Settled own' lim s' ∧ Keeps noPage own own' s s' := by
  by_cases hva : va / PGSIZE * PGSIZE < (s.procs p).sz
  · obtain ⟨res₁, s₁, own₁, hrun₁, hset, hf⟩ := vmfault_spec h hr hva
    cases hrun.symm.trans hrun₁
    exact ⟨own₁, hset, hf.keeps⟩
  · rw [vmfault_above s p r (by omega)] at hrun
    cases hrun
    exact ⟨own, h, Keeps.refl own s⟩

/-- The rest of a turn of the loop of `copyout`, when the page is known. -/
def copyoutStore (p : ProcId) (r n dstva : Nat) (src : List UInt8) (x : Nat × Kernel) :
    Except String (Bool × Kernel) :=
  if x.1 = 0 then .ok (false, x.2)
  else do
    match ← walk x.2 r (pgRoundDown dstva) with
    | none => .error "copyout"
    | some e =>
      if !e.has PTE_W then return (false, x.2)
      else
        copyoutLoop p r n (storeBytes x.2 x.1 (dstva - pgRoundDown dstva)
          (src.take (PGSIZE - (dstva - pgRoundDown dstva)))) (pgRoundDown dstva + PGSIZE)
          (src.drop (PGSIZE - (dstva - pgRoundDown dstva)))

theorem copyoutLoop_keeps : ∀ (n : Nat) (own : Nat → Owner) (s : Kernel) (dstva : Nat)
    (src : List UInt8) (ok : Bool) (s' : Kernel), Settled own lim s → own r = .root p →
    copyoutLoop p r n s dstva src = .ok (ok, s') →
    ∃ own', Settled own' lim s' ∧ Keeps anyPage own own' s s' := by
  have hrefl : ∀ own s, Keeps anyPage own own s s := fun own s =>
    (Keeps.refl own s).weaken fun _ _ hf => hf.elim
  intro n
  induction n with
  | zero =>
      intro own s dstva src ok s' h _ hrun
      cases hrun
      exact ⟨own, h, hrefl own s⟩
  | succ n ih =>
      intro own s dstva src ok s' h hr hrun
      rw [copyoutLoop] at hrun
      split at hrun
      · cases hrun
        exact ⟨own, h, hrefl own s⟩
      · simp only at hrun
        split at hrun
        · cases hrun
          exact ⟨own, h, hrefl own s⟩
        · obtain ⟨pa₀, hwalk, hrun⟩ := bind_eq_ok.mp hrun
          -- the page is there, or `vmfault` brings it
          have hrest : ∀ (x : Nat × Kernel) (own₁ : Nat → Owner), Settled own₁ lim x.2 →
              Keeps noPage own own₁ s x.2 → copyoutStore p r n dstva src x = .ok (ok, s') →
              ∃ own', Settled own' lim s' ∧ Keeps anyPage own own' s s' := by
            intro x own₁ hset hk hx
            have hk' : Keeps anyPage own own₁ s x.2 := hk.weaken fun _ _ hf => hf.elim
            unfold copyoutStore at hx
            split at hx
            · cases hx
              exact ⟨own₁, hset, hk'⟩
            · obtain ⟨e, -, hx⟩ := bind_eq_ok.mp hx
              cases e with
              | none => cases hx
              | some e =>
                  simp only at hx
                  split at hx
                  · cases hx
                    exact ⟨own₁, hset, hk'⟩
                  · have hr₁ : own₁ r = .root p := (hk.roots p r).1.mpr hr
                    obtain ⟨own', hset', hk₂⟩ := ih own₁ _ _ _ ok s' (hset.setPage _ _) hr₁ hx
                    exact ⟨own', hset', (hk'.trans (keeps_setPage ..) fun _ _ _ => trivial).trans hk₂
                      fun _ _ _ => trivial⟩
          by_cases h0 : pa₀ = 0
          · rw [if_pos h0] at hrun
            obtain ⟨x, hx, hrun⟩ := bind_eq_ok.mp hrun
            obtain ⟨own₁, hset, hk⟩ := vmfault_keeps h hr hx
            exact hrest x own₁ hset hk hrun
          · rw [if_neg h0] at hrun
            exact hrest (pa₀, s) own h (Keeps.refl own s) hrun

theorem copyStatus_keeps {addr : Nat} {status : Int} {ok : Bool} (h : Settled own lim s)
    (hp : (s.procs p).state ≠ .unused) (hrun : copyStatus s p addr status = .ok (ok, s')) :
    ∃ own', Settled own' lim s' ∧ Keeps anyPage own own' s s' := by
  obtain ⟨r, hr⟩ := h.exists_root hp
  unfold copyStatus at hrun
  split at hrun
  · cases hrun
    exact ⟨own, h, (Keeps.refl own s).weaken fun _ _ hf => hf.elim⟩
  · rw [h.wf.pages.pagetable hr] at hrun
    exact copyoutLoop_keeps _ own s addr _ ok s' h hr hrun

/-- What an operation keeps in which swap does not fill up. -/
structure Smoothed (own own' : Nat → Owner) (s s' : Kernel) : Prop where
  kend : s'.kend = s.kend
  kernel : ∀ x, own' x = .kernel ↔ own x = .kernel
  tracked : Tracked own s.frameTable → Tracked own' s'.frameTable

theorem Smoothed.refl (own : Nat → Owner) (s : Kernel) : Smoothed own own s s :=
  ⟨rfl, fun _ => Iff.rfl, id⟩

theorem Smoothed.trans {own₁ : Nat → Owner} {s₁ : Kernel} (h : Smoothed own own₁ s s₁)
    (h' : Smoothed own₁ own' s₁ s') : Smoothed own own' s s' :=
  ⟨h'.kend.trans h.kend, fun x => (h'.kernel x).trans (h.kernel x), fun ht => h'.tracked (h.tracked ht)⟩

theorem Keeps.smoothed {T : Nat → Nat → Prop} (h : Keeps T own own' s s')
    (hnull : s'.nullAllocs = s.nullAllocs) (hfull : s'.swapFulls = s.swapFulls) :
    Smoothed own own' s s' := ⟨h.procs.kend, h.kernel, h.tracked hnull hfull⟩

theorem ProcFreed.smoothed (h : ProcFreed own own' s s' p) : Smoothed own own' s s' :=
  ⟨h.kend, h.kernel, h.tracked⟩

theorem Relabelled.smoothed (h : Relabelled s s') (own : Nat → Owner) : Smoothed own own s s' :=
  ⟨by rw [h.only], fun _ => Iff.rfl, h.tracked⟩

/-- The child that `kwait` reaps. -/
theorem kwait_reaped {addr : Nat} {pid : Int} (h : Settled own lim s)
    (hp : (s.procs p).state ≠ .unused) (hrun : kwait s p addr = .ok (.reaped pid, s')) :
    ∃ q s₁ own₁ r own₂, (s.procs q).parent = some p ∧ (s.procs q).state = .zombie ∧
      copyStatus s p addr (s.procs q).xstate = .ok (true, s₁) ∧ Settled own₁ lim s₁ ∧
      Keeps anyPage own own₁ s s₁ ∧ own₁ r = .root q ∧ freeproc s₁ q = .ok s' ∧
      Settled own₂ lim s' ∧ ProcFreed own₁ own₂ s₁ s' q := by
  unfold kwait at hrun
  split at hrun
  · next q hq =>
      have hz := List.find?_some hq
      simp only [Bool.and_eq_true, beq_iff_eq] at hz
      obtain ⟨⟨ok, s₁⟩, h₁, hrun⟩ := bind_eq_ok.mp hrun
      obtain ⟨own₁, hset₁, hk₁⟩ := copyStatus_keeps h hp h₁
      cases ok with
      | false => cases hrun
      | true =>
          obtain ⟨s₂, h₂, hrun⟩ := bind_eq_ok.mp hrun
          cases hrun
          have hq₁ : (s₁.procs q).state ≠ .unused := by
            rw [hk₁.procs.state, hz.2]
            simp
          obtain ⟨r, hr⟩ := hset₁.exists_root hq₁
          obtain ⟨s₃, own₃, h₃, hset₃, hfreed⟩ := freeproc_spec hset₁ hr
          cases h₂.symm.trans h₃
          exact ⟨q, s₁, own₁, r, own₃, hz.1, hz.2, h₁, hset₁, hk₁, hr, h₂, hset₃, hfreed⟩
  · split at hrun
    · cases hrun
    · cases hrun

/-- `kwait` that reaps no child. -/
theorem kwait_other {addr : Nat} {res : WaitResult} (h : Settled own lim s)
    (hp : (s.procs p).state ≠ .unused) (hrun : kwait s p addr = .ok (res, s'))
    (hres : ∀ pid, res ≠ .reaped pid) :
    ∃ own', Settled own' lim s' ∧ (s'.nullAllocs = s.nullAllocs → s'.swapFulls = s.swapFulls →
      Smoothed own own' s s') := by
  unfold kwait at hrun
  split at hrun
  · next q hq =>
      obtain ⟨⟨ok, s₁⟩, h₁, hrun⟩ := bind_eq_ok.mp hrun
      obtain ⟨own₁, hset₁, hk₁⟩ := copyStatus_keeps h hp h₁
      cases ok with
      | false =>
          cases hrun
          exact ⟨own₁, hset₁, hk₁.smoothed⟩
      | true =>
          obtain ⟨s₂, h₂, hrun⟩ := bind_eq_ok.mp hrun
          cases hrun
          exact absurd rfl (hres _)
  · split at hrun
    · cases hrun
      exact ⟨own, h, fun _ _ => .refl own s⟩
    · have hs : Relabelled s s' := by
        cases hrun
        exact relabelled_setProc rfl (iff_of_false (by simp) hp)
      exact ⟨own, hs.settled h, fun _ _ => hs.smoothed own⟩

/-- **`kwait`** by a process that is not itself a zombie. -/
theorem kwait_spec {addr : Nat} {res : WaitResult} (h : Settled own lim s)
    (hp : (s.procs p).state ≠ .unused) (hrun : kwait s p addr = .ok (res, s')) :
    ∃ own', Settled own' lim s' ∧ (s'.nullAllocs = s.nullAllocs → s'.swapFulls = s.swapFulls →
      Smoothed own own' s s') := by
  cases res with
  | reaped pid =>
      obtain ⟨q, s₁, own₁, r, own₂, -, -, -, -, hk, -, -, hset, hfreed⟩ := kwait_reaped h hp hrun
      refine ⟨own₂, hset, fun hnull hfull => (hk.smoothed ?_ ?_).trans hfreed.smoothed⟩
      · rw [← hnull, hfreed.nulls]
      · rw [← hfull, hfreed.fulls]
  | failed => exact kwait_other h hp hrun (by simp)
  | asleep => exact kwait_other h hp hrun (by simp)

/-! ### The machine -/

inductive KernelOp where
  | fault (p : ProcId) (va : Nat)
  | grow (p : ProcId) (n : Int32)
  | fork (p : ProcId)
  | exit (p : ProcId) (status : Int)
  | wait (p : ProcId) (addr : Nat)

def KernelOp.proc : KernelOp → ProcId
  | .fault p _ => p
  | .grow p _ => p
  | .fork p => p
  | .exit p _ => p
  | .wait p _ => p

inductive KernelResult where
  | page (pa : Nat)
  | grown (ok : Bool)
  | child (pid : Option Int)
  | exited
  | waited (res : WaitResult)
  deriving DecidableEq

/-- An operation of a process with page table `r`. -/
def kernelOp (r : Nat) : KernelOp → Kernel → Except String (KernelResult × Kernel)
  | .fault p va, s => do
    let (pa, s) ← vmfault s p r va
    return (.page pa, s)
  | .grow p n, s => do
    let (ok, s) ← growproc s p r n.toInt
    return (.grown ok, s)
  | .fork p, s => do
    let (pid, s) ← kfork s p
    return (.child pid, s)
  | .exit p status, s => do
    let s ← kexit s p status
    return (.exited, s)
  | .wait p addr, s => do
    let (res, s) ← kwait s p addr
    return (.waited res, s)

def kernelStep (o : KernelOp) (s : Kernel) : Except String (KernelResult × Kernel) :=
  match (s.procs o.proc).pagetable with
  | none => .error "no process"
  | some r => kernelOp r o s

/-- The process is there, `kalloc` does not return 0 in the step, and swap does not fill up. -/
def KernelOp.Smooth (o : KernelOp) (s : Kernel) : Prop :=
  (s.procs o.proc).state ≠ .unused ∧ ∀ res s', kernelStep o s = .ok (res, s') →
    s'.nullAllocs = s.nullAllocs ∧ s'.swapFulls = s.swapFulls

instance KernelOp.decidableSmooth (o : KernelOp) (s : Kernel) : Decidable (o.Smooth s) :=
  inferInstanceAs (Decidable (_ ∧ _))

/-- **One operation** in which `kalloc` does not return 0. -/
theorem kernelStep_spec {o : KernelOp} {res : KernelResult} (h : Settled own lim s)
    (hlive : (s.procs o.proc).state ≠ .unused) (hstep : kernelStep o s = .ok (res, s'))
    (hnull : s'.nullAllocs = s.nullAllocs) :
    ∃ own' lim', Settled own' lim' s' ∧ (s'.swapFulls = s.swapFulls → Smoothed own own' s s') := by
  obtain ⟨r, hr⟩ := h.exists_root hlive
  simp only [kernelStep, h.wf.pages.pagetable hr] at hstep
  cases o with
  | fault p va =>
      obtain ⟨x, hx, hstep⟩ := bind_eq_ok.mp hstep
      cases hstep
      obtain ⟨own', hset, hk⟩ := vmfault_keeps h hr hx
      exact ⟨own', lim, hset, hk.smoothed hnull⟩
  | grow p n =>
      obtain ⟨x, hx, hstep⟩ := bind_eq_ok.mp hstep
      cases hstep
      obtain ⟨done, s₁, hrun, -, hpost⟩ := growproc_spec h hr (Int32.le_toInt n) (Int32.toInt_lt n)
      cases hx.symm.trans hrun
      obtain ⟨own', lim', hset, -, hok, hfail⟩ := hpost hnull
      refine ⟨own', lim', hset, fun hfull => ?_⟩
      cases done with
      | true => exact ⟨(hok rfl).kend, (hok rfl).kernel, (hok rfl).tracked hfull⟩
      | false => exact (hfail rfl).smoothed hnull hfull
  | fork p =>
      obtain ⟨⟨pid, s₁⟩, hx, hstep⟩ := bind_eq_ok.mp hstep
      cases hstep
      obtain ⟨hnone, hsome⟩ := kfork_spec h hr hx
      cases pid with
      | none =>
          rcases hnone rfl with rfl | hfail
          · exact ⟨own, lim, h, fun _ => .refl own _⟩
          · obtain ⟨own', lim', hset⟩ := hfail.settled (Or.inr hnull)
            refine ⟨own', lim', hset, fun hfull => ?_⟩
            rcases hfail.failed with hlt | hlt
            · exact absurd hnull hlt.ne'
            · exact absurd hfull hlt.ne'
      | some pid =>
          obtain ⟨np, own', lim', new, hset, hf, -⟩ := hsome pid rfl
          exact ⟨own', lim', hset, fun _ => ⟨hf.kend, hf.kernel, hf.tracked⟩⟩
  | exit p status =>
      obtain ⟨s₁, hx, hstep⟩ := bind_eq_ok.mp hstep
      cases hstep
      have hs := kexit_relabelled hlive hx
      exact ⟨own, lim, hs.settled h, fun _ => hs.smoothed own⟩
  | wait p addr =>
      obtain ⟨x, hx, hstep⟩ := bind_eq_ok.mp hstep
      cases hstep
      obtain ⟨own', hset, hs⟩ := kwait_spec h hlive hx
      exact ⟨own', lim, hset, hs hnull⟩

/-- **Each operation keeps the resident pages listed.** -/
theorem kernelStep_listed {o : KernelOp} {res : KernelResult} (h : Listed s) (ho : o.Smooth s)
    (hstep : kernelStep o s = .ok (res, s')) : Listed s' := by
  obtain ⟨own, lim, h, ht⟩ := h
  obtain ⟨hnull, hfull⟩ := ho.2 res s' hstep
  obtain ⟨own', lim', hset, hs⟩ := kernelStep_spec h ho.1 hstep hnull
  exact ⟨own', lim', hset, (hs hfull).tracked ht⟩

/-- **The frame table is exact** in every state of a run. -/
theorem frameTable_exact {ops : List KernelOp} {rs : List KernelResult} (h : Coherent s)
    (hex : FrameTableExact s) (hm : Meets kernelStep KernelOp.Smooth ops s)
    (hrun : run kernelStep ops s = .ok (rs, s')) :
    FrameTableExact s' ∧
      {x : ProcId × Nat | ∃ pa, ResidentAt s' x.1 x.2 pa}.encard ≤ MAX_FRAMES := by
  obtain ⟨own, lim, hset⟩ := h
  have hlisted : Listed s := ⟨own, lim, hset, (frameTableExact_iff hset).mp hex⟩
  obtain ⟨own', lim', hset', ht'⟩ := run_invariant (fun o s r s' ho hI hs => kernelStep_listed hI ho hs)
    ops s rs s' hm hlisted hrun
  have hex' := (frameTableExact_iff hset').mpr ht'
  exact ⟨hex', hex'.encard_le⟩

/-- A process grows, forks, and waits for its child, which has touched a page and exited. -/
def familyRun : List KernelOp :=
  [.grow firstProc (2 * 4096), .fork firstProc, .fault secondProc 4096, .exit secondProc 7,
    .wait firstProc 64]

theorem frameTable_exact_family : ∃ rs s', FrameTableExact firstKernel ∧
    Meets kernelStep KernelOp.Smooth familyRun firstKernel ∧
    run kernelStep familyRun firstKernel = .ok (rs, s') ∧ FrameTableExact s' ∧
    {x : ProcId × Nat | ∃ pa, ResidentAt s' x.1 x.2 pa}.encard ≤ MAX_FRAMES := by
  obtain ⟨own, lim, hset, ht⟩ := firstKernel_listed
  have hex := (frameTableExact_iff hset).mpr ht
  have hm : Meets kernelStep KernelOp.Smooth familyRun firstKernel := by decide +kernel
  have hok : ∃ x, run kernelStep familyRun firstKernel = .ok x :=
    ⟨_, eq_ok_getD ([], firstKernel) (by decide +kernel)⟩
  obtain ⟨⟨rs, s'⟩, hrun⟩ := hok
  exact ⟨rs, s', hex, hm, hrun, frameTable_exact ⟨own, lim, hset⟩ hex hm hrun⟩

example : (run kernelStep familyRun firstKernel).toOption.map Prod.fst =
    some [.grown true, .child (some 2), .page 0x8010F000, .exited, .waited (.reaped 2)] := by
  decide +kernel

end Xv6.Vm
