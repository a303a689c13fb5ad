import Xv6.Vm.Copy
import Xv6.Vm.Flat

/-!
# Vm — Fork

`kfork`: a child with a copy of the parent's memory.

* `kfork_spec`: what `kfork` leaves when it has made a child.
* `Overwritten`: the one way in which the copy goes wrong.  The allocation for the first page that
  is in memory may evict that very page, and `memmove` then copies what `kalloc` has left in it.
-/

namespace Xv6.Vm
open Xv6.Lib
open Xv6.Raid (Page zeroPage PGSIZE BLOCKS_PER_PAGE MAX_SWAP Healthy)

variable {own own' : Nat → Owner} {lim : Nat → Nat} {s s' : Kernel} {p q np : ProcId}
  {r v pa va : Nat}

/-! ### `kfork` -/

/-- `kfork` by `p`, with page table `old`, has made the child `np` with page table `new`. -/
structure Forked (own own' : Nat → Owner) (s s' : Kernel) (p np : ProcId) (old new : Nat) :
    Prop where
  kend : s'.kend = s.kend
  free : freeProc s = some np
  root : own' new = .root np
  roots : ∀ q x, own' x = .root q ↔ own x = .root q ∨ (x = new ∧ q = np)
  kernel : ∀ x, own' x = .kernel ↔ own x = .kernel
  others : ∀ q, q ≠ np → (s'.procs q).ident = (s.procs q).ident
  sz : (s'.procs np).sz = (s.procs p).sz
  state : (s'.procs np).state = .runnable
  flat : ∀ r v, IsTable own r → v < UPAGES → flat s' r v = flat s r v
  perm : ∀ v, v < npages (s.procs p).sz → (Vm.flat s' new v).2 = (Vm.flat s old v).2
  same : ∀ v, v < npages (s.procs p).sz → ¬ (FirstResident s old 0 v ∧ Clobbers s np old v) →
    (Vm.flat s' new v).1 = (Vm.flat s old v).1
  junk : ∀ v, v < npages (s.procs p).sz → FirstResident s old 0 v → Clobbers s np old v →
    (Vm.flat s' new v).1 = junkPage
  nulls : s'.nullAllocs = s.nullAllocs
  fulls : s'.swapFulls = s.swapFulls
  tracked : Tracked own s.frameTable → Tracked own' s'.frameTable

theorem freeProc_ne (h : Settled own lim s) (hr : own r = .root p) (hnp : freeProc s = some np) :
    p ≠ np := by
  rintro rfl
  have := h.wf.pages.pagetable hr
  rw [(h.live p).mp (freeProc_some hnp)] at this
  cases this

section Child

variable {s₁ s₂ : Kernel} {own₁ own₂ : Nat → Owner} {lim₁ : Nat → Nat} {old new : Nat}
  (h : Settled own lim s) (hold : own old = .root p) (hset : Settled own₁ lim₁ s₁)
  (hsp : Spawned own own₁ s s₁ np new)

include h hold hset hsp

omit h hset in
/-- What `allocproc` has left alone decides what the copy does. -/
theorem Spawned.first_clobbers (hv : v < UPAGES) :
    (FirstResident s₁ old 0 v ∧ Clobbers s₁ np old v ↔
      FirstResident s old 0 v ∧ Clobbers s np old v) := by
  have htab : IsTable own old := ⟨p, Or.inl hold⟩
  have hpte : ∀ w, w < UPAGES → s₁.pte old w = s.pte old w := hsp.ext.pte old htab
  unfold FirstResident Clobbers
  rw [hsp.ext.frameTable, hsp.ext.clockHand, hpte v hv]
  refine and_congr_left fun _ => and_congr_right fun _ => and_congr_right fun _ => ?_
  refine forall_congr' fun u => forall_congr' fun _ => forall_congr' fun hu => ?_
  rw [hpte u (by omega)]

/-- The child starts. -/
theorem PagesCopied.forked
    (hcopy : PagesCopied own₁ own₂ lim₁ s₁ s₂ np old new 0 (npages (s.procs p).sz)) :
    Settled own₂ (Function.update lim₁ new (npages (s.procs p).sz)) (startChild s₂ p np) ∧
      Forked own own₂ s (startChild s₂ p np) p np old new := by
  have hpn : p ≠ np := freeProc_ne h hold hsp.free
  have hne : old ≠ new := by
    rintro rfl
    have := hsp.ext.owns (Or.inl hold)
    rcases this with h' | h' <;> rw [hsp.root] at h' <;> cases h'
    exact hpn rfl
  have hszp : (s₂.procs p).sz = (s.procs p).sz := by
    rw [hcopy.keeps.procs.sz, ident_sz (hsp.others p hpn)]
  have hwf := hcopy.wf
  rw [Nat.zero_add] at hwf
  have hroot₂ : own₂ new = .root np := (hcopy.keeps.roots np new).1.mpr hsp.root
  have hsize := hset.resize hsp.root hcopy.keeps.procs hcopy.keeps.roots hcopy.noHeld
    (h.sz_le p) hwf
  have hothers : ∀ q, q ≠ np → (startChild s₂ p np).procs q = s₂.procs q := fun q hq =>
    Function.update_of_ne hq ..
  have hchild : (startChild s₂ p np).procs np = { s₂.procs np with
      sz := (s₂.procs p).sz, regs := { (s₂.procs p).regs with a0 := 0 },
      name := (s₂.procs p).name, parent := some p, state := .runnable } := Function.update_self ..
  have hstate : (s₂.procs np).state = .used := (hcopy.keeps.procs.state np).trans hsp.state
  refine ⟨?_, ?_⟩
  · -- the fields set besides the size are not read by the invariant
    have hw : ∀ q, ((startChild s₂ p np).procs q).pagetable =
          ((withSize s₂ np (s.procs p).sz).procs q).pagetable ∧
        ((startChild s₂ p np).procs q).trapframe =
          ((withSize s₂ np (s.procs p).sz).procs q).trapframe ∧
        ((startChild s₂ p np).procs q).sz = ((withSize s₂ np (s.procs p).sz).procs q).sz ∧
        (((startChild s₂ p np).procs q).state = .unused ↔
          ((withSize s₂ np (s.procs p).sz).procs q).state = .unused) := by
      intro q
      by_cases hq : q = np
      · subst hq
        rw [hchild]
        simp [withSize, setProc, hszp, hstate]
      · rw [hothers q hq]
        simp [withSize, setProc, hq]
    exact hsize.setProcs (fun q => (hw q).1) (fun q => (hw q).2.1) (fun q => (hw q).2.2.1)
      fun q => (hw q).2.2.2
  · have hle := npages_le (h.sz_le p)
    have htab : IsTable own old := ⟨p, Or.inl hold⟩
    refine ⟨hcopy.keeps.procs.kend.trans hsp.ext.kend, hsp.free, hroot₂, fun q x => ?_, fun x => ?_,
      fun q hq => ?_, ?_, by rw [hchild],
      fun r v hr hv => ?_, fun v hv => ?_, fun v hv hnot => ?_, fun v hv hf hc => ?_,
      hcopy.nulls.trans hsp.nulls, hcopy.fulls.trans hsp.ext.fulls, fun ht => ?_⟩
    · rw [(hcopy.keeps.roots q x).1, hsp.roots]
    · rw [hcopy.keeps.kernel, hsp.ext.kernel]
    · rw [hothers q hq, hcopy.keeps.procs.ident, hsp.others q hq]
    · rw [hchild, ← hszp]
    · -- the copy writes to the new table only
      obtain ⟨q, hq⟩ := hr
      have hrn : r ≠ new := by
        rintro rfl
        rcases hq with hq | hq
        · have hq' := (hsp.roots q r).mpr (Or.inl hq)
          rw [hsp.root] at hq'
          cases hq'
          exact freeProc_ne h hq hsp.free rfl
        · exact h.noNew r q hq
      have h₂ : Vm.flat s₂ r v = Vm.flat s₁ r v :=
        hcopy.keeps.flat r v ⟨q, hsp.ext.owns hq⟩ hv fun hk => hrn hk.1
      exact h₂.trans (hsp.ext.flat h.wf ⟨q, hq⟩ hv)
    · have hf := hsp.ext.flat h.wf htab (by omega : v < UPAGES)
      exact (hcopy.perm v (Nat.zero_le v) (by omega)).trans (by rw [hf])
    · have hf := hsp.ext.flat h.wf htab (by omega : v < UPAGES)
      refine (hcopy.same v (Nat.zero_le v) (by omega) fun hx => hnot ?_).trans (by rw [hf])
      exact (hsp.first_clobbers hold (by omega)).mp hx
    · obtain ⟨hf', hc'⟩ := (hsp.first_clobbers hold (by omega)).mpr ⟨hf, hc⟩
      exact hcopy.junk v (by omega) hf' hc'
    · exact hcopy.keeps.tracked hcopy.nulls hcopy.fulls (hsp.ext.tracked ht)

end Child

/-- `kfork` by `p`, with page table `old`, has failed and is undone.  A frame entry may be left of a
page that has been freed, when `kalloc` returned 0 after a page in memory had been copied. -/
structure ForkFailed (s s' : Kernel) (p : ProcId) (old : Nat) : Prop where
  failed : s.nullAllocs < s'.nullAllocs ∨ s.swapFulls < s'.swapFulls
  settled : (∀ v, v < npages (s.procs p).sz → (s.pte old v).has PTE_V = false) ∨
    s'.nullAllocs = s.nullAllocs → ∃ own' lim', Settled own' lim' s'

/-- The child is freed again after a copy that failed. -/
theorem CopyUndone.forkFailed {s₁ s₂ : Kernel} {own₁ own₂ : Nat → Owner} {lim₁ : Nat → Nat}
    {old new : Nat} (h : Settled own lim s) (hold : own old = .root p) (hset : Settled own₁ lim₁ s₁)
    (hsp : Spawned own own₁ s s₁ np new)
    (hu : CopyUndone own₁ own₂ lim₁ s₁ s₂ old new 0 (npages (s.procs p).sz))
    (hrun : freeproc s₂ np = .ok s') : ForkFailed s s' p old := by
  obtain ⟨hn, hf⟩ := freeproc_counts hrun
  refine ⟨by rw [hn, hf, ← hsp.nulls, ← hsp.ext.fulls]; exact hu.failed, fun hk => ?_⟩
  have hle := npages_le (h.sz_le p)
  obtain ⟨hwf, hkeeps, hheld⟩ := hu.kept (by
    refine hk.imp (fun hk v _ hv => ?_) fun hk => ?_
    · rw [hsp.ext.pte old ⟨p, Or.inl hold⟩ v (by omega)]
      exact hk v (by omega)
    · rw [← hn, hk, hsp.nulls])
  have hsz : (s₂.procs np).sz = 0 := (hkeeps.procs.sz np).trans hsp.sz
  have hsize := hset.resize (n := 0) hsp.root hkeeps.procs hkeeps.roots hheld (Nat.zero_le _) hwf
  rw [← hsz, withSize_self] at hsize
  obtain ⟨s₃, own₃, h₃, hset₃, -⟩ := freeproc_spec hsize ((hkeeps.roots np new).1.mpr hsp.root)
  cases hrun.symm.trans h₃
  exact ⟨own₃, _, hset₃⟩

/-- **`kfork`**: it makes a child, or there is no process to make, or an allocation failed. -/
theorem kfork_spec {res : Option Int} {old : Nat} (h : Settled own lim s) (hold : own old = .root p)
    (hrun : kfork s p = .ok (res, s')) :
    (res = none → s' = s ∨ ForkFailed s s' p old) ∧
      ∀ pid, res = some pid → ∃ np own' lim' new, Settled own' lim' s' ∧
        Forked own own' s s' p np old new ∧ pid = (s'.procs np).pid := by
  obtain ⟨⟨res₁, s₁⟩, h₁, hrun⟩ := bind_eq_ok.mp hrun
  obtain ⟨hnone, hsome⟩ := allocproc_spec h h₁
  cases res₁ with
  | none =>
      cases hrun
      refine ⟨fun _ => (hnone rfl).imp And.right ?_, fun pid hpid => by cases hpid⟩
      rintro ⟨np, own', lim', hset, hns⟩
      exact ⟨Or.inl hns.nulls, fun _ => ⟨own', lim', hset⟩⟩
  | some np =>
      obtain ⟨own₁, lim₁, new, hset, hsp⟩ := hsome np rfl
      have hpn : p ≠ np := freeProc_ne h hold hsp.free
      have hold₁ : own₁ old = .root p := (hsp.roots p old).mpr (Or.inl hold)
      have hpt₁ := hset.wf.pages.pagetable hold₁
      have hptn := hset.wf.pages.pagetable hsp.root
      have hszp : (s₁.procs p).sz = (s.procs p).sz := ident_sz (hsp.others p hpn)
      simp only [hpt₁, hptn] at hrun
      obtain ⟨⟨ok, s₂⟩, h₂, hrun⟩ := bind_eq_ok.mp hrun
      have hlim : lim₁ new = 0 := by
        rw [hset.sized np new hsp.root, hsp.sz]
        rfl
      have hle := npages_le (h.sz_le p)
      rw [uvmcopy, hszp] at h₂
      obtain ⟨hdone, hfail⟩ := uvmcopyLoop_spec hpn (npages (s.procs p).sz) 0 own₁ lim₁ s₁ s₂ ok
        hset.wf hset.noHeld hset.noNew hold₁ hsp.root hlim (by omega) h₂
      cases ok with
      | false =>
          obtain ⟨s₃, h₃, hrun⟩ := bind_eq_ok.mp hrun
          cases hrun
          obtain ⟨own₂, hu⟩ := hfail rfl
          exact ⟨fun _ => Or.inr (hu.forkFailed h hold hset hsp h₃), fun pid hpid => by cases hpid⟩
      | true =>
          cases hrun
          refine ⟨fun hf => (by cases hf), fun pid hpid => ?_⟩
          obtain ⟨own₂, hcopy⟩ := hdone rfl
          obtain ⟨hset', hfk⟩ := hcopy.forked h hold hset hsp
          refine ⟨np, own₂, _, new, hset', hfk, ?_⟩
          cases hpid
          simp [startChild, setProc]

theorem kfork_coherent {pid : Int} (h : Coherent s) (hp : (s.procs p).state ≠ .unused)
    (hrun : kfork s p = .ok (some pid, s')) : Coherent s' := by
  obtain ⟨own, lim, h⟩ := h
  obtain ⟨old, hold⟩ := h.exists_root hp
  obtain ⟨np, own', lim', new, hset, -⟩ := (kfork_spec h hold hrun).2 pid rfl
  exact ⟨own', lim', hset⟩

/-! ### What a child should be -/

/-- The child `np` that `p` has made has the memory that `p` had, `p` has it still, and no step of
a later run changes what either process sees, but its own steps. -/
structure ForkExact (s s' : Kernel) (p np : ProcId) : Prop where
  sz : (s'.procs np).sz = (s.procs p).sz
  child : ∀ va, (flatMem s' np).byte va = (flatMem s p).byte va
  parent : flatMem s' p = flatMem s p
  separate : ∀ q, q = p ∨ q = np → ∀ ops rs t o res t', Meets memStep Served ops s' →
    run memStep ops s' = .ok (rs, t) → Served o t → memStep o t = .ok (res, t') → o.proc ≠ q →
    flatMem t' q = flatMem t q

/-- The frame table is full, and the victim of the clock for the new process `np` is the first page
of `p` that is in memory; its contents are not by chance those that `kalloc` gives a page. -/
def Overwritten (s : Kernel) (p np : ProcId) : Prop :=
  ∃ old v, (s.procs p).pagetable = some old ∧ v < npages (s.procs p).sz ∧
    FirstResident s old 0 v ∧ Clobbers s np old v ∧ s.mem (pte2Pa (s.pte old v)) ≠ junkPage

/-- The processes of a coherent kernel do not see each other's steps. -/
theorem steps_separate (h : Coherent s) {ops : List MemOp} {o : MemOp}
    {rs : List (MemResult × Bool)} {res : MemResult × Bool} {t t' : Kernel}
    (hm : Meets memStep Served ops s) (hrun : run memStep ops s = .ok (rs, t)) (ho : Served o t)
    (hstep : memStep o t = .ok (res, t')) (hq : o.proc ≠ q) : flatMem t' q = flatMem t q := by
  obtain ⟨rs₁, t₁, hrun₁, hcoh, -⟩ := run_flat h hm
  cases hrun.symm.trans hrun₁
  obtain ⟨r, full, t₂, hstep₂, hflat, -⟩ := memStep_flat hcoh ho.1 ho.2
  cases hstep.symm.trans hstep₂
  rw [← flatOp_other full (flatMem t) hq.symm, hflat]

/-- An address in page `v`. -/
theorem exists_addr (v : Nat) (i : Fin PGSIZE) : ∃ va, va / PGSIZE = v ∧ pageOff va = i := by
  have hi := i.isLt
  refine ⟨v * PGSIZE + i.val, ?_, Fin.ext (Nat.mul_add_mod_of_lt hi)⟩
  simp only [PGSIZE] at *
  omega

section Exact

variable {old new : Nat} (h : Settled own lim s) (hold : own old = .root p)
  (hset : ∃ lim', Settled own' lim' s') (hf : Forked own own' s s' p np old new)

include h hold hset hf

/-- The child has the parent's bytes just when it has the parent's pages. -/
theorem Forked.bytes_iff : (∀ va, (flatMem s' np).byte va = (flatMem s p).byte va) ↔
    ∀ v, v < npages (s.procs p).sz → (Vm.flat s' new v).1 = (Vm.flat s old v).1 := by
  obtain ⟨lim', hset⟩ := hset
  rw [flatMem_of (h.wf.pages.pagetable hold), flatMem_of (hset.wf.pages.pagetable hf.root)]
  simp only [flatOf, hf.sz]
  constructor
  · intro hall v hv
    funext i
    obtain ⟨va, rfl, rfl⟩ := exists_addr v i
    have := hall va
    rwa [if_pos hv, if_pos hv] at this
  · intro hall va
    split
    · next hv => rw [hall _ hv]
    · rfl

omit hset in
theorem Forked.parent_same : flatMem s' p = flatMem s p := by
  have hpn := freeProc_ne h hold hf.free
  have hid := hf.others p hpn
  exact flatMem_apply_congr h (ident_pagetable hid) (ident_sz hid) fun r v hr hv =>
    hf.flat r v ⟨p, Or.inl hr⟩ hv

omit hset in
/-- The pages are the parent's unless one has been overwritten. -/
theorem Forked.pages_iff : (∀ v, v < npages (s.procs p).sz →
    (Vm.flat s' new v).1 = (Vm.flat s old v).1) ↔ ¬ Overwritten s p np := by
  have htab : IsTable own old := ⟨p, Or.inl hold⟩
  have hres : ∀ v, v < npages (s.procs p).sz → (s.pte old v).has PTE_V = true →
      (Vm.flat s old v).1 = s.mem (pte2Pa (s.pte old v)) := by
    intro v hv hval
    rw [flat_resident ((h.wf.pages.table old htab).resident_of
      (hv.trans_le (npages_le (h.sz_le p))) hval)]
    rfl
  constructor
  · rintro hall ⟨old', v, hpt, hv, hfirst, hcl, hne⟩
    cases (h.wf.pages.pagetable hold).symm.trans hpt
    rw [← hres v hv hfirst.2.1, ← hall v hv] at hne
    exact hne (hf.junk v hv hfirst hcl)
  · intro hnot v hv
    by_cases hc : FirstResident s old 0 v ∧ Clobbers s np old v
    · rw [hf.junk v hv hc.1 hc.2, hres v hv hc.1.2.1]
      by_contra hne
      exact hnot ⟨old, v, h.wf.pages.pagetable hold, hv, hc.1, hc.2, fun he => hne he.symm⟩
    · exact hf.same v hv hc

end Exact

/-- **`kfork` copies memory exactly unless the page it copies first is evicted for the copy.** -/
theorem kfork_exact_iff {pid : Int} (h : Coherent s) (hp : (s.procs p).state ≠ .unused)
    (hrun : kfork s p = .ok (some pid, s')) :
    ∃ np, freeProc s = some np ∧ (s'.procs np).pid = pid ∧
      (ForkExact s s' p np ↔ ¬ Overwritten s p np) := by
  obtain ⟨own, lim, h⟩ := h
  obtain ⟨old, hold⟩ := h.exists_root hp
  obtain ⟨np, own', lim', new, hset, hf, hpid⟩ := (kfork_spec h hold hrun).2 pid rfl
  refine ⟨np, hf.free, hpid.symm, ?_⟩
  rw [← hf.pages_iff h hold, ← hf.bytes_iff h hold ⟨lim', hset⟩]
  refine ⟨ForkExact.child, fun hchild => ⟨hf.sz, hchild, hf.parent_same h hold, ?_⟩⟩
  intro q _ ops rs t o res t' hm hops ho hstep hq
  exact steps_separate ⟨own', lim', hset⟩ hm hops ho hstep hq

/-! ### A kernel in which the copy goes wrong -/

def thirdProc : ProcId := ⟨2, Nat.succ_lt_succ (Nat.succ_lt_succ (Nat.zero_lt_succ 61))⟩

/-- The first process has grown by a page. -/
def grownKernel : Kernel := stateAfter (run memStep [.sbrk firstProc 4096 true] firstKernel) firstKernel

/-- It has forked. -/
def forkedKernel : Kernel := stateAfter (kfork grownKernel firstProc) grownKernel

/-- Its child has grown by 30 pages, and the frame table is full. -/
def crowdedKernel : Kernel :=
  stateAfter (run memStep [.sbrk secondProc (30 * 4096) true] forkedKernel) forkedKernel

theorem coherent_after_run {ops : List MemOp} (h : Coherent s) (hm : Meets memStep Served ops s)
    (d : Kernel) : Coherent (stateAfter (run memStep ops s) d) := by
  obtain ⟨rs, s', hrun, hcoh, -⟩ := run_flat h hm
  rwa [hrun]

/-- The pid that a fork returns. -/
def forkPid (x : Except String (Option Int × Kernel)) : Option Int := x.toOption.bind Prod.fst

theorem kfork_of_pid {x : Except String (Option Int × Kernel)} {pid : Int} (h : forkPid x = some pid)
    (d : Kernel) : x = .ok (some pid, stateAfter x d) := by
  match x, h with
  | .ok (some n, s), h => cases h; rfl

theorem grownKernel_coherent : Coherent grownKernel :=
  coherent_after_run firstKernel_listed.coherent (by decide +kernel) firstKernel

theorem kfork_grownKernel : kfork grownKernel firstProc = .ok (some 2, forkedKernel) :=
  kfork_of_pid (by decide +kernel) grownKernel

theorem forkedKernel_coherent : Coherent forkedKernel :=
  kfork_coherent grownKernel_coherent (by decide +kernel) kfork_grownKernel

theorem crowdedKernel_coherent : Coherent crowdedKernel :=
  coherent_after_run forkedKernel_coherent (by decide +kernel) forkedKernel

theorem kfork_exact_grown : Coherent grownKernel ∧ (grownKernel.procs firstProc).state ≠ .unused ∧
    kfork grownKernel firstProc = .ok (some 2, forkedKernel) ∧
    ∃ np, freeProc grownKernel = some np ∧ (forkedKernel.procs np).pid = 2 ∧
      (ForkExact grownKernel forkedKernel firstProc np ↔ ¬ Overwritten grownKernel firstProc np) :=
  have hp : (grownKernel.procs firstProc).state ≠ .unused := by decide +kernel
  ⟨grownKernel_coherent, hp, kfork_grownKernel,
    kfork_exact_iff grownKernel_coherent hp kfork_grownKernel⟩

/-- The child's page is not the parent's. -/
theorem kfork_copies_evicted_page : ∃ s', Coherent crowdedKernel ∧
    kfork crowdedKernel firstProc = .ok (some 3, s') ∧ freeProc crowdedKernel = some thirdProc ∧
    s'.nullAllocs = crowdedKernel.nullAllocs ∧ s'.swapFulls = crowdedKernel.swapFulls ∧
    (flatMem crowdedKernel firstProc).byte 0 = 0 ∧ (flatMem s' thirdProc).byte 0 = 5 ∧
    ¬ ForkExact crowdedKernel s' firstProc thirdProc := by
  have hpar : (flatMem crowdedKernel firstProc).byte 0 = 0 := by decide +kernel
  have hchild : (flatMem (stateAfter (kfork crowdedKernel firstProc) crowdedKernel) thirdProc).byte 0 = 5 := by
    decide +kernel
  refine ⟨stateAfter (kfork crowdedKernel firstProc) crowdedKernel, crowdedKernel_coherent,
    kfork_of_pid (by decide +kernel) crowdedKernel, by decide +kernel, by decide +kernel,
    by decide +kernel, hpar, hchild, fun hex => ?_⟩
  have := hex.child 0
  rw [hpar, hchild] at this
  cases this

end Xv6.Vm
