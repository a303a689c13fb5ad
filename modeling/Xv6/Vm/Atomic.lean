import Xv6.Vm.Lifecycle

/-!
# Vm — Atomic

`kalloc_user` by its atomic steps, on any number of CPUs.

`kalloc_user` drops `frame_lock` after it has claimed an entry, and takes it again when it knows the
page.  A step is one critical section of `frame_lock`, one `kalloc`, `kfree`, `swap_alloc` or
`swap_write`, or the update of the victim's page-table entry; `Pc` is the place of a CPU between two
steps.  The caller enters the page that it has been given in a page table, which is one more step:
that of the process, or one that `kexec` has made and is filling.  When there is no page for the tables
above the entry, `mappages` fails and the caller frees the page; `vmfault` gets these tables before it
calls.  What else the callers do (they clear the page or read it from swap, and count it) touches
neither the frame table nor an entry.

* `kallocUser_alone`: without other CPUs the steps are `kallocUser`.
* `Entered`: an entry whose page has been entered in the page table of its process.
* `Sound`: the invariant of the runs in which every CPU picks such an entry as its victim.
* `victim_mapped`: in these runs a victim's page is the one that its process maps at the recorded
  address.
-/

namespace Xv6.Vm
open Xv6.Lib
open Xv6.Raid (Page zeroPage PGSIZE BLOCKS_PER_PAGE MAX_SWAP)

/-! ### The steps -/

/-- The arguments of `kalloc_user`, and the page table in which the caller will enter the page. -/
structure Call where
  proc : ProcId
  va : Nat
  table : Nat
  deriving DecidableEq

/-- `vp`, `vva` and `vpa`. -/
structure Victim where
  proc : Option ProcId
  va : Nat
  pa : Nat
  deriving DecidableEq

/-- The place of a CPU in `kalloc_user`: what it is about to do. -/
inductive Pc where
  | idle
  /-- the first critical section -/
  | enter (x : Call)
  | swapAlloc (x : Call) (i : Fin MAX_FRAMES) (w : Victim)
  | swapWrite (x : Call) (i : Fin MAX_FRAMES) (w : Victim) (slot : Nat)
  /-- the update of the victim's entry -/
  | unmap (x : Call) (i : Fin MAX_FRAMES) (w : Victim) (slot : Nat)
  | kfree (x : Call) (i : Fin MAX_FRAMES) (w : Victim)
  | kalloc (x : Call) (i : Fin MAX_FRAMES)
  /-- the critical section that stores the page -/
  | store (x : Call) (i : Fin MAX_FRAMES) (mem : Nat)
  /-- the critical section that gives up the entry -/
  | release (x : Call) (i : Fin MAX_FRAMES)
  /-- the caller enters the page -/
  | map (x : Call) (i : Fin MAX_FRAMES) (mem : Nat)
  /-- the caller frees the page, which it could not enter -/
  | undo (x : Call) (mem : Nat)
  deriving DecidableEq

/-- What `kalloc_user` keeps of its victim. -/
def FrameEntry.victim (f : FrameEntry) : Victim := ⟨f.proc, f.va, f.pa⟩

/-- One step of `kalloc_user`. -/
def kallocUserStep (k : Kernel) : Pc → Except String (Pc × Kernel)
  | .idle => .error "no call"
  | .enter x =>
    match freeFrame k.frameTable with
    | some i => .ok (.kalloc x i, claimFrame k i x.proc x.va (k.frameTable i).pa)
    | none => do
      let (i, ft, hand) ← clockPickVictim k.frameTable k.clockHand x.proc
      return (.swapAlloc x i (ft i).victim,
        claimFrame { k with frameTable := ft, clockHand := hand } i x.proc x.va 0)
  | .swapAlloc x i w =>
    match swapAlloc k with
    | (none, k) => .ok (.release x i, k)
    | (some slot, k) => .ok (.swapWrite x i w slot, k)
  | .swapWrite x i w slot => do
    let k ← swapWrite k slot w.pa w.proc w.va x.proc
    return (.unmap x i w slot, k)
  | .unmap x i w slot =>
    match w.proc with
    | none => .ok (.kfree x i w, k)
    | some q => do
      let k ← swapOutEntry k q w.va slot
      return (.kfree x i w, countEviction k q)
  | .kfree x i w => do
    let k ← kfree k w.pa
    return (.kalloc x i, k)
  | .kalloc x i =>
    match kalloc k with
    | (none, k) => .ok (.release x i, k)
    | (some mem, k) => .ok (.store x i mem, k)
  | .store x i mem => .ok (.map x i mem, setFrame k i { k.frameTable i with pa := mem })
  | .release _ i => .ok (.idle, releaseFrame k i)
  | .map _ _ _ => .error "returned"
  | .undo _ _ => .error "returned"

/-- The steps of one CPU, when no other takes any, with a bound on their number. -/
def alone : Nat → Pc → Kernel → Except String (Option Nat × Kernel)
  | 0, _, _ => .error "steps"
  | _ + 1, .idle, k => .ok (none, k)
  | _ + 1, .map _ _ mem, k => .ok (some mem, k)
  | n + 1, pc, k => do
    let (pc, k) ← kallocUserStep k pc
    alone n pc k

section Alone

variable (n : Nat) (x : Call) (i : Fin MAX_FRAMES) (w : Victim) (slot : Nat) (k : Kernel)

/-- The last steps of both paths. -/
theorem alone_kalloc : alone (n + 3) (.kalloc x i) k = .ok (fillFrame k i) := by
  simp only [alone, kallocUserStep, fillFrame]
  cases kalloc k with
  | mk res k =>
      cases res with
      | none => rfl
      | some mem => rfl

theorem alone_kfree : alone (n + 4) (.kfree x i w) k =
    kfree k w.pa >>= fun k => .ok (fillFrame k i) := by
  rw [alone, kallocUserStep]
  · cases kfree k w.pa with
    | error e => rfl
    | ok k => exact alone_kalloc n x i k
  · simp
  · simp

theorem alone_unmap_none (h : w.proc = none) : alone (n + 5) (.unmap x i w slot) k =
    kfree k w.pa >>= fun k => .ok (fillFrame k i) := by
  rw [alone, kallocUserStep]
  · simp only [h, ok_bind]
    exact alone_kfree n x i w k
  · simp
  · simp

theorem alone_unmap_some {q : ProcId} (h : w.proc = some q) :
    alone (n + 5) (.unmap x i w slot) k = swapOutEntry k q w.va slot >>= fun k =>
      kfree (countEviction k q) w.pa >>= fun k => .ok (fillFrame k i) := by
  rw [alone, kallocUserStep]
  · simp only [h]
    cases swapOutEntry k q w.va slot with
    | error e => rfl
    | ok k => exact alone_kfree n x i w _
  · simp
  · simp

theorem alone_swapWrite : alone (n + 6) (.swapWrite x i w slot) k =
    swapWrite k slot w.pa w.proc w.va x.proc >>= fun k => alone (n + 5) (.unmap x i w slot) k := by
  rw [alone, kallocUserStep]
  · cases swapWrite k slot w.pa w.proc w.va x.proc with
    | error e => rfl
    | ok k => rfl
  · simp
  · simp

end Alone

/-- **The steps are those of `kalloc_user`.** -/
theorem kallocUser_alone (k : Kernel) (p : ProcId) (va r : Nat) :
    kallocUser k p va = alone 8 (.enter ⟨p, va, r⟩) k := by
  rw [alone, kallocUserStep, kallocUser]
  · cases freeFrame k.frameTable with
    | some i => exact (alone_kalloc 4 _ i _).symm
    | none =>
        cases clockPickVictim k.frameTable k.clockHand p with
        | error e => rfl
        | ok y =>
            obtain ⟨i, ft, hand⟩ := y
            simp only [ok_bind, pure_eq_ok]
            rw [alone, kallocUserStep]
            · cases swapAlloc (claimFrame { k with frameTable := ft, clockHand := hand } i p va 0) with
              | mk res k =>
                  cases res with
                  | none => rfl
                  | some slot =>
                      simp only [ok_bind]
                      rw [alone_swapWrite]
                      simp only [FrameEntry.victim]
                      cases swapWrite k slot (ft i).pa (ft i).proc (ft i).va p with
                      | error e => rfl
                      | ok k =>
                          simp only [ok_bind]
                          cases hp : (ft i).proc with
                          | none => rw [alone_unmap_none 0 _ _ _ _ _ rfl]
                          | some q => rw [alone_unmap_some 0 _ _ _ _ _ rfl]
            · simp
            · simp
  · simp
  · simp

/-! ### What a process maps -/

variable {k k' : Kernel} {p q : ProcId} {r v va : Nat}

/-- The page that a valid entry of `q` maps at `va`. -/
def mapped (k : Kernel) (q : ProcId) (va : Nat) : Option Nat :=
  match (k.procs q).pagetable with
  | none => none
  | some r =>
    match walk k r va with
    | .ok (some e) => if e.has PTE_V then some (pte2Pa e) else none
    | _ => none

theorem mapped_of_walk {e : Pte} (hr : (k.procs q).pagetable = some r)
    (hw : walk k r va = .ok (some e)) :
    mapped k q va = if e.has PTE_V then some (pte2Pa e) else none := by
  simp only [mapped, hr, hw]

theorem mapped_some {pa : Nat} (h : mapped k q va = some pa) : ∃ r e,
    (k.procs q).pagetable = some r ∧ walk k r va = .ok (some e) ∧ e.has PTE_V = true ∧
      pte2Pa e = pa := by
  unfold mapped at h
  split at h
  · cases h
  · next r hr =>
      split at h
      · next e hw =>
          split at h
          · next hval => exact ⟨r, e, hr, hw, hval, Option.some.inj h⟩
          · cases h
      · cases h

theorem mapped_congr (ht : k'.tables = k.tables)
    (hp : ∀ q, (k'.procs q).pagetable = (k.procs q).pagetable) (q : ProcId) (va : Nat) :
    mapped k' q va = mapped k q va := by
  simp only [mapped, hp, walk_congr ht]

/-- A walk in a table reads its levels and one entry. -/
theorem walk_of_table (h1 : (k'.tables r).l1 (va / 2 ^ 30) = (k.tables r).l1 (va / 2 ^ 30))
    (h0 : (k'.tables r).l0 (va / 2 ^ 21) = (k.tables r).l0 (va / 2 ^ 21))
    (hpte : k'.pte r (va / PGSIZE) = k.pte r (va / PGSIZE)) : walk k' r va = walk k r va := by
  unfold Kernel.pte at hpte
  simp only [walk, h1, h0, hpte]

theorem walk_setPte_self {e₀ e : Pte} (hw : walk k r va = .ok (some e₀)) :
    walk (setPte k r (va / PGSIZE) e) r va = .ok (some e) := by
  have hpte : ((setPte k r (va / PGSIZE) e).tables r).pte (va / PGSIZE) = e := by
    have := pte_setPte k r (va / PGSIZE) e r (va / PGSIZE)
    rwa [if_pos ⟨rfl, rfl⟩] at this
  unfold walk at hw ⊢
  split at hw
  · cases hw
  · next hlt =>
      rw [if_neg hlt, setPte_l1, setPte_l0, hpte]
      split at hw
      · rfl
      · cases hw

/-- An entry of one process is set. -/
theorem mapped_setPte_self {e₀ e : Pte} (hr : (k.procs q).pagetable = some r)
    (hw : walk k r va = .ok (some e₀)) : mapped (setPte k r (va / PGSIZE) e) q va =
      if e.has PTE_V then some (pte2Pa e) else none :=
  mapped_of_walk hr (walk_setPte_self hw)

theorem mapped_setPte_other {e : Pte} (h : ¬ ((k.procs q).pagetable = some r ∧ va / PGSIZE = v)) :
    mapped (setPte k r v e) q va = mapped k q va := by
  cases hr : (k.procs q).pagetable with
  | none =>
      have hr' : ((setPte k r v e).procs q).pagetable = none := hr
      simp only [mapped, hr, hr']
  | some r' =>
      have hr' : ((setPte k r v e).procs q).pagetable = some r' := hr
      have hw : walk (setPte k r v e) r' va = walk k r' va := by
        refine walk_of_table (by rw [setPte_l1]) (by rw [setPte_l0]) ?_
        rw [pte_setPte, if_neg]
        rintro ⟨rfl, hv⟩
        exact h ⟨hr, hv⟩
      simp only [mapped, hr, hr', hw]

/-- A table that is no process's is set. -/
theorem mapped_setTable {t : PageTable} (hr : ∀ q, (k.procs q).pagetable ≠ some r) (q : ProcId) (va : Nat) :
    mapped (setTable k r t) q va = mapped k q va := by
  cases hq : (k.procs q).pagetable with
  | none =>
      have hq' : ((setTable k r t).procs q).pagetable = none := hq
      simp only [mapped, hq, hq']
  | some r' =>
      have hq' : ((setTable k r t).procs q).pagetable = some r' := hq
      have hne : r' ≠ r := fun he => hr q (he ▸ hq)
      have htab : (setTable k r t).tables r' = k.tables r' := Function.update_of_ne hne ..
      have hw : walk (setTable k r t) r' va = walk k r' va :=
        walk_of_table (by rw [htab]) (by rw [htab]) (by unfold Kernel.pte; rw [htab])
      simp only [mapped, hq, hq', hw]

/-- What a walk in one table finds valid. -/
def PageTable.valid (t : PageTable) (va : Nat) : Option Nat :=
  if va ≥ MAXVA then none
  else
    match t.l1 (va / 2 ^ 30), t.l0 (va / 2 ^ 21) with
    | some _, some _ =>
      if (t.pte (va / PGSIZE)).has PTE_V then some (pte2Pa (t.pte (va / PGSIZE))) else none
    | _, _ => none

theorem mapped_eq (hr : (k.procs q).pagetable = some r) : mapped k q va = (k.tables r).valid va := by
  unfold mapped PageTable.valid walk
  rw [hr]
  by_cases hva : va ≥ MAXVA
  · simp only [if_pos hva]
  · simp only [if_neg hva]
    cases (k.tables r).l1 (va / 2 ^ 30) with
    | none => rfl
    | some a =>
        cases (k.tables r).l0 (va / 2 ^ 21) with
        | none => rfl
        | some b => rfl

/-- A new level-1 table hides nothing: there was none before. -/
theorem valid_newL1 {t : PageTable} {j pa : Nat} (h1 : t.l1 j = none) (va : Nat) :
    PageTable.valid { t with
      l1 := Function.update t.l1 j (some pa)
      l0 := fun i => if i / 512 = j then none else t.l0 i } va = t.valid va := by
  unfold PageTable.valid
  by_cases hj : va / 2 ^ 30 = j
  · have hin : va / 2 ^ 21 / 512 = j := by omega
    simp only [hj, h1, hin, if_true, Function.update_self]
  · have hout : va / 2 ^ 21 / 512 ≠ j := by omega
    simp only [Function.update_of_ne hj, if_neg hout]

/-- A new level-0 table is empty. -/
theorem valid_newL0 {t : PageTable} {j pa : Nat} (h0 : t.l0 j = none) (va : Nat) :
    PageTable.valid { t with
      l0 := Function.update t.l0 j (some pa)
      pte := fun v => if v / 512 = j then 0 else t.pte v } va = t.valid va := by
  have hdiv : va / PGSIZE / 512 = va / 2 ^ 21 := by
    simp only [PGSIZE]
    omega
  unfold PageTable.valid
  by_cases hj : va / 2 ^ 21 = j
  · have hzero : (0 : Pte).has PTE_V = false := rfl
    simp only [hdiv, hj, h0, if_true, hzero, Function.update_self, Bool.false_eq_true, if_false]
    cases t.l1 (va / 2 ^ 30) with
    | none => rfl
    | some a => rfl
  · simp only [hdiv, Function.update_of_ne hj, if_neg hj]

theorem kalloc_same (k : Kernel) : (kalloc k).2.tables = k.tables ∧ (kalloc k).2.procs = k.procs ∧
    (kalloc k).2.frameTable = k.frameTable := by
  unfold kalloc
  split
  · exact ⟨rfl, rfl, rfl⟩
  · exact ⟨rfl, rfl, rfl⟩

/-- The walk has changed no process, no frame and nothing that is mapped. -/
structure Walked (k k' : Kernel) : Prop where
  procs : k'.procs = k.procs
  frameTable : k'.frameTable = k.frameTable
  valid : ∀ r va, (k'.tables r).valid va = (k.tables r).valid va
  free : ∀ x, x ∈ k'.freelist → x ∈ k.freelist

theorem Walked.trans {k₁ : Kernel} (h : Walked k k₁) (h' : Walked k₁ k') : Walked k k' :=
  ⟨h'.procs.trans h.procs, h'.frameTable.trans h.frameTable,
    fun r va => (h'.valid r va).trans (h.valid r va), fun x hx => h.free x (h'.free x hx)⟩

theorem walked_kalloc (k : Kernel) : Walked k (kalloc k).2 := by
  unfold kalloc
  split
  · next hnil => exact ⟨rfl, rfl, fun _ _ => rfl, fun x hx => hx⟩
  · next pa rest hcons =>
      refine ⟨rfl, rfl, fun _ _ => rfl, fun x hx => ?_⟩
      rw [hcons]
      exact List.mem_cons_of_mem pa hx

theorem walked_setTable {t : PageTable} (h : ∀ va, t.valid va = (k.tables r).valid va) :
    Walked k (setTable k r t) := by
  refine ⟨rfl, rfl, fun r' va => ?_, fun _ hx => hx⟩
  by_cases hr : r' = r
  · subst hr
    rw [show (setTable k r' t).tables r' = t from Function.update_self ..]
    exact h va
  · rw [show (setTable k r t).tables r' = k.tables r' from Function.update_of_ne hr ..]

theorem walked_walkL1 (k : Kernel) (r j : Nat) : Walked k (walkL1 k r j).2 := by
  have hk := walked_kalloc k
  have ht := kalloc_same k
  unfold walkL1
  split
  · exact ⟨rfl, rfl, fun _ _ => rfl, fun _ hx => hx⟩
  · next h1 =>
      split
      · next k₁ he =>
          rw [he] at hk
          exact hk
      · next pa k₁ he =>
          rw [he] at hk ht
          refine hk.trans (walked_setTable (valid_newL1 ?_))
          rw [ht.1]
          exact h1

theorem walked_walkL0 (k : Kernel) (r j : Nat) : Walked k (walkL0 k r j).2 := by
  have hk := walked_kalloc k
  have ht := kalloc_same k
  unfold walkL0
  split
  · exact ⟨rfl, rfl, fun _ _ => rfl, fun _ hx => hx⟩
  · next h0 =>
      split
      · next k₁ he =>
          rw [he] at hk
          exact hk
      · next pa k₁ he =>
          rw [he] at hk ht
          refine hk.trans (walked_setTable (valid_newL0 ?_))
          rw [ht.1]
          exact h0

theorem Walked.mapped (h : Walked k k') (q : ProcId) (va : Nat) :
    Vm.mapped k' q va = Vm.mapped k q va := by
  cases hr : (k.procs q).pagetable with
  | none => simp only [Vm.mapped, h.procs, hr]
  | some r => rw [mapped_eq hr, mapped_eq (by rw [h.procs]; exact hr), h.valid]

theorem walkL1_finds {j : Nat} (h : walkL1 k r j = (true, k')) : ((k'.tables r).l1 j).isSome := by
  unfold walkL1 at h
  split at h
  · next a h1 =>
      cases h
      rw [h1]
      rfl
  · split at h
    · cases h
    · cases h
      simp [setTable]

theorem walkL0_finds {j : Nat} (h : walkL0 k r j = (true, k')) :
    ((k'.tables r).l0 j).isSome ∧ (k'.tables r).l1 = (k.tables r).l1 := by
  have ht := kalloc_same k
  unfold walkL0 at h
  split at h
  · next a h0 =>
      cases h
      exact ⟨by rw [h0]; rfl, rfl⟩
  · split at h
    · cases h
    · next pa k₁ he =>
        rw [he] at ht
        cases h
        have ht₁ : k₁.tables = k.tables := ht.1
        refine ⟨by simp [setTable], ?_⟩
        simp [setTable, ht₁]

/-- `walk(pagetable, va, 1)`. -/
theorem walked_walkAlloc {found : Bool} (h : walkAlloc k r va = .ok (found, k')) :
    Walked k k' ∧ (found = true → ∃ e, walk k' r va = .ok (some e)) := by
  have h₁ := walked_walkL1 k r (va / 2 ^ 30)
  unfold walkAlloc at h
  split at h
  · cases h
  · next hva =>
      split at h
      · next k₁ he =>
          cases h
          rw [he] at h₁
          exact ⟨h₁, fun hf => by cases hf⟩
      · next k₁ he =>
          rw [he] at h₁
          have h₂ := walked_walkL0 k₁ r (va / 2 ^ 21)
          rw [Except.ok.inj h] at h₂
          refine ⟨h₁.trans h₂, fun hf => ?_⟩
          subst hf
          obtain ⟨hl0, hl1⟩ := walkL0_finds (Except.ok.inj h)
          have hs1 := walkL1_finds he
          rw [← hl1] at hs1
          obtain ⟨a, ha⟩ := Option.isSome_iff_exists.mp hs1
          obtain ⟨b, hb⟩ := Option.isSome_iff_exists.mp hl0
          exact ⟨(k'.tables r).pte (va / PGSIZE), by simp only [walk, if_neg hva, ha, hb]⟩

/-! ### The CPUs -/

/-- The call that a CPU is in. -/
def Pc.call : Pc → Option Call
  | .idle => none
  | .enter x => some x
  | .swapAlloc x _ _ => some x
  | .swapWrite x _ _ _ => some x
  | .unmap x _ _ _ => some x
  | .kfree x _ _ => some x
  | .kalloc x _ => some x
  | .store x _ _ => some x
  | .release x _ => some x
  | .map x _ _ => some x
  | .undo x _ => some x

/-- The entry that a CPU has claimed. -/
def Pc.frame : Pc → Option (Fin MAX_FRAMES)
  | .idle => none
  | .enter _ => none
  | .swapAlloc _ i _ => some i
  | .swapWrite _ i _ _ => some i
  | .unmap _ i _ _ => some i
  | .kfree _ i _ => some i
  | .kalloc _ i => some i
  | .store _ i _ => some i
  | .release _ i => some i
  | .map _ i _ => some i
  | .undo _ _ => none

/-- The victim whose entry a CPU has taken and whose page it has not unmapped. -/
def Pc.victim : Pc → Option Victim
  | .swapAlloc _ _ w => some w
  | .swapWrite _ _ w _ => some w
  | .unmap _ _ w _ => some w
  | _ => none

/-- The page that a CPU has got from `kalloc`. -/
def Pc.mem : Pc → Option Nat
  | .store _ _ mem => some mem
  | .map _ _ mem => some mem
  | _ => none

/-- `n` CPUs that share the kernel.  `home` is a record for the proofs: the page table in which the page of
an entry has been entered since the entry was claimed. -/
structure System (n : Nat) where
  kernel : Kernel
  pc : Fin n → Pc
  home : Fin MAX_FRAMES → Option Nat

/-- The page table of the process of entry `i`. -/
def ownTable (k : Kernel) (i : Fin MAX_FRAMES) : Option Nat :=
  (k.frameTable i).proc.bind fun p => (k.procs p).pagetable

/-- No CPU is in `kalloc_user`. -/
def System.start (n : Nat) (k : Kernel) : System n := ⟨k, fun _ => .idle, ownTable k⟩

variable {n : Nat} {σ σ' : System n} {c : Fin n}

/-- A process may call `kalloc_user` for a page that is not in the page table for which it is meant: its own, or
one that is no process's yet.  It runs on one CPU only, so no other call is under way for it. -/
def MayCall (σ : System n) (x : Call) : Prop :=
  x.va % PGSIZE = 0 ∧ (σ.kernel.tables x.table).valid x.va = none ∧
    (∀ q, (σ.kernel.procs q).pagetable = some x.table → q = x.proc) ∧
    ∀ c, ((σ.pc c).call).map Call.proc ≠ some x.proc

instance decidableMayCall (σ : System n) (x : Call) : Decidable (MayCall σ x) :=
  inferInstanceAs (Decidable (_ ∧ _))

/-- The caller enters page `mem` for `x`; `false` when there is no page for a table above the entry. -/
def enterPage (k : Kernel) (x : Call) (mem : Nat) (perm : Pte) : Except String (Bool × Kernel) := do
  let (found, k) ← walkAlloc k x.table x.va
  if !found then return (false, k)
  else return (true, setPte k x.table (x.va / PGSIZE) (mapPte mem perm))

instance decidablePermOk (perm : Pte) : Decidable (PermOk perm) :=
  decidable_of_iff (perm.above = 0 ∧ perm.has PTE_SWAPPED = false)
    ⟨fun h => ⟨h.1, h.2⟩, fun h => ⟨h.above, h.not_swapped⟩⟩

inductive CpuAct (n : Nat) where
  /-- `kexec` makes a page table -/
  | create (c : Fin n)
  /-- `vmfault` looks for the entry before it calls -/
  | walk (c : Fin n) (r va : Nat)
  | call (c : Fin n) (x : Call)
  | next (c : Fin n)
  | map (c : Fin n) (perm : Pte)
  | undo (c : Fin n)

/-- The page of an entry that a CPU has claimed has not been entered anywhere. -/
def forget (home : Fin MAX_FRAMES → Option Nat) (pc : Pc) : Fin MAX_FRAMES → Option Nat :=
  match pc.frame with
  | some i => Function.update home i none
  | none => home

/-- CPU `c` goes on to `pc`. -/
abbrev System.goes (σ : System n) (c : Fin n) (k : Kernel) (pc : Pc)
    (home : Fin MAX_FRAMES → Option Nat) : System n :=
  ⟨k, Function.update σ.pc c pc, home⟩

/-- A step of one CPU.  A page from the free list is no process's page table. -/
def cpuStep : CpuAct n → System n → Except String (Unit × System n)
  | .create c, σ =>
    let (r, k) := uvmcreate σ.kernel
    if σ.pc c = .idle ∧ ∀ q, r ≠ none → (σ.kernel.procs q).pagetable ≠ r then
      .ok ((), σ.goes c k .idle σ.home)
    else .error "no new table"
  | .walk c r va, σ =>
    if σ.pc c = .idle then do
      let (_, k) ← walkAlloc σ.kernel r va
      return ((), σ.goes c k .idle σ.home)
    else .error "no fault"
  | .call c x, σ =>
    if σ.pc c = .idle ∧ MayCall σ x then .ok ((), σ.goes c σ.kernel (.enter x) σ.home)
    else .error "no such call"
  | .next c, σ => do
    let (pc, k) ← kallocUserStep σ.kernel (σ.pc c)
    return ((), σ.goes c k pc (forget σ.home pc))
  | .map c perm, σ =>
    match σ.pc c with
    | .map x i mem =>
      if PermOk perm then do
        let (found, k) ← enterPage σ.kernel x mem perm
        if found then return ((), σ.goes c k .idle (Function.update σ.home i (some x.table)))
        else return ((), σ.goes c k (.undo x mem) σ.home)
      else .error "no such permissions"
    | _ => .error "nothing to map"
  | .undo c, σ =>
    match σ.pc c with
    | .undo _ mem => do
      let k ← kfree σ.kernel mem
      return ((), σ.goes c k .idle σ.home)
    | _ => .error "nothing to undo"

/-- The page of entry `i` has been entered in the page table of its process. -/
def Entered (σ : System n) (i : Fin MAX_FRAMES) : Prop :=
  σ.home i ≠ none ∧ σ.home i = ownTable σ.kernel i

instance decidableEntered (σ : System n) (i : Fin MAX_FRAMES) : Decidable (Entered σ i) :=
  inferInstanceAs (Decidable (_ ∧ _))

/-- Some CPU has claimed entry `i` for a page of the page table of its process, and has not entered it yet. -/
def InFlight (σ : System n) (i : Fin MAX_FRAMES) : Prop :=
  ∃ c x, (σ.pc c).frame = some i ∧ (σ.pc c).call = some x ∧ (σ.kernel.procs x.proc).pagetable = some x.table

/-- The victim that `kalloc_user(p, _)` would pick. -/
def nextVictim (k : Kernel) (p : ProcId) : Option (Fin MAX_FRAMES) :=
  match freeFrame k.frameTable with
  | some _ => none
  | none => (clockPickVictim k.frameTable k.clockHand p).toOption.map Prod.fst

/-- The call whose first critical section a CPU is about to run. -/
def Pc.entering : Pc → Option Call
  | .enter x => some x
  | _ => none

/-- A CPU that picks a victim picks an entry whose page has been entered in the page table of its process. -/
def PicksEntered (a : CpuAct n) (σ : System n) : Prop :=
  match a with
  | .next c => ∀ x ∈ (σ.pc c).entering, ∀ i ∈ nextVictim σ.kernel x.proc, Entered σ i
  | _ => True

instance decidablePicksEntered (a : CpuAct n) (σ : System n) : Decidable (PicksEntered a σ) :=
  match a with
  | .create _ => isTrue trivial
  | .walk _ _ _ => isTrue trivial
  | .call _ _ => isTrue trivial
  | .next c => inferInstanceAs (Decidable (∀ x ∈ (σ.pc c).entering, _))
  | .map _ _ => isTrue trivial
  | .undo _ => isTrue trivial

/-- The page of `w` is the one that its process maps at its address. -/
def Victim.Mapped (w : Victim) (k : Kernel) : Prop :=
  ∃ q, w.proc = some q ∧ mapped k q w.va = some w.pa

/-! ### The invariant -/

/-- **The invariant of the runs in which every victim has been entered.**  An entry whose page has been entered
in the page table of its process is about the page that the process maps, and is the only such one; a call
is about a page that its process does not map. -/
structure Sound (σ : System n) : Prop where
  phys : ∀ pa ∈ σ.kernel.freelist, PhysOk pa
  root_inj : ∀ p q r, (σ.kernel.procs p).pagetable = some r →
    (σ.kernel.procs q).pagetable = some r → p = q
  owned : ∀ i, (σ.kernel.frameTable i).used = true → (σ.kernel.frameTable i).proc ≠ none
  aligned : ∀ i, (σ.kernel.frameTable i).used = true → (σ.kernel.frameTable i).va % PGSIZE = 0
  built : ∀ i, (σ.kernel.frameTable i).used = true → Entered σ i →
    (σ.kernel.frameTable i).victim.Mapped σ.kernel
  key_inj : ∀ i j, (σ.kernel.frameTable i).used = true → Entered σ i →
    (σ.kernel.frameTable j).used = true → Entered σ j →
    (σ.kernel.frameTable i).proc = (σ.kernel.frameTable j).proc →
      (σ.kernel.frameTable i).va = (σ.kernel.frameTable j).va → i = j
  call : ∀ c x, (σ.pc c).call = some x → x.va % PGSIZE = 0 ∧
    ((σ.kernel.procs x.proc).pagetable = some x.table → mapped σ.kernel x.proc x.va = none) ∧
    ∀ q, (σ.kernel.procs q).pagetable = some x.table → q = x.proc
  call_inj : ∀ c c' x x', (σ.pc c).call = some x → (σ.pc c').call = some x' → x.proc = x'.proc →
    c = c'
  frame : ∀ c i x, (σ.pc c).frame = some i → (σ.pc c).call = some x →
    (σ.kernel.frameTable i).used = true ∧ (σ.kernel.frameTable i).proc = some x.proc ∧
      (σ.kernel.frameTable i).va = x.va ∧ σ.home i = none
  /-- a victim's page is mapped, and has no entry any more -/
  victim : ∀ c w, (σ.pc c).victim = some w → w.va % PGSIZE = 0 ∧ w.Mapped σ.kernel ∧
    ∀ i, (σ.kernel.frameTable i).used = true → Entered σ i →
      ¬ ((σ.kernel.frameTable i).proc = w.proc ∧ (σ.kernel.frameTable i).va = w.va)
  victim_inj : ∀ c c' w w', (σ.pc c).victim = some w → (σ.pc c').victim = some w' →
    w.proc = w'.proc → w.va = w'.va → c = c'
  mem : ∀ c m, (σ.pc c).mem = some m → PhysOk m
  stored : ∀ c x i m, σ.pc c = .map x i m → (σ.kernel.frameTable i).pa = m

/-- A CPU that has claimed an entry is in a call. -/
theorem Pc.call_of_frame {pc : Pc} {i : Fin MAX_FRAMES} (h : pc.frame = some i) :
    ∃ x, pc.call = some x := by
  cases pc with
  | idle => cases h
  | enter x => cases h
  | swapAlloc x i w => exact ⟨x, rfl⟩
  | swapWrite x i w slot => exact ⟨x, rfl⟩
  | unmap x i w slot => exact ⟨x, rfl⟩
  | kfree x i w => exact ⟨x, rfl⟩
  | kalloc x i => exact ⟨x, rfl⟩
  | store x i m => exact ⟨x, rfl⟩
  | release x i => exact ⟨x, rfl⟩
  | map x i m => exact ⟨x, rfl⟩
  | undo x m => cases h

/-- Two CPUs claim different entries. -/
theorem Sound.frame_inj (h : Sound σ) {c' : Fin n} {i : Fin MAX_FRAMES}
    (hc : (σ.pc c).frame = some i) (hc' : (σ.pc c').frame = some i) : c = c' := by
  obtain ⟨x, hx⟩ := Pc.call_of_frame hc
  obtain ⟨x', hx'⟩ := Pc.call_of_frame hc'
  have h1 := (h.frame c i x hc hx).2.1
  have h2 := (h.frame c' i x' hc' hx').2.1
  exact h.call_inj c c' x x' hx hx' (Option.some.inj (h1.symm.trans h2))

/-- An entry that a CPU has claimed is in use, and has not been entered. -/
theorem Sound.claimed (h : Sound σ) {i : Fin MAX_FRAMES} (hc : (σ.pc c).frame = some i) :
    (σ.kernel.frameTable i).used = true ∧ σ.home i = none := by
  obtain ⟨x, hx⟩ := Pc.call_of_frame hc
  obtain ⟨hu, -, -, hhome⟩ := h.frame c i x hc hx
  exact ⟨hu, hhome⟩

/-- The page of a call for the table of its process has no entry. -/
theorem Sound.no_entry (h : Sound σ) {x : Call} (hx : (σ.pc c).call = some x)
    (hown : (σ.kernel.procs x.proc).pagetable = some x.table) {j : Fin MAX_FRAMES}
    (hj : (σ.kernel.frameTable j).used = true) (hent : Entered σ j) :
    ¬ ((σ.kernel.frameTable j).proc = some x.proc ∧ (σ.kernel.frameTable j).va = x.va) := by
  rintro ⟨hp, hva⟩
  obtain ⟨q, hq, hm⟩ := h.built j hj hent
  have hq' : q = x.proc := Option.some.inj (hq.symm.trans hp)
  subst hq'
  have hnone := (h.call c x hx).2.1 hown
  rw [← hva] at hnone
  cases hm.symm.trans hnone

/-! ### The steps keep the invariant -/

theorem goes_self (σ : System n) (c : Fin n) (k : Kernel) (pc : Pc) (home : Fin MAX_FRAMES → Option Nat) :
    (σ.goes c k pc home).pc c = pc := Function.update_self ..

/-- Every CPU is where it was, or is the one that went on. -/
theorem goes_cases (σ : System n) (c c' : Fin n) (k : Kernel) (pc : Pc)
    (home : Fin MAX_FRAMES → Option Nat) :
    (c' = c ∧ (σ.goes c k pc home).pc c' = pc) ∨ (c' ≠ c ∧ (σ.goes c k pc home).pc c' = σ.pc c') := by
  by_cases hc : c' = c
  · subst hc
    exact Or.inl ⟨rfl, goes_self ..⟩
  · exact Or.inr ⟨hc, Function.update_of_ne hc ..⟩

/-- What a CPU has after a step it had before, when the one that went on did not get it by the step. -/
theorem goes_had {β : Type} {k : Kernel} {pc : Pc} {home : Fin MAX_FRAMES → Option Nat} (f : Pc → Option β)
    (hf : ∀ b, f pc = some b → f (σ.pc c) = some b) {c' : Fin n} {b : β}
    (h : f ((σ.goes c k pc home).pc c') = some b) : f (σ.pc c') = some b := by
  rcases goes_cases σ c c' k pc home with ⟨rfl, he⟩ | ⟨-, he⟩
  · rw [he] at h
    exact hf b h
  · rwa [he] at h

/-- A CPU that has given something up does not have it. -/
theorem goes_lost {β : Type} {k : Kernel} {pc : Pc} {home : Fin MAX_FRAMES → Option Nat} (f : Pc → Option β)
    (hf : f pc = none) {c' : Fin n} {b : β} (h : f ((σ.goes c k pc home).pc c') = some b) :
    c' ≠ c ∧ f (σ.pc c') = some b := by
  rcases goes_cases σ c c' k pc home with ⟨rfl, he⟩ | ⟨hne, he⟩
  · rw [he, hf] at h
    cases h
  · exact ⟨hne, by rwa [he] at h⟩

theorem Victim.mapped_congr {w : Victim} (hm : ∀ q va, mapped k' q va = mapped k q va)
    (h : w.Mapped k) : w.Mapped k' := by
  obtain ⟨q, hq, hw⟩ := h
  exact ⟨q, hq, (hm q w.va).trans hw⟩

/-- A step that touches neither an entry nor a mapping, and takes nothing. -/
theorem Sound.quiet (h : Sound σ) {pc : Pc} (hft : k.frameTable = σ.kernel.frameTable)
    (hm : ∀ q va, mapped k q va = mapped σ.kernel q va)
    (hroot : ∀ q, (k.procs q).pagetable = (σ.kernel.procs q).pagetable)
    (hphys : ∀ pa ∈ k.freelist, PhysOk pa) (hcall : ∀ x, pc.call = some x → (σ.pc c).call = some x)
    (hframe : ∀ i, pc.frame = some i → (σ.pc c).frame = some i)
    (hvict : ∀ w, pc.victim = some w → (σ.pc c).victim = some w)
    (hmem : ∀ m, pc.mem = some m → PhysOk m) (hmap : ∀ x i m, pc ≠ .map x i m) :
    Sound (σ.goes c k pc σ.home) := by
  have hent : ∀ i, Entered (σ.goes c k pc σ.home) i → Entered σ i := by
    rintro i ⟨hne, he⟩
    refine ⟨hne, he.trans ?_⟩
    simp only [ownTable, hft, hroot]
  refine ⟨hphys, fun p q r hp hq => ?_, fun i hi => ?_, fun i hi => ?_, fun i hi he => ?_,
    fun i j hi hei hj hej => ?_, fun c' x hx => ?_,
    fun c₁ c₂ x x' hx hx' => h.call_inj c₁ c₂ x x' (goes_had Pc.call hcall hx) (goes_had Pc.call hcall hx'),
    fun c' i x hi hx => ?_, fun c' w hw => ?_,
    fun c₁ c₂ w w' hw hw' => h.victim_inj c₁ c₂ w w' (goes_had Pc.victim hvict hw)
      (goes_had Pc.victim hvict hw'), fun c' m hmm => ?_, fun c' x i m hpc => ?_⟩
  · rw [hroot] at hp hq
    exact h.root_inj p q r hp hq
  · rw [hft] at hi ⊢
    exact h.owned i hi
  · rw [hft] at hi ⊢
    exact h.aligned i hi
  · rw [hft] at hi ⊢
    exact Victim.mapped_congr hm (h.built i hi (hent i he))
  · rw [hft] at hi hj ⊢
    exact h.key_inj i j hi (hent i hei) hj (hent j hej)
  · obtain ⟨hal, hnone, hroots⟩ := h.call c' x (goes_had Pc.call hcall hx)
    refine ⟨hal, fun hown => ?_, fun q hq => hroots q (by rwa [hroot] at hq)⟩
    rw [hroot] at hown
    exact (hm _ _).trans (hnone hown)
  · rw [hft]
    exact h.frame c' i x (goes_had Pc.frame hframe hi) (goes_had Pc.call hcall hx)
  · obtain ⟨hal, hmw, hno⟩ := h.victim c' w (goes_had Pc.victim hvict hw)
    rw [hft]
    exact ⟨hal, Victim.mapped_congr hm hmw, fun i hi he => hno i hi (hent i he)⟩
  · rcases goes_cases σ c c' k pc σ.home with ⟨rfl, he⟩ | ⟨-, he⟩
    · rw [he] at hmm
      exact hmem m hmm
    · rw [he] at hmm
      exact h.mem c' m hmm
  · rw [hft]
    rcases goes_cases σ c c' k pc σ.home with ⟨rfl, he⟩ | ⟨-, he⟩
    · exact absurd (he.symm.trans hpc) (hmap x i m)
    · exact h.stored c' x i m (he.symm.trans hpc)

/-- Entry `i` has been claimed for `x`. -/
structure Claims (σ : System n) (k : Kernel) (x : Call) (i : Fin MAX_FRAMES) : Prop where
  self : ∃ pa, k.frameTable i = claimedEntry x.proc x.va pa
  other : ∀ j, j ≠ i → ∃ b, k.frameTable j = { σ.kernel.frameTable j with refBit := b }
  tables : k.tables = σ.kernel.tables
  procs : k.procs = σ.kernel.procs
  freelist : k.freelist = σ.kernel.freelist

section Claim

variable {x : Call} {i j : Fin MAX_FRAMES} {pc : Pc}

theorem Claims.mapped (hk : Claims σ k x i) (q : ProcId) (va : Nat) :
    Vm.mapped k q va = Vm.mapped σ.kernel q va := mapped_congr hk.tables (fun q => by rw [hk.procs]) q va

theorem Claims.entry (hk : Claims σ k x i) (hj : j ≠ i) :
    (k.frameTable j).used = (σ.kernel.frameTable j).used ∧
      (k.frameTable j).victim = (σ.kernel.frameTable j).victim := by
  obtain ⟨b, hb⟩ := hk.other j hj
  rw [hb]
  exact ⟨rfl, rfl⟩

theorem Claims.key (hk : Claims σ k x i) (hj : j ≠ i) :
    (k.frameTable j).proc = (σ.kernel.frameTable j).proc ∧ (k.frameTable j).va = (σ.kernel.frameTable j).va :=
  ⟨congrArg Victim.proc (hk.entry hj).2, congrArg Victim.va (hk.entry hj).2⟩

/-- The claimed entry has not been entered; of the others nothing has changed. -/
theorem Claims.entered (hk : Claims σ k x i)
    (he : Entered (σ.goes c k pc (Function.update σ.home i none)) j) : j ≠ i ∧ Entered σ j := by
  obtain ⟨hne, he⟩ := he
  have hj : j ≠ i := by
    rintro rfl
    exact hne (Function.update_self ..)
  have hhome : (σ.goes c k pc (Function.update σ.home i none)).home j = σ.home j := Function.update_of_ne hj ..
  rw [hhome] at hne he
  refine ⟨hj, hne, he.trans ?_⟩
  simp only [ownTable, (hk.key hj).1, hk.procs]

/-- A victim's page stays mapped and without an entry. -/
theorem Claims.victim (hk : Claims σ k x i) {w : Victim} (hm : w.Mapped σ.kernel)
    (hno : ∀ j, j ≠ i → (σ.kernel.frameTable j).used = true → Entered σ j →
      ¬ ((σ.kernel.frameTable j).proc = w.proc ∧ (σ.kernel.frameTable j).va = w.va)) :
    w.Mapped k ∧ ∀ j, (k.frameTable j).used = true →
      Entered (σ.goes c k pc (Function.update σ.home i none)) j →
        ¬ ((k.frameTable j).proc = w.proc ∧ (k.frameTable j).va = w.va) := by
  refine ⟨Victim.mapped_congr hk.mapped hm, fun j hu he => ?_⟩
  obtain ⟨hj, he⟩ := hk.entered he
  rw [(hk.entry hj).1] at hu
  rw [(hk.key hj).1, (hk.key hj).2]
  exact hno j hj hu he

/-- A free entry, or one that has been entered, is claimed for the call of `c`; in the second case its page is
the victim's. -/
theorem Sound.claim (h : Sound σ) (hx : σ.pc c = .enter x) (hk : Claims σ k x i)
    (hi : ∀ c', (σ.pc c').frame ≠ some i) (hcall : pc.call = some x) (hframe : pc.frame = some i)
    (hmem : pc.mem = none) (hvict : ∀ w, pc.victim = some w → (σ.kernel.frameTable i).used = true ∧
      Entered σ i ∧ w = (σ.kernel.frameTable i).victim) :
    Sound (σ.goes c k pc (Function.update σ.home i none)) := by
  obtain ⟨pa, hself⟩ := hk.self
  have hcx : (σ.pc c).call = some x := by rw [hx]; rfl
  have hcalls : ∀ y, pc.call = some y → (σ.pc c).call = some y := fun y hy => by
    rw [hcx, ← hcall, hy]
  -- the victim of another CPU has no entry, and the new victim had one
  have hfresh : ∀ c' w w', (σ.pc c').victim = some w → pc.victim = some w' →
      ¬ (w.proc = w'.proc ∧ w.va = w'.va) := by
    rintro c' w w' hw hw' ⟨hpw, hvw⟩
    obtain ⟨hu, he, rfl⟩ := hvict w' hw'
    exact (h.victim c' w hw).2.2 i hu he ⟨hpw.symm, hvw.symm⟩
  refine ⟨fun y hy => h.phys y (by rwa [← hk.freelist]), fun p q r hp hq => ?_, fun j hu => ?_,
    fun j hu => ?_, fun j hu he => ?_, fun j j' hu he hu' he' hp hva => ?_, fun c' y hy => ?_,
    fun c₁ c₂ y y' hy hy' => h.call_inj c₁ c₂ y y' (goes_had Pc.call hcalls hy) (goes_had Pc.call hcalls hy'),
    fun c' j y hj hy => ?_, fun c' w hw => ?_, fun c₁ c₂ w w' hw hw' hpw hvw => ?_,
    fun c' m hm => h.mem c' m (goes_lost Pc.mem hmem hm).2, fun c' y j m hpc => ?_⟩
  · rw [hk.procs] at hp hq
    exact h.root_inj p q r hp hq
  · by_cases hj : j = i
    · rw [hj, hself]
      exact Option.some_ne_none x.proc
    · rw [(hk.entry hj).1] at hu
      rw [(hk.key hj).1]
      exact h.owned j hu
  · by_cases hj : j = i
    · rw [hj, hself]
      exact (h.call c x hcx).1
    · rw [(hk.entry hj).1] at hu
      rw [(hk.key hj).2]
      exact h.aligned j hu
  · obtain ⟨hj, he⟩ := hk.entered he
    rw [(hk.entry hj).1] at hu
    rw [(hk.entry hj).2]
    exact Victim.mapped_congr hk.mapped (h.built j hu he)
  · obtain ⟨hj, he⟩ := hk.entered he
    obtain ⟨hj', he'⟩ := hk.entered he'
    rw [(hk.entry hj).1] at hu
    rw [(hk.entry hj').1] at hu'
    rw [(hk.key hj).1, (hk.key hj').1] at hp
    rw [(hk.key hj).2, (hk.key hj').2] at hva
    exact h.key_inj j j' hu he hu' he' hp hva
  · obtain ⟨hal, hnone, hroots⟩ := h.call c' y (goes_had Pc.call hcalls hy)
    rw [hk.procs, hk.mapped]
    exact ⟨hal, hnone, hroots⟩
  · rcases goes_cases σ c c' k pc (Function.update σ.home i none) with ⟨rfl, he⟩ | ⟨-, he⟩
    · rw [he] at hj hy
      cases hframe.symm.trans hj
      cases hcall.symm.trans hy
      rw [hself]
      exact ⟨rfl, rfl, rfl, Function.update_self ..⟩
    · rw [he] at hj hy
      have hji : j ≠ i := fun hji => hi c' (hji ▸ hj)
      obtain ⟨hu, hp, hva, hhome⟩ := h.frame c' j y hj hy
      rw [(hk.entry hji).1, (hk.key hji).1, (hk.key hji).2]
      exact ⟨hu, hp, hva, (Function.update_of_ne hji ..).trans hhome⟩
  · rcases goes_cases σ c c' k pc (Function.update σ.home i none) with ⟨rfl, he⟩ | ⟨-, he⟩
    · rw [he] at hw
      obtain ⟨hu, hent, rfl⟩ := hvict w hw
      refine ⟨h.aligned i hu, hk.victim (h.built i hu hent) fun j hj huj hej => ?_⟩
      rintro ⟨hp, hva⟩
      exact hj (h.key_inj j i huj hej hu hent hp hva)
    · rw [he] at hw
      obtain ⟨hal, hm, hno⟩ := h.victim c' w hw
      exact ⟨hal, hk.victim hm fun j _ => hno j⟩
  · rcases goes_cases σ c c₁ k pc (Function.update σ.home i none) with ⟨h₁, he₁⟩ | ⟨-, he₁⟩
    · rcases goes_cases σ c c₂ k pc (Function.update σ.home i none) with ⟨h₂, -⟩ | ⟨-, he₂⟩
      · rw [h₁, h₂]
      · rw [he₁] at hw
        rw [he₂] at hw'
        exact absurd ⟨hpw.symm, hvw.symm⟩ (hfresh c₂ w' w hw' hw)
    · rcases goes_cases σ c c₂ k pc (Function.update σ.home i none) with ⟨-, he₂⟩ | ⟨-, he₂⟩
      · rw [he₁] at hw
        rw [he₂] at hw'
        exact absurd ⟨hpw, hvw⟩ (hfresh c₁ w w' hw hw')
      · rw [he₁] at hw
        rw [he₂] at hw'
        exact h.victim_inj c₁ c₂ w w' hw hw' hpw hvw
  · rcases goes_cases σ c c' k pc (Function.update σ.home i none) with ⟨rfl, he⟩ | ⟨-, he⟩
    · rw [he] at hpc
      rw [hpc] at hmem
      cases hmem
    · rw [he] at hpc
      have hji : j ≠ i := fun hji => hi c' (by rw [hpc]; exact congrArg some hji)
      exact (congrArg Victim.pa (hk.entry hji).2).trans (h.stored c' y j m hpc)

end Claim

/-- All mappings but the one of `q` at `va` are as before. -/
def MapsElse (k k' : Kernel) (q : ProcId) (va : Nat) : Prop :=
  ∀ q' va', va' % PGSIZE = 0 → ¬ (q' = q ∧ va' = va) → mapped k' q' va' = mapped k q' va'

/-- The victim's page is unmapped. -/
theorem Sound.unmapped (h : Sound σ) {x : Call} {i : Fin MAX_FRAMES} {w : Victim} {slot : Nat}
    (hpc : σ.pc c = .unmap x i w slot) (hq : w.proc = some q)
    (hft : k.frameTable = σ.kernel.frameTable) (hfree : k.freelist = σ.kernel.freelist)
    (hroot : ∀ q, (k.procs q).pagetable = (σ.kernel.procs q).pagetable)
    (hone : mapped k q w.va = none) (helse : MapsElse σ.kernel k q w.va) :
    Sound (σ.goes c k (.kfree x i w) σ.home) := by
  have hcalls : ∀ y, (Pc.kfree x i w).call = some y → (σ.pc c).call = some y := by
    rw [hpc]
    exact fun _ hy => hy
  have hframes : ∀ j, (Pc.kfree x i w).frame = some j → (σ.pc c).frame = some j := by
    rw [hpc]
    exact fun _ hj => hj
  have hent : ∀ j, Entered (σ.goes c k (.kfree x i w) σ.home) j → Entered σ j := by
    rintro j ⟨hne, he⟩
    refine ⟨hne, he.trans ?_⟩
    simp only [ownTable, hft, hroot]
  have hvc : (σ.pc c).victim = some w := by rw [hpc]; rfl
  obtain ⟨-, -, hnone⟩ := h.victim c w hvc
  refine ⟨fun y hy => h.phys y (by rwa [← hfree]), fun p q r hp hq => ?_, fun j hu => ?_,
    fun j hu => ?_, fun j hu he => ?_, fun j j' hu he hu' he' => ?_, fun c' y hy => ?_,
    fun c₁ c₂ y y' hy hy' => h.call_inj c₁ c₂ y y' (goes_had Pc.call hcalls hy) (goes_had Pc.call hcalls hy'),
    fun c' j y hj hy => ?_, fun c' w' hw => ?_, fun c₁ c₂ w₁ w₂ hw₁ hw₂ => ?_,
    fun c' m hm => h.mem c' m (goes_lost Pc.mem rfl hm).2, fun c' y j m hpc' => ?_⟩
  · rw [hroot] at hp hq
    exact h.root_inj p q r hp hq
  · rw [hft] at hu ⊢
    exact h.owned j hu
  · rw [hft] at hu ⊢
    exact h.aligned j hu
  · rw [hft] at hu ⊢
    obtain ⟨q', hq', hm⟩ := h.built j hu (hent j he)
    refine ⟨q', hq', (helse q' _ (h.aligned j hu) ?_).trans hm⟩
    rintro ⟨rfl, hva⟩
    exact hnone j hu (hent j he) ⟨hq'.trans hq.symm, hva⟩
  · rw [hft] at hu hu' ⊢
    exact h.key_inj j j' hu (hent j he) hu' (hent j' he')
  · obtain ⟨hal, hm, hroots⟩ := h.call c' y (goes_had Pc.call hcalls hy)
    refine ⟨hal, fun hown => ?_, fun q hq => hroots q (by rwa [hroot] at hq)⟩
    rw [hroot] at hown
    by_cases hkey : y.proc = q ∧ y.va = w.va
    · rw [hkey.1, hkey.2]
      exact hone
    · exact (helse _ _ hal hkey).trans (hm hown)
  · rw [hft]
    exact h.frame c' j y (goes_had Pc.frame hframes hj) (goes_had Pc.call hcalls hy)
  · obtain ⟨hne, hw⟩ := goes_lost Pc.victim rfl hw
    obtain ⟨hal, ⟨q', hq', hm⟩, hno⟩ := h.victim c' w' hw
    rw [hft]
    refine ⟨hal, ⟨q', hq', (helse q' _ hal ?_).trans hm⟩, fun j hu he => hno j hu (hent j he)⟩
    rintro ⟨rfl, hva⟩
    exact hne (h.victim_inj c' c w' w hw hvc (hq'.trans hq.symm) hva)
  · exact h.victim_inj c₁ c₂ w₁ w₂ (goes_lost Pc.victim rfl hw₁).2 (goes_lost Pc.victim rfl hw₂).2
  · rw [hft]
    rcases goes_cases σ c c' k (.kfree x i w) σ.home with ⟨rfl, he⟩ | ⟨-, he⟩
    · cases he.symm.trans hpc'
    · exact h.stored c' y j m (he.symm.trans hpc')

/-- A step that changes the entry of its CPU alone, which has not been entered. -/
theorem entered_other {k : Kernel} {pc : Pc} {i j : Fin MAX_FRAMES} (hp : k.procs = σ.kernel.procs)
    (hoth : ∀ j, j ≠ i → k.frameTable j = σ.kernel.frameTable j) (hi : σ.home i = none)
    (he : Entered (σ.goes c k pc σ.home) j) : j ≠ i ∧ Entered σ j := by
  obtain ⟨hne, he⟩ := he
  have hj : j ≠ i := by
    rintro rfl
    exact hne hi
  refine ⟨hj, hne, he.trans ?_⟩
  simp only [ownTable, hoth j hj, hp]

/-- A CPU changes the entry that it has claimed: it gives it up, or keeps it for the same page. -/
theorem Sound.ownEntry (h : Sound σ) {i : Fin MAX_FRAMES} {pc : Pc} (f : FrameEntry)
    (hfi : (σ.pc c).frame = some i)
    (hkey : f.used = true → f.proc = (σ.kernel.frameTable i).proc ∧ f.va = (σ.kernel.frameTable i).va)
    (hcalls : ∀ y, pc.call = some y → (σ.pc c).call = some y)
    (hframe : ∀ j, pc.frame = some j → j = i ∧ f.used = true) (hvict : pc.victim = none)
    (hmems : ∀ m, pc.mem = some m → (σ.pc c).mem = some m)
    (hstored : ∀ x j m, pc = .map x j m → j = i ∧ f.pa = m) :
    Sound (σ.goes c (setFrame σ.kernel i f) pc σ.home) := by
  set k := setFrame σ.kernel i f with hk
  have hself : k.frameTable i = f := Function.update_self ..
  have hoth : ∀ j, j ≠ i → k.frameTable j = σ.kernel.frameTable j := fun j hj =>
    Function.update_of_ne hj ..
  have hused := (h.claimed hfi).1
  -- an entry in use was in use before, for the same page
  have hbefore : ∀ j, (k.frameTable j).used = true → (σ.kernel.frameTable j).used = true ∧
      (k.frameTable j).proc = (σ.kernel.frameTable j).proc ∧
      (k.frameTable j).va = (σ.kernel.frameTable j).va := by
    intro j hu
    by_cases hj : j = i
    · subst hj
      rw [hself] at hu ⊢
      exact ⟨hused, hkey hu⟩
    · rw [hoth j hj] at hu ⊢
      exact ⟨hu, rfl, rfl⟩
  have hent : ∀ j, Entered (σ.goes c k pc σ.home) j → j ≠ i ∧ Entered σ j := fun j =>
    entered_other rfl hoth (h.claimed hfi).2
  -- the entries of the other CPUs are other entries
  have hothers : ∀ c' j, c' ≠ c → (σ.pc c').frame = some j → k.frameTable j = σ.kernel.frameTable j := by
    intro c' j hne hj
    refine hoth j ?_
    rintro rfl
    exact hne (h.frame_inj hj hfi)
  refine ⟨h.phys, h.root_inj, fun j hu => ?_, fun j hu => ?_, fun j hu he => ?_,
    fun j j' hu he hu' he' => ?_, fun c' y hy => h.call c' y (goes_had Pc.call hcalls hy),
    fun c₁ c₂ y y' hy hy' => h.call_inj c₁ c₂ y y' (goes_had Pc.call hcalls hy) (goes_had Pc.call hcalls hy'),
    fun c' j y hj hy => ?_, fun c' w hw => ?_,
    fun c₁ c₂ w₁ w₂ hw₁ hw₂ => h.victim_inj c₁ c₂ w₁ w₂ (goes_lost Pc.victim hvict hw₁).2
      (goes_lost Pc.victim hvict hw₂).2, fun c' m hm => h.mem c' m (goes_had Pc.mem hmems hm),
    fun c' y j m hpc => ?_⟩
  · obtain ⟨hu, hp, -⟩ := hbefore j hu
    rw [hp]
    exact h.owned j hu
  · obtain ⟨hu, -, hva⟩ := hbefore j hu
    rw [hva]
    exact h.aligned j hu
  · obtain ⟨hj, he⟩ := hent j he
    rw [hoth j hj] at hu ⊢
    exact h.built j hu he
  · obtain ⟨hj, he⟩ := hent j he
    obtain ⟨hj', he'⟩ := hent j' he'
    rw [hoth j hj] at hu ⊢
    rw [hoth j' hj'] at hu' ⊢
    exact h.key_inj j j' hu he hu' he'
  · have hcall := goes_had Pc.call hcalls hy
    rcases goes_cases σ c c' k pc σ.home with ⟨rfl, he⟩ | ⟨hne, he⟩
    · rw [he] at hj
      obtain ⟨rfl, hu⟩ := hframe j hj
      obtain ⟨-, hp, hva⟩ := hbefore j (by rwa [hself])
      obtain ⟨-, hproc, hpage, hhome⟩ := h.frame c' j y hfi hcall
      exact ⟨by rwa [hself], hp.trans hproc, hva.trans hpage, hhome⟩
    · rw [he] at hj
      rw [hothers c' j hne hj]
      exact h.frame c' j y hj hcall
  · obtain ⟨hal, hm, hno⟩ := h.victim c' w (goes_lost Pc.victim hvict hw).2
    refine ⟨hal, hm, fun j hu he => ?_⟩
    obtain ⟨hj, he⟩ := hent j he
    rw [hoth j hj] at hu ⊢
    exact hno j hu he
  · rcases goes_cases σ c c' k pc σ.home with ⟨rfl, he⟩ | ⟨hne, he⟩
    · obtain ⟨rfl, hpa⟩ := hstored y j m (he.symm.trans hpc)
      rw [hself]
      exact hpa
    · have hpc := he.symm.trans hpc
      rw [hothers c' j hne (by rw [hpc]; rfl)]
      exact h.stored c' y j m hpc

/-- The page is stored in the entry. -/
theorem Sound.storing (h : Sound σ) {x : Call} {i : Fin MAX_FRAMES} {m : Nat}
    (hpc : σ.pc c = .store x i m) :
    Sound (σ.goes c (setFrame σ.kernel i { σ.kernel.frameTable i with pa := m }) (.map x i m) σ.home) := by
  have hfi : (σ.pc c).frame = some i := by rw [hpc]; rfl
  refine h.ownEntry _ hfi (fun _ => ⟨rfl, rfl⟩) (fun y hy => ?_)
    (fun j hj => ⟨(Option.some.inj hj).symm, (h.claimed hfi).1⟩) rfl (fun m' hm => ?_) fun y j m' he => ?_
  · rw [hpc]
    exact hy
  · rw [hpc]
    exact hm
  · cases he
    exact ⟨rfl, rfl⟩

/-- The entry is given up. -/
theorem Sound.released (h : Sound σ) {x : Call} {i : Fin MAX_FRAMES} (hpc : σ.pc c = .release x i) :
    Sound (σ.goes c (releaseFrame σ.kernel i) .idle σ.home) :=
  h.ownEntry _ (by rw [hpc]; rfl) (fun hu => by cases hu) (fun _ hy => by cases hy) (fun _ hj => by cases hj) rfl
    (fun _ hm => by cases hm) (by simp)

/-- The caller of `x` has entered page `m` in its table, and changed no other mapping. -/
structure Enters (σ : System n) (k : Kernel) (x : Call) (m : Nat) : Prop where
  frameTable : k.frameTable = σ.kernel.frameTable
  freelist : ∀ pa ∈ k.freelist, pa ∈ σ.kernel.freelist
  roots : ∀ q, (k.procs q).pagetable = (σ.kernel.procs q).pagetable
  one : (σ.kernel.procs x.proc).pagetable = some x.table → mapped k x.proc x.va = some m
  rest : ∀ q va, va % PGSIZE = 0 →
    ¬ ((σ.kernel.procs x.proc).pagetable = some x.table ∧ q = x.proc ∧ va = x.va) →
      mapped k q va = mapped σ.kernel q va

/-- What is in the frame table has been entered before, or is the entry of the call. -/
theorem Enters.entered {x : Call} {i j : Fin MAX_FRAMES} {m : Nat} (hk : Enters σ k x m)
    (hproc : (σ.kernel.frameTable i).proc = some x.proc)
    (he : Entered (σ.goes c k .idle (Function.update σ.home i (some x.table))) j) :
    (j = i ∧ (σ.kernel.procs x.proc).pagetable = some x.table) ∨ Entered σ j := by
  obtain ⟨hne, he⟩ := he
  have hown : ownTable k j = ownTable σ.kernel j := by simp only [ownTable, hk.frameTable, hk.roots]
  have he := he.trans hown
  by_cases hj : j = i
  · subst hj
    have hhome : (σ.goes c k .idle (Function.update σ.home j (some x.table))).home j = some x.table :=
      Function.update_self ..
    rw [hhome, ownTable, hproc] at he
    exact Or.inl ⟨rfl, he.symm⟩
  · have hhome : (σ.goes c k .idle (Function.update σ.home i (some x.table))).home j = σ.home j :=
      Function.update_of_ne hj ..
    rw [hhome] at hne he
    exact Or.inr ⟨hne, he⟩

/-- The caller has mapped the page. -/
theorem Sound.entered (h : Sound σ) {x : Call} {i : Fin MAX_FRAMES} {m : Nat}
    (hpc : σ.pc c = .map x i m) (hk : Enters σ k x m) :
    Sound (σ.goes c k .idle (Function.update σ.home i (some x.table))) := by
  have hcx : (σ.pc c).call = some x := by rw [hpc]; rfl
  have hfi : (σ.pc c).frame = some i := by rw [hpc]; rfl
  obtain ⟨hu, hproc, hva, -⟩ := h.frame c i x hfi hcx
  have hfresh : ∀ j, (σ.kernel.frameTable j).used = true → Entered σ j →
      (σ.kernel.procs x.proc).pagetable = some x.table →
      ¬ ((σ.kernel.frameTable j).proc = some x.proc ∧ (σ.kernel.frameTable j).va = x.va) :=
    fun j hj he hown => h.no_entry hcx hown hj he
  -- a page that is mapped is not that of the call
  have hmapped : ∀ w : Victim, w.va % PGSIZE = 0 → w.Mapped σ.kernel → w.Mapped k := by
    rintro w hal ⟨q, hq, hm⟩
    refine ⟨q, hq, (hk.rest q _ hal ?_).trans hm⟩
    rintro ⟨hown, rfl, hwva⟩
    rw [hwva] at hm
    cases hm.symm.trans ((h.call c x hcx).2.1 hown)
  refine ⟨fun y hy => h.phys y (hk.freelist y hy), fun p q r hp hq => ?_, fun j hj => ?_, fun j hj => ?_,
    fun j hj he => ?_, fun j j' hj he hj' he' hp hva' => ?_, fun c' y hy => ?_,
    fun c₁ c₂ y y' hy hy' => h.call_inj c₁ c₂ y y' (goes_lost Pc.call rfl hy).2 (goes_lost Pc.call rfl hy').2,
    fun c' j y hj hy => ?_, fun c' w hw => ?_,
    fun c₁ c₂ w₁ w₂ hw₁ hw₂ => h.victim_inj c₁ c₂ w₁ w₂ (goes_lost Pc.victim rfl hw₁).2
      (goes_lost Pc.victim rfl hw₂).2, fun c' m hm => h.mem c' m (goes_lost Pc.mem rfl hm).2,
    fun c' y j m hpc' => ?_⟩
  · rw [hk.roots] at hp hq
    exact h.root_inj p q r hp hq
  · rw [hk.frameTable] at hj ⊢
    exact h.owned j hj
  · rw [hk.frameTable] at hj ⊢
    exact h.aligned j hj
  · rw [hk.frameTable] at hj ⊢
    rcases hk.entered hproc he with ⟨rfl, hown⟩ | he
    · refine ⟨x.proc, hproc, ?_⟩
      simp only [FrameEntry.victim, hva, h.stored c x j m hpc]
      exact hk.one hown
    · exact hmapped _ (h.aligned j hj) (h.built j hj he)
  · rw [hk.frameTable] at hj hj' hp hva'
    rcases hk.entered hproc he with ⟨hji, hown⟩ | hent
    · rcases hk.entered hproc he' with ⟨hji', -⟩ | hent'
      · rw [hji, hji']
      · rw [hji] at hp hva'
        exact absurd ⟨hp.symm.trans hproc, hva'.symm.trans hva⟩ (hfresh j' hj' hent' hown)
    · rcases hk.entered hproc he' with ⟨hji', hown⟩ | hent'
      · rw [hji'] at hp hva'
        exact absurd ⟨hp.trans hproc, hva'.trans hva⟩ (hfresh j hj hent hown)
      · exact h.key_inj j j' hj hent hj' hent' hp hva'
  · obtain ⟨hne, hy⟩ := goes_lost Pc.call rfl hy
    obtain ⟨hal, hm, hroots⟩ := h.call c' y hy
    refine ⟨hal, fun hown => ?_, fun q hq => hroots q (by rwa [hk.roots] at hq)⟩
    rw [hk.roots] at hown
    refine (hk.rest _ _ hal ?_).trans (hm hown)
    rintro ⟨-, hp, -⟩
    exact hne (h.call_inj c' c y x hy hcx hp)
  · obtain ⟨hne, hj'⟩ := goes_lost Pc.frame rfl hj
    have hji : j ≠ i := by
      rintro rfl
      exact hne (h.frame_inj hj' hfi)
    obtain ⟨h1, h2, h3, h4⟩ := h.frame c' j y hj' (goes_lost Pc.call rfl hy).2
    rw [hk.frameTable]
    exact ⟨h1, h2, h3, (Function.update_of_ne hji ..).trans h4⟩
  · obtain ⟨hal, hm, hno⟩ := h.victim c' w (goes_lost Pc.victim rfl hw).2
    rw [hk.frameTable]
    refine ⟨hal, hmapped w hal hm, fun j hj he => ?_⟩
    rcases hk.entered hproc he with ⟨rfl, hown⟩ | he
    · rintro ⟨hp, hwva⟩
      obtain ⟨q, hq, hm⟩ := hm
      have hq' : q = x.proc := Option.some.inj (hq.symm.trans (hp.symm.trans hproc))
      subst hq'
      rw [← hwva, hva] at hm
      cases hm.symm.trans ((h.call c x hcx).2.1 hown)
    · exact hno j hj he
  · rw [hk.frameTable]
    rcases goes_cases σ c c' k .idle (Function.update σ.home i (some x.table)) with ⟨rfl, he⟩ | ⟨-, he⟩
    · cases he.symm.trans hpc'
    · exact h.stored c' y j m (he.symm.trans hpc')

/-- A call begins. -/
theorem Sound.called (h : Sound σ) {x : Call} (hpc : σ.pc c = .idle) (hx : MayCall σ x) :
    Sound (σ.goes c σ.kernel (.enter x) σ.home) := by
  obtain ⟨hal, hnone, hroots, hproc⟩ := hx
  have hcalls : ∀ c' y, ((σ.goes c σ.kernel (.enter x) σ.home).pc c').call = some y →
      (c' = c ∧ y = x) ∨ (c' ≠ c ∧ (σ.pc c').call = some y) := by
    intro c' y hy
    rcases goes_cases σ c c' σ.kernel (.enter x) σ.home with ⟨hc, he⟩ | ⟨hne, he⟩
    · rw [he] at hy
      exact Or.inl ⟨hc, (Option.some.inj hy).symm⟩
    · exact Or.inr ⟨hne, by rwa [he] at hy⟩
  have hfresh : ∀ c' y, (σ.pc c').call = some y → y.proc ≠ x.proc := by
    intro c' y hy he
    exact hproc c' (by rw [hy]; exact congrArg some he)
  refine ⟨h.phys, h.root_inj, h.owned, h.aligned, h.built, h.key_inj, fun c' y hy => ?_,
    fun c₁ c₂ y y' hy hy' he => ?_, fun c' j y hj hy => ?_,
    fun c' w hw => h.victim c' w (goes_lost Pc.victim rfl hw).2,
    fun c₁ c₂ w₁ w₂ hw₁ hw₂ => h.victim_inj c₁ c₂ w₁ w₂ (goes_lost Pc.victim rfl hw₁).2
      (goes_lost Pc.victim rfl hw₂).2, fun c' m hm => h.mem c' m (goes_lost Pc.mem rfl hm).2,
    fun c' y j m hpc' => ?_⟩
  · rcases hcalls c' y hy with ⟨-, rfl⟩ | ⟨-, hy⟩
    · exact ⟨hal, fun hown => (mapped_eq hown).trans hnone, hroots⟩
    · exact h.call c' y hy
  · rcases hcalls c₁ y hy with ⟨h₁, hy₁⟩ | ⟨-, hy₁⟩
    · rcases hcalls c₂ y' hy' with ⟨h₂, -⟩ | ⟨-, hy₂⟩
      · rw [h₁, h₂]
      · exact absurd (he.symm.trans (congrArg Call.proc hy₁)) (hfresh c₂ y' hy₂)
    · rcases hcalls c₂ y' hy' with ⟨-, hy₂⟩ | ⟨-, hy₂⟩
      · exact absurd (he.trans (congrArg Call.proc hy₂)) (hfresh c₁ y hy₁)
      · exact h.call_inj c₁ c₂ y y' hy₁ hy₂ he
  · obtain ⟨hne, hj⟩ := goes_lost Pc.frame rfl hj
    rcases hcalls c' y hy with ⟨hc, -⟩ | ⟨-, hy⟩
    · exact absurd hc hne
    · exact h.frame c' j y hj hy
  · rcases goes_cases σ c c' σ.kernel (.enter x) σ.home with ⟨rfl, he⟩ | ⟨-, he⟩
    · cases he.symm.trans hpc'
    · exact h.stored c' y j m (he.symm.trans hpc')

/-- The first critical section. -/
theorem Sound.enter (h : Sound σ) {x : Call} (hpc : σ.pc c = .enter x)
    (hg : ∀ i ∈ nextVictim σ.kernel x.proc, Entered σ i) {pc : Pc}
    (hs : kallocUserStep σ.kernel (.enter x) = .ok (pc, k)) : Sound (σ.goes c k pc (forget σ.home pc)) := by
  rw [kallocUserStep] at hs
  split at hs
  · next i hi =>
      cases hs
      have hun := freeFrame_some hi
      refine h.claim hpc ⟨⟨_, Function.update_self ..⟩, fun j hj => ⟨_, Function.update_of_ne hj ..⟩,
        rfl, rfl, rfl⟩ (fun c' hc' => ?_) rfl rfl rfl fun w hw => by cases hw
      cases hun.symm.trans (h.claimed hc').1
  · next hff =>
      obtain ⟨⟨i, ft, hand⟩, hpick, hs⟩ := bind_eq_ok.mp hs
      cases hs
      have hused := freeFrame_none hff
      obtain ⟨i', ft', hand', hpick', hsame⟩ := clockPickVictim_spec hused
        (fun i => h.owned i (hused i)) σ.kernel.clockHand x.proc
      cases hpick.symm.trans hpick'
      -- no entry is free, so that this is the pick that the run is promised about
      have hent : Entered σ i := hg i (by simp [nextVictim, hff, hpick, Except.toOption])
      obtain ⟨-, hp, hva, hpa⟩ := hsame.fields i
      refine h.claim hpc ⟨⟨_, Function.update_self ..⟩, fun j hj => ?_, rfl, rfl, rfl⟩
        (fun c' hc' => hent.1 (h.claimed hc').2) rfl rfl rfl fun w hw => ⟨hused i, hent, ?_⟩
      · obtain ⟨b, hb⟩ := hsame j
        exact ⟨b, (Function.update_of_ne hj ..).trans hb⟩
      · cases hw
        simp only [FrameEntry.victim, hp, hva, hpa]

/-- The update of the victim's entry. -/
theorem Sound.unmap (h : Sound σ) {x : Call} {i : Fin MAX_FRAMES} {w : Victim} {slot : Nat}
    (hpc : σ.pc c = .unmap x i w slot) {pc : Pc}
    (hs : kallocUserStep σ.kernel (.unmap x i w slot) = .ok (pc, k)) :
    pc = .kfree x i w ∧ Sound (σ.goes c k (.kfree x i w) σ.home) := by
  obtain ⟨hal, ⟨q, hq, hm⟩, -⟩ := h.victim c w (by rw [hpc]; rfl)
  obtain ⟨r, e, hr, hw, hval, -⟩ := mapped_some hm
  simp only [kallocUserStep, hq, swapOutEntry_eq hr hw hval, ok_bind, pure_eq_ok] at hs
  cases hs
  have hroot : ∀ q', ((countEviction (setPte σ.kernel r (w.va / PGSIZE) (swapOutPte slot e)) q).procs
      q').pagetable = (σ.kernel.procs q').pagetable := by
    intro q'
    by_cases hq' : q' = q
    · subst hq'
      simp [countEviction, setProc, setPte, setTable]
    · simp [countEviction, setProc, setPte, setTable, hq']
  have hcount : ∀ q' va', mapped (countEviction (setPte σ.kernel r (w.va / PGSIZE)
      (swapOutPte slot e)) q) q' va' =
      mapped (setPte σ.kernel r (w.va / PGSIZE) (swapOutPte slot e)) q' va' :=
    mapped_congr rfl hroot
  have hgone : (swapOutPte slot e).has PTE_V = false := by
    rw [has_V, swapOutPte_flag e (by decide)]
    simp
  refine ⟨rfl, h.unmapped hpc hq rfl rfl hroot ?_ fun q' va' hal' hne => ?_⟩
  · rw [hcount, mapped_setPte_self hr hw, hgone]
    rfl
  · rw [hcount, mapped_setPte_other]
    rintro ⟨hr', hdiv⟩
    refine hne ⟨h.root_inj q' q r hr' hr, ?_⟩
    simp only [PGSIZE] at hal hal' hdiv
    omega

/-- An entry that a CPU has claimed is forgotten already. -/
theorem Sound.forget_eq (h : Sound σ) {pc : Pc} (hpc : pc.frame = (σ.pc c).frame) :
    forget σ.home pc = σ.home := by
  unfold forget
  split
  · next i hi =>
      rw [← (h.claimed (hpc.symm.trans hi)).2]
      exact Function.update_eq_self i σ.home
  · rfl

/-- A page that `kfree` takes can be handed out again. -/
theorem Sound.freed (h : Sound σ) {pa : Nat} (hok : ¬ (pa % PGSIZE ≠ 0 ∨ pa < σ.kernel.kend ∨ pa ≥ PHYSTOP)) :
    ∀ y ∈ pa :: σ.kernel.freelist, PhysOk y := by
  intro y hy
  rcases List.mem_cons.mp hy with rfl | hy
  · simp only [PHYSTOP] at hok
    exact ⟨by omega, by omega⟩
  · exact h.phys y hy

/-- A CPU goes on with what it has. -/
theorem Sound.goes_on (h : Sound σ) {pc : Pc} (hft : k.frameTable = σ.kernel.frameTable)
    (ht : k.tables = σ.kernel.tables)
    (hroot : ∀ q, (k.procs q).pagetable = (σ.kernel.procs q).pagetable)
    (hphys : ∀ pa ∈ k.freelist, PhysOk pa) (hcall : pc.call = (σ.pc c).call)
    (hframe : pc.frame = (σ.pc c).frame) (hvict : pc.victim = none ∨ pc.victim = (σ.pc c).victim)
    (hmem : ∀ m, pc.mem = some m → PhysOk m) (hmap : ∀ x i m, pc ≠ .map x i m) :
    Sound (σ.goes c k pc (forget σ.home pc)) := by
  rw [h.forget_eq hframe]
  refine h.quiet hft (mapped_congr ht hroot) hroot hphys (fun x hx => hcall ▸ hx) (fun i hi => hframe ▸ hi)
    (fun w hw => ?_) hmem hmap
  rcases hvict with hv | hv
  · cases hv.symm.trans hw
  · exact hv ▸ hw

/-- **A step of `kalloc_user` whose pick has been entered keeps the invariant.** -/
theorem Sound.next (h : Sound σ) (hg : PicksEntered (.next c) σ) {pc : Pc}
    (hs : kallocUserStep σ.kernel (σ.pc c) = .ok (pc, k)) : Sound (σ.goes c k pc (forget σ.home pc)) := by
  cases hpc : σ.pc c with
  | idle =>
      rw [hpc] at hs
      cases hs
  | enter x =>
      rw [hpc] at hs
      exact h.enter hpc (hg x (by rw [hpc]; rfl)) hs
  | swapAlloc x i w =>
      rw [hpc, kallocUserStep] at hs
      split at hs
      · next k₁ he =>
          cases hs
          unfold swapAlloc at he
          split at he
          · cases he
          · cases he
            exact h.goes_on rfl rfl (fun _ => rfl) h.phys (by rw [hpc]; rfl) (by rw [hpc]; rfl) (Or.inl rfl)
              (by simp [Pc.mem]) (by simp)
      · next slot k₁ he =>
          cases hs
          unfold swapAlloc at he
          split at he
          · cases he
            exact h.goes_on rfl rfl (fun _ => rfl) h.phys (by rw [hpc]; rfl) (by rw [hpc]; rfl)
              (Or.inr (by rw [hpc]; rfl)) (by simp [Pc.mem]) (by simp)
          · cases he
  | swapWrite x i w slot =>
      rw [hpc, kallocUserStep] at hs
      obtain ⟨k₁, he, hs⟩ := bind_eq_ok.mp hs
      cases hs
      -- the kernel does not map page 0, so that a write of it does not come back
      have hpa : w.pa ≠ 0 := by
        intro h0
        rw [h0] at he
        cases he
      simp only [swapWrite, if_neg hpa] at he
      obtain ⟨raid, -, he⟩ := bind_eq_ok.mp he
      cases he
      exact h.goes_on rfl rfl (fun q => creditWrite_pagetable ..) h.phys (by rw [hpc]; rfl)
        (by rw [hpc]; rfl) (Or.inr (by rw [hpc]; rfl)) (by simp [Pc.mem]) (by simp)
  | unmap x i w slot =>
      rw [hpc] at hs
      obtain ⟨rfl, hsound⟩ := h.unmap hpc hs
      rwa [h.forget_eq (c := c) (by rw [hpc]; rfl)]
  | kfree x i w =>
      rw [hpc, kallocUserStep] at hs
      obtain ⟨k₁, he, hs⟩ := bind_eq_ok.mp hs
      cases hs
      unfold kfree at he
      split at he
      · cases he
      · next hok =>
          cases he
          exact h.goes_on rfl rfl (fun _ => rfl) (h.freed hok) (by rw [hpc]; rfl) (by rw [hpc]; rfl)
            (Or.inl rfl) (by simp [Pc.mem]) (by simp)
  | kalloc x i =>
      rw [hpc, kallocUserStep] at hs
      split at hs
      · next k₁ he =>
          cases hs
          unfold kalloc at he
          split at he
          · cases he
            exact h.goes_on rfl rfl (fun _ => rfl) h.phys (by rw [hpc]; rfl) (by rw [hpc]; rfl) (Or.inl rfl)
              (by simp [Pc.mem]) (by simp)
          · cases he
      · next m k₁ he =>
          cases hs
          unfold kalloc at he
          split at he
          · cases he
          · next pa rest hfree =>
              cases he
              have hall : ∀ y ∈ m :: rest, PhysOk y := fun y hy => h.phys y (by rwa [hfree])
              refine h.goes_on rfl rfl (fun _ => rfl) (fun y hy => hall y (List.mem_cons_of_mem _ hy))
                (by rw [hpc]; rfl) (by rw [hpc]; rfl) (Or.inl rfl) (fun m hm => ?_) (by simp)
              cases hm
              exact hall _ List.mem_cons_self
  | store x i m =>
      rw [hpc] at hs
      cases hs
      rw [h.forget_eq (c := c) (by rw [hpc]; rfl)]
      exact h.storing hpc
  | release x i =>
      rw [hpc] at hs
      cases hs
      exact h.released hpc
  | map x i m =>
      rw [hpc] at hs
      cases hs
  | undo x m =>
      rw [hpc] at hs
      cases hs

/-- The caller's step: it enters the page, or finds no page for the tables above the entry. -/
theorem Sound.enterPage (h : Sound σ) {x : Call} {i : Fin MAX_FRAMES} {m : Nat} {perm : Pte} {found : Bool}
    (hpc : σ.pc c = .map x i m) (hperm : PermOk perm)
    (hs : Vm.enterPage σ.kernel x m perm = .ok (found, k)) :
    if found then Sound (σ.goes c k .idle (Function.update σ.home i (some x.table)))
    else Sound (σ.goes c k (.undo x m) σ.home) := by
  obtain ⟨hal, -, hroots⟩ := h.call c x (by rw [hpc]; rfl)
  have hres := mapPte_resident (h.mem c m (by rw [hpc]; rfl)) hperm
  obtain ⟨⟨found', k₁⟩, hwa, hs⟩ := bind_eq_ok.mp hs
  obtain ⟨hwalked, hfound⟩ := walked_walkAlloc hwa
  cases found' with
  | false =>
      cases hs
      refine h.quiet hwalked.frameTable hwalked.mapped (fun q => by rw [hwalked.procs])
        (fun pa hpa => h.phys pa (hwalked.free pa hpa)) (fun y hy => ?_) (fun j hj => by cases hj)
        (fun w hw => by cases hw) (fun m hm => by cases hm) (by simp)
      rw [hpc]
      exact hy
  | true =>
      cases hs
      obtain ⟨e, hw⟩ := hfound rfl
      refine h.entered hpc ⟨hwalked.frameTable, hwalked.free, fun q => by rw [← hwalked.procs]; rfl,
        fun hown => ?_, fun q va' hal' hne => ?_⟩
      · have hr₁ : (k₁.procs x.proc).pagetable = some x.table := by rw [hwalked.procs]; exact hown
        rw [mapped_setPte_self hr₁ hw, if_pos hres.valid, hres.pa_eq]
      · rw [mapped_setPte_other, hwalked.mapped]
        rintro ⟨hr', hdiv⟩
        rw [hwalked.procs] at hr'
        have hq := hroots q hr'
        refine hne ⟨hq ▸ hr', hq, ?_⟩
        simp only [PGSIZE] at hal hal' hdiv
        omega

/-- A step after which the CPU is in no call. -/
theorem Sound.idles (h : Sound σ) (hft : k.frameTable = σ.kernel.frameTable)
    (hm : ∀ q va, mapped k q va = mapped σ.kernel q va)
    (hroot : ∀ q, (k.procs q).pagetable = (σ.kernel.procs q).pagetable)
    (hphys : ∀ pa ∈ k.freelist, PhysOk pa) : Sound (σ.goes c k .idle σ.home) :=
  h.quiet hft hm hroot hphys (fun _ hy => by cases hy) (fun _ hy => by cases hy) (fun _ hy => by cases hy)
    (fun _ hy => by cases hy) (by simp)

/-- A CPU without a call gets pages for tables. -/
theorem Sound.walked (h : Sound σ) (hw : Walked σ.kernel k) : Sound (σ.goes c k .idle σ.home) :=
  h.idles hw.frameTable hw.mapped (fun q => by rw [hw.procs]) fun pa hpa => h.phys pa (hw.free pa hpa)

/-- `kexec` makes a page table. -/
theorem Sound.created (h : Sound σ)
    (hr : ∀ q, (uvmcreate σ.kernel).1 ≠ none → (σ.kernel.procs q).pagetable ≠ (uvmcreate σ.kernel).1) :
    Sound (σ.goes c (uvmcreate σ.kernel).2 .idle σ.home) := by
  have hw := walked_kalloc σ.kernel
  unfold uvmcreate at hr ⊢
  cases hk : kalloc σ.kernel with
  | mk r k =>
      rw [hk] at hw
      cases r with
      | none => exact h.walked hw
      | some r =>
          have hnew : ∀ q, (k.procs q).pagetable ≠ some r := fun q => by
            rw [hw.procs]
            simpa only [hk] using hr q (by simp only [hk]; simp)
          exact h.idles hw.frameTable (fun q va => (mapped_setTable hnew q va).trans (hw.mapped q va))
            (fun q => congrArg Proc.pagetable (congrFun hw.procs q)) fun pa hpa => h.phys pa (hw.free pa hpa)

/-- **Every step keeps the invariant.** -/
theorem Sound.step (h : Sound σ) {a : CpuAct n} (hg : PicksEntered a σ)
    (hs : cpuStep a σ = .ok ((), σ')) : Sound σ' := by
  cases a with
  | create c =>
      simp only [cpuStep] at hs
      split at hs
      · next hc =>
          cases hs
          exact h.created hc.2
      · cases hs
  | walk c r va =>
      simp only [cpuStep] at hs
      split at hs
      · obtain ⟨⟨found, k⟩, hk, hs⟩ := bind_eq_ok.mp hs
        cases hs
        exact h.walked (walked_walkAlloc hk).1
      · cases hs
  | call c x =>
      simp only [cpuStep] at hs
      split at hs
      · next hc =>
          cases hs
          exact h.called hc.1 hc.2
      · cases hs
  | next c =>
      simp only [cpuStep] at hs
      obtain ⟨⟨pc, k⟩, hk, hs⟩ := bind_eq_ok.mp hs
      cases hs
      exact h.next hg hk
  | map c perm =>
      simp only [cpuStep] at hs
      split at hs
      · next x i m hpc =>
          split at hs
          · next hperm =>
              obtain ⟨⟨found, k⟩, hk, hs⟩ := bind_eq_ok.mp hs
              have hsound := h.enterPage hpc hperm hk
              cases found with
              | true =>
                  cases hs
                  exact hsound
              | false =>
                  cases hs
                  exact hsound
          · cases hs
      · cases hs
  | undo c =>
      simp only [cpuStep] at hs
      split at hs
      · next x m hpc =>
          obtain ⟨k, hk, hs⟩ := bind_eq_ok.mp hs
          cases hs
          unfold kfree at hk
          split at hk
          · cases hk
          · next hok =>
              cases hk
              exact h.idles rfl (mapped_congr rfl fun _ => rfl) (fun _ => rfl) (h.freed hok)
      · cases hs

/-! ### The runs -/

/-- Before the first call. -/
theorem sound_start (hk : Coherent k) (hex : FrameTableExact k) : Sound (System.start n k) := by
  obtain ⟨own, lim, hset⟩ := hk
  have hpages := hset.wf.pages
  refine ⟨fun pa hpa => ?_, fun p q r hp hq => ?_, fun i hi => ?_, fun i hi => ?_, fun i hi _ => ?_,
    fun i j hi _ hj _ => hex.place_inj i j hi hj, fun c x hx => ?_, fun c c' x x' hx => ?_, fun c i x hi => ?_,
    fun c w hw => ?_, fun c c' w w' hw => ?_, fun c m hm => ?_, fun c x i m hpc => ?_⟩
  · have hown : own pa = .free := (hpages.free () pa).mpr hpa
    exact hpages.physOk (by rw [hown]; simp)
  · exact Owner.root.inj ((hpages.own_root hp).symm.trans (hpages.own_root hq))
  · obtain ⟨p, v, hp, -⟩ := hex.entry i hi
    have hp : ((System.start n k).kernel.frameTable i).proc = some p := hp
    rw [hp]
    exact Option.some_ne_none p
  · obtain ⟨p, v, -, hva, -⟩ := hex.entry i hi
    have hva : ((System.start n k).kernel.frameTable i).va = v * PGSIZE := hva
    rw [hva]
    exact Nat.mul_mod_left v PGSIZE
  · obtain ⟨p, v, hp, hva, -, hv, r, hr, hval, hpa⟩ := hex.entry i hi
    have hdiv : v * PGSIZE / PGSIZE = v := Nat.mul_div_cancel v (by decide)
    have hlt : v * PGSIZE < MAXVA := by
      simp only [UPAGES, TRAPFRAME, TRAMPOLINE, MAXVA, PGSIZE] at hv ⊢
      omega
    have htab : IsTable own r := ⟨p, Or.inl (hpages.own_root hr)⟩
    refine ⟨p, hp, ?_⟩
    show mapped k p (k.frameTable i).va = some (k.frameTable i).pa
    rw [hva]
    rcases walk_eq (hpages.table r htab) hlt with hw | ⟨-, h0⟩
    · rw [mapped_of_walk hr hw, hdiv, if_pos hval, hpa]
    · rw [hdiv] at h0
      rw [h0] at hval
      cases hval
  · cases hx
  · cases hx
  · cases hi
  · cases hw
  · cases hw
  · cases hm
  · cases hpc

/-- The page of an entry in flight is not mapped yet. -/
theorem Sound.not_mapped (h : Sound σ) {i : Fin MAX_FRAMES} (hi : InFlight σ i) :
    ¬ (σ.kernel.frameTable i).victim.Mapped σ.kernel := by
  rintro ⟨q, hq, hm⟩
  obtain ⟨c, x, hc, hx, hown⟩ := hi
  obtain ⟨-, hproc, hva, -⟩ := h.frame c i x hc hx
  have hqx : q = x.proc := Option.some.inj (hq.symm.trans hproc)
  have hnone := (h.call c x hx).2.1 hown
  rw [← hva, ← hqx] at hnone
  cases hm.symm.trans hnone

/-- What `kalloc_user` picks is in use. -/
theorem nextVictim_used {i : Fin MAX_FRAMES} (h : nextVictim k p = some i) :
    (k.frameTable i).used = true := by
  unfold nextVictim at h
  split at h
  · cases h
  · next hff => exact freeFrame_none hff i

/-- **No half-built frame is evicted** in a run in which every victim that a CPU picks has been entered in the
page table of its process: every victim that a CPU is about to write to swap or to unmap is mapped by its
process.  And when a CPU picks, an entry that has been entered is about a mapped page, and one in flight
is not. -/
theorem victim_mapped {acts : List (CpuAct n)} {rs : List Unit} (hk : Coherent k) (hex : FrameTableExact k)
    (hm : Meets cpuStep PicksEntered acts (.start n k)) (hrun : run cpuStep acts (.start n k) = .ok (rs, σ'))
    (c : Fin n) :
    (∀ w, (σ'.pc c).victim = some w → w.Mapped σ'.kernel) ∧
      ∀ x i, σ'.pc c = .enter x → nextVictim σ'.kernel x.proc = some i →
        (Entered σ' i → (σ'.kernel.frameTable i).victim.Mapped σ'.kernel) ∧
          (InFlight σ' i → ¬ (σ'.kernel.frameTable i).victim.Mapped σ'.kernel) := by
  have h : Sound σ' := run_invariant (fun a σ _ σ' hg hI hs => hI.step hg hs) acts (.start n k) rs σ' hm
    (sound_start hk hex) hrun
  exact ⟨fun w hw => (h.victim c w hw).2.1, fun x i _ hi => ⟨h.built i (nextVictim_used hi), h.not_mapped⟩⟩

/-! ### Two CPUs -/

def firstCpu : Fin 2 := ⟨0, Nat.zero_lt_succ 1⟩
def secondCpu : Fin 2 := ⟨1, Nat.succ_lt_succ (Nat.zero_lt_succ 0)⟩

/-- The booted kernel after the operations `ops`. -/
def kernelAfter (ops : List KernelOp) : Kernel := stateAfter (run kernelStep ops firstKernel) firstKernel

theorem kernelAfter_exact (ops : List KernelOp)
    (hm : Meets kernelStep KernelOp.Smooth ops firstKernel)
    (hok : (run kernelStep ops firstKernel).toOption.isSome = true) :
    Coherent (kernelAfter ops) ∧ FrameTableExact (kernelAfter ops) := by
  obtain ⟨rs, hrun⟩ := eq_ok_stateAfter firstKernel hok
  obtain ⟨own, lim, hset, ht⟩ := run_invariant (fun o s r s' ho hI hs => kernelStep_listed hI ho hs)
    ops firstKernel rs _ hm firstKernel_listed hrun
  exact ⟨⟨own, lim, hset⟩, (frameTableExact_iff hset).mpr ht⟩

/-- Two processes have half of the frames each. -/
def halfEach : List KernelOp :=
  [.fork firstProc, .grow firstProc (16 * 4096), .grow secondProc (16 * 4096)]

/-- The page that `kexec` then gets for its table. -/
def execTable : Nat := 2148712448

/-- The second process's table. -/
def secondTable : Nat := 2148552704

/-- The first process builds a table in `kexec`, and enters a page in it in place of one of its own.
The second process then faults on one more page. -/
def execBeside : List (CpuAct 2) :=
  [.create firstCpu, .call firstCpu ⟨firstProc, 0, execTable⟩] ++ List.replicate 7 (.next firstCpu) ++
    [.map firstCpu (PTE_R ||| PTE_U), .walk secondCpu secondTable (16 * 4096),
      .call secondCpu ⟨secondProc, 16 * 4096, secondTable⟩, .next secondCpu, .next secondCpu]

theorem victim_mapped_execBeside : ∃ rs σ' w, Coherent (kernelAfter halfEach) ∧
    FrameTableExact (kernelAfter halfEach) ∧
    Meets cpuStep PicksEntered execBeside (.start 2 (kernelAfter halfEach)) ∧
    run cpuStep execBeside (.start 2 (kernelAfter halfEach)) = .ok (rs, σ') ∧
    (σ'.pc secondCpu).victim = some w ∧ w.Mapped σ'.kernel := by
  obtain ⟨hk, hex⟩ := kernelAfter_exact halfEach (by decide +kernel) (by decide +kernel)
  have hm : Meets cpuStep PicksEntered execBeside (.start 2 (kernelAfter halfEach)) := by decide +kernel
  have hsome : (run cpuStep execBeside (.start 2 (kernelAfter halfEach))).toOption.map
      (fun x => (x.2.pc secondCpu).victim.isSome) = some true := by decide +kernel
  obtain ⟨⟨rs, σ'⟩, hrun, hw⟩ := Option.map_eq_some_iff.mp hsome
  obtain ⟨w, hw⟩ := Option.isSome_iff_exists.mp hw
  have hrun := eq_ok_of_toOption hrun
  exact ⟨rs, σ', w, hk, hex, hm, hrun, hw, (victim_mapped hk hex hm hrun secondCpu).1 w hw⟩

/-- All frames but the first are in use, and the clock hand is at the first. -/
def firstFrameFree : List KernelOp :=
  [.fork firstProc, .fork firstProc, .grow firstProc 4096, .grow secondProc (31 * 4096),
    .grow firstProc (-4096)]

/-- The tables of the first and the third process. -/
def firstTable : Nat := 2148536320
def thirdTable : Nat := 2148569088

/-- While the first process fills the first frame, the third one needs a victim. -/
def pickHalfBuilt : List (CpuAct 2) :=
  [.call firstCpu ⟨firstProc, 0, firstTable⟩, .next firstCpu, .call secondCpu ⟨thirdProc, 0, thirdTable⟩,
    .next secondCpu, .next secondCpu]

/-- **A half-built frame is evicted**: the page that is about to be written to swap is not mapped by
the victim's process.  It is page 0, and the write panics. -/
theorem half_built_frame_evicted : ∃ rs σ' x i w slot, Coherent (kernelAfter firstFrameFree) ∧
    FrameTableExact (kernelAfter firstFrameFree) ∧
    run cpuStep pickHalfBuilt (.start 2 (kernelAfter firstFrameFree)) = .ok (rs, σ') ∧
    σ'.pc secondCpu = .swapWrite x i w slot ∧ ¬ w.Mapped σ'.kernel ∧
    cpuStep (.next secondCpu) σ' = .error "kerneltrap" := by
  obtain ⟨hk, hex⟩ := kernelAfter_exact firstFrameFree (by decide +kernel) (by decide +kernel)
  have hsome : (run cpuStep pickHalfBuilt (.start 2 (kernelAfter firstFrameFree))).toOption.map
      (fun x => (x.2.pc secondCpu, mapped x.2.kernel firstProc 0)) =
      some (.swapWrite ⟨thirdProc, 0, thirdTable⟩ ⟨0, by decide⟩ ⟨some firstProc, 0, 0⟩ 0, none) := by
    decide +kernel
  obtain ⟨⟨rs, σ'⟩, hrun, hx⟩ := Option.map_eq_some_iff.mp hsome
  obtain ⟨hpc, hnone⟩ := Prod.mk.inj hx
  refine ⟨rs, σ', _, _, _, _, hk, hex, eq_ok_of_toOption hrun, hpc, ?_, ?_⟩
  · rintro ⟨q, hq, hmap⟩
    have hq' : q = firstProc := (Option.some.inj hq).symm
    subst hq'
    cases hnone.symm.trans hmap
  · simp only [cpuStep]
    rw [hpc]
    rfl

end Xv6.Vm
