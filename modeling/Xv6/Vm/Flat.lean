import Xv6.Vm.Boot
import Xv6.Vm.Fault

/-!
# Vm — Flat

Demand paging against flat memory.

The machine performs complete operations of user processes: a load or a store of a byte, retried
once after `vmfault`, and `sbrk`.  Its abstract counterpart gives every process a flat memory: a
size, a byte for each address and the permissions of each page.

* `memStep`: one operation on the kernel.  With its result it tells whether swap was full.
* `flatOp`: the same operation on flat memory.
* `flatMem`: the flat memory that a kernel state stands for.
* `memStep_flat`: a step of the kernel is a step of flat memory.
* `run_flat`: and so for whole runs, whatever was evicted and swapped in on the way.
-/

namespace Xv6.Vm
open Xv6.Lib
open Xv6.Raid (Page zeroPage PGSIZE BLOCKS_PER_PAGE MAX_SWAP Healthy)

variable {own own' : Nat → Owner} {lim : Nat → Nat} {s s' : Kernel} {p q : ProcId}
  {r v pa va : Nat}

/-! ### Operations of user processes -/

inductive MemOp where
  | load (p : ProcId) (va : Nat)
  | store (p : ProcId) (va : Nat) (b : UInt8)
  | sbrk (p : ProcId) (n : Int32) (eager : Bool)

def MemOp.proc : MemOp → ProcId
  | .load p _ => p
  | .store p _ _ => p
  | .sbrk p _ _ => p

/-- `failed` is a fault that `vmfault` could not serve, and `denied` one that comes again because
the permissions of the page forbid the access. -/
inductive MemResult where
  | byte (b : UInt8)
  | stored
  | size (old : Option Nat)
  | failed
  | denied
  deriving DecidableEq

theorem mod_PGSIZE_lt (va : Nat) : va % PGSIZE < PGSIZE := Nat.mod_lt _ (by decide)

/-- The place of an address in its page. -/
def pageOff (va : Nat) : Fin PGSIZE := ⟨va % PGSIZE, mod_PGSIZE_lt va⟩

/-- The physical page of an access by user code, which needs `bit`. -/
def userPage (s : Kernel) (r va : Nat) (bit : Pte) : Option Nat :=
  match walk s r va with
  | .ok (some e) => if e.has PTE_V && e.has PTE_U && e.has bit then some (pte2Pa e) else none
  | _ => none

/-- What comes of an access. -/
inductive Access where
  | page (pa : Nat)
  | failed
  | denied
  deriving DecidableEq

/-- An access by user code: by the page table, or by `usertrap`, `vmfault` and a retry. -/
def userAccess (s : Kernel) (p : ProcId) (r va : Nat) (bit : Pte) :
    Except String (Access × Kernel) :=
  match userPage s r va bit with
  | some pa => .ok (.page pa, s)
  | none => do
    let (res, s) ← vmfault s p r va
    if res = 0 then return (.failed, setProc s p { s.procs p with killed := true })
    else
      match userPage s r va bit with
      | some pa => return (.page pa, s)
      | none => return (.denied, s)

/-- An operation of a process with page table `r`. -/
def userOp (r : Nat) : MemOp → Kernel → Except String (MemResult × Kernel)
  | .load p va, s => do
    match ← userAccess s p r va PTE_R with
    | (.page pa, s) => return (.byte (s.mem pa (pageOff va)), s)
    | (.failed, s) => return (.failed, s)
    | (.denied, s) => return (.denied, s)
  | .store p va b, s => do
    match ← userAccess s p r va PTE_W with
    | (.page pa, s) => return (.stored, setPage s pa (Function.update (s.mem pa) (pageOff va) b))
    | (.failed, s) => return (.failed, s)
    | (.denied, s) => return (.denied, s)
  | .sbrk p n eager, s => do
    let (res, s) ← sysSbrk s p r n.toInt eager
    return (.size res, s)

/-- A step of the machine.  The flag of the result says whether `swap_alloc` returned -1. -/
def memStep (o : MemOp) (s : Kernel) : Except String ((MemResult × Bool) × Kernel) :=
  match (s.procs o.proc).pagetable with
  | none => .error "no process"
  | some r => do
    let (res, s') ← userOp r o s
    return ((res, s'.swapFulls != s.swapFulls), s')

/-- The operation can be issued: the process is there, and its address is below its size. -/
def MemOp.Enabled (o : MemOp) (s : Kernel) : Prop :=
  (s.procs o.proc).pagetable ≠ none ∧
    match o with
    | .load p va => va < (s.procs p).sz
    | .store p va _ => va < (s.procs p).sz
    | .sbrk _ _ _ => True

/-- `kalloc` does not return 0 in the step. -/
def memNoNull (o : MemOp) (s : Kernel) : Prop :=
  ∀ res s', memStep o s = .ok (res, s') → s'.nullAllocs = s.nullAllocs

instance MemOp.decidableEnabled (o : MemOp) (s : Kernel) : Decidable (o.Enabled s) :=
  match o with
  | .load _ _ => inferInstanceAs (Decidable (_ ∧ _))
  | .store _ _ _ => inferInstanceAs (Decidable (_ ∧ _))
  | .sbrk _ _ _ => inferInstanceAs (Decidable (_ ∧ _))

instance decidableMemNoNull (o : MemOp) (s : Kernel) : Decidable (memNoNull o s) :=
  inferInstanceAs (Decidable (∀ _ _, _ → _))

/-! ### Flat memory -/

structure FlatProc where
  sz : Nat
  byte : Nat → UInt8
  perm : Nat → Pte

abbrev FlatMem := ProcId → FlatProc

def FlatProc.allows (m : FlatProc) (va : Nat) (bit : Pte) : Bool :=
  (m.perm (va / PGSIZE)).has PTE_U && (m.perm (va / PGSIZE)).has bit

/-- Pages beyond the old or the new size are new: all zeros, to be read and written. -/
def FlatProc.resize (m : FlatProc) (n : Nat) : FlatProc where
  sz := n
  byte va := if va / PGSIZE < npages m.sz ∧ va / PGSIZE < npages n then m.byte va else 0
  perm v := if v < npages m.sz ∧ v < npages n then m.perm v else lazyPerm

/-- An operation on flat memory, which fails when there is no room (`full`). -/
def flatOp (full : Bool) : MemOp → FlatMem → MemResult × FlatMem
  | .load p va, m =>
    if full then (.failed, m)
    else if (m p).allows va PTE_R then (.byte ((m p).byte va), m)
    else (.denied, m)
  | .store p va b, m =>
    if full then (.failed, m)
    else if (m p).allows va PTE_W then
      (.stored, Function.update m p { m p with byte := Function.update (m p).byte va b })
    else (.denied, m)
  | .sbrk p n _, m =>
    if full ∨ newSize (m p).sz n.toInt > TRAPFRAME then (.size none, m)
    else (.size (some (m p).sz), Function.update m p ((m p).resize (newSize (m p).sz n.toInt)))

/-- The flat memory of process `p` with table `r`. -/
def flatOf (s : Kernel) (p : ProcId) (r : Nat) : FlatProc where
  sz := (s.procs p).sz
  byte va := if va / PGSIZE < npages (s.procs p).sz then (flat s r (va / PGSIZE)).1 (pageOff va) else 0
  perm v := if v < npages (s.procs p).sz then (flat s r v).2 else lazyPerm

/-- The flat memory that a kernel state stands for. -/
def flatMem (s : Kernel) : FlatMem := fun p =>
  match (s.procs p).pagetable with
  | none => ⟨0, fun _ => 0, fun _ => lazyPerm⟩
  | some r => flatOf s p r

theorem flatMem_of (h : (s.procs p).pagetable = some r) : flatMem s p = flatOf s p r := by
  simp [flatMem, h]

/-! ### Operations that flat memory does not see -/

/-- The flat memory of one process depends on its size and the pages below it. -/
theorem flatMem_apply_congr (h : Settled own lim s)
    (hpt : (s'.procs q).pagetable = (s.procs q).pagetable) (hsz : (s'.procs q).sz = (s.procs q).sz)
    (hflat : ∀ r v, own r = .root q → v < UPAGES → flat s' r v = flat s r v) :
    flatMem s' q = flatMem s q := by
  unfold flatMem
  rw [hpt]
  cases hq : (s.procs q).pagetable with
  | none => rfl
  | some r =>
      have hr := h.wf.pages.own_root hq
      have hlt : ∀ v, v < npages (s.procs q).sz → v < UPAGES := fun v hv =>
        hv.trans_le (npages_le (h.sz_le q))
      simp only [flatOf, hsz]
      refine congrArg₂ (FlatProc.mk _) (funext fun a => ?_) (funext fun v => ?_)
      · split
        · next ha => rw [hflat r _ hr (hlt _ ha)]
        · rfl
      · split
        · next hv => rw [hflat r v hr (hlt v hv)]
        · rfl

theorem flatMem_congr (h : Settled own lim s)
    (hpt : ∀ q, (s'.procs q).pagetable = (s.procs q).pagetable)
    (hsz : ∀ q, (s'.procs q).sz = (s.procs q).sz)
    (hflat : ∀ r v, IsTable own r → v < UPAGES → flat s' r v = flat s r v) :
    flatMem s' = flatMem s := by
  funext q
  exact flatMem_apply_congr h (hpt q) (hsz q) fun r v hr hv => hflat r v ⟨q, Or.inl hr⟩ hv

theorem flatMem_keeps (h : Settled own lim s) (hk : Keeps noPage own own' s s') :
    flatMem s' = flatMem s :=
  flatMem_congr h hk.procs.pagetable hk.procs.sz fun r v hr hv => hk.flat r v hr hv id

/-! ### Accesses -/

theorem perm_has (e : Pte) {n : Nat} (h₁ : 1 ≤ n) (h₂ : n ≤ 4) :
    e.perm.has (BitVec.twoPow 64 n) = e.has (BitVec.twoPow 64 n) := by
  have hmask : ∀ n, 1 ≤ n → n ≤ 4 →
      (PTE_R ||| PTE_W ||| PTE_X ||| PTE_U).getLsbD n = true := by decide
  rw [has_twoPow _ n (by omega), has_twoPow _ n (by omega), Pte.perm, BitVec.getLsbD_and,
    hmask n h₁ h₂, Bool.and_true]

/-- The bits that an access of user code needs. -/
def AccessBit (bit : Pte) : Prop := bit = PTE_R ∨ bit = PTE_W

theorem AccessBit.perm_has {bit : Pte} (h : AccessBit bit) (e : Pte) : e.perm.has bit = e.has bit := by
  rcases h with rfl | rfl
  · exact Vm.perm_has e (n := 1) (by decide) (by decide)
  · exact Vm.perm_has e (n := 2) (by decide) (by decide)

theorem perm_has_U (e : Pte) : e.perm.has PTE_U = e.has PTE_U :=
  perm_has e (n := 4) (by decide) (by decide)

section Access

variable {bit : Pte} (h : Settled own lim s) (hr : own r = .root p) (hva : va < (s.procs p).sz)

include h hr hva

omit hr in
theorem page_lt : va / PGSIZE < npages (s.procs p).sz ∧ va / PGSIZE < UPAGES :=
  ⟨div_lt_npages hva, (div_lt_npages hva).trans_le (npages_le (h.sz_le p))⟩

theorem allows_eq (hbit : AccessBit bit) (hres : Resident (s.pte r (va / PGSIZE)) pa) :
    (flatMem s p).allows va bit =
      ((s.pte r (va / PGSIZE)).has PTE_U && (s.pte r (va / PGSIZE)).has bit) := by
  have hlt := (page_lt h hva).1
  rw [flatMem_of (h.wf.pages.pagetable hr)]
  simp only [FlatProc.allows, flatOf, if_pos hlt, flat_resident hres, perm_has_U, hbit.perm_has]

/-- A resident page is accessed as its permissions allow. -/
theorem userPage_resident (hbit : AccessBit bit) (hres : Resident (s.pte r (va / PGSIZE)) pa) :
    userPage s r va bit = if (flatMem s p).allows va bit then some pa else none := by
  have hwalk := walk_resident h.wf.pages ⟨p, Or.inl hr⟩ rfl hres (page_lt h hva).2
  simp only [userPage, hwalk, hres.valid, Bool.true_and, hres.pa_eq, allows_eq h hr hva hbit hres]

/-- A page that can be accessed at once is resident, and its permissions allow it. -/
theorem userPage_some (hbit : AccessBit bit) (hsome : userPage s r va bit = some pa) :
    Resident (s.pte r (va / PGSIZE)) pa ∧ (flatMem s p).allows va bit = true := by
  have htab := h.wf.pages.table r ⟨p, Or.inl hr⟩
  have hlt : va < MAXVA := by
    have := h.sz_lt p
    simp only [MAXVA]
    omega
  rcases walk_eq htab hlt with hw | ⟨hw, -⟩
  · by_cases hval : (s.pte r (va / PGSIZE)).has PTE_V = true
    · have hres := htab.resident_of (page_lt h hva).2 hval
      have hpage := userPage_resident h hr hva hbit hres
      rw [hpage] at hsome
      split at hsome
      · next hallow =>
          cases hsome
          exact ⟨hres, hallow⟩
      · cases hsome
    · simp [userPage, hw, hval] at hsome
  · simp [userPage, hw] at hsome

theorem userAccess_spec (hbit : AccessBit bit) :
    ∃ acc s', userAccess s p r va bit = .ok (acc, s') ∧ (s'.nullAllocs = s.nullAllocs →
      ∃ own', Settled own' lim s' ∧ own' r = .root p ∧ (s'.procs p).sz = (s.procs p).sz ∧
        flatMem s' = flatMem s ∧ (acc = .failed ↔ s'.swapFulls ≠ s.swapFulls) ∧
        (∀ pa, acc = .page pa → Resident (s'.pte r (va / PGSIZE)) pa ∧
          (flatMem s p).allows va bit = true) ∧
        (acc = .denied → (flatMem s p).allows va bit = false)) := by
  cases hpage : userPage s r va bit with
  | some pa =>
      refine ⟨.page pa, s, by simp [userAccess, hpage], fun _ => ⟨own, h, hr, rfl, rfl, by simp,
        fun pa' hpa' => ?_, fun hd => by cases hd⟩⟩
      cases hpa'
      exact userPage_some h hr hva hbit hpage
  | none =>
      have hround : va / PGSIZE * PGSIZE < (s.procs p).sz :=
        (Nat.div_mul_le_self va PGSIZE).trans_lt hva
      obtain ⟨res, s₁, own₁, hrun, hset₁, hf⟩ := vmfault_spec h hr hround
      have hr₁ : own₁ r = .root p := (hf.keeps.roots p r).1.mpr hr
      have hflat₁ : flatMem s₁ = flatMem s := flatMem_keeps h hf.keeps
      have hsz₁ : (s₁.procs p).sz = (s.procs p).sz := hf.keeps.procs.sz p
      by_cases hres : res = 0
      · -- the process is killed
        let f := Function.update s₁.procs p { s₁.procs p with killed := true }
        have hfields : ∀ q, (f q).pagetable = (s₁.procs q).pagetable ∧
            (f q).trapframe = (s₁.procs q).trapframe ∧ (f q).sz = (s₁.procs q).sz ∧
            (f q).state = (s₁.procs q).state := by
          intro q
          by_cases hq : q = p
          · subst hq
            simp [f]
          · simp [f, hq]
        refine ⟨.failed, { s₁ with procs := f }, by simp [userAccess, hpage, hrun, hres, setProc, f],
          fun hn => ⟨own₁, hset₁.setProcs (fun q => (hfields q).1) (fun q => (hfields q).2.1)
            (fun q => (hfields q).2.2.1) fun q => by rw [(hfields q).2.2.2], hr₁,
            ((hfields p).2.2.1).trans hsz₁, ?_, ?_, fun pa hpa => (by cases hpa),
            fun hd => (by cases hd)⟩⟩
        · rw [← hflat₁]
          exact flatMem_congr hset₁ (fun q => (hfields q).1) (fun q => (hfields q).2.2.1)
            fun _ _ _ _ => rfl
        · have hnull : ¬ s.nullAllocs < s₁.nullAllocs := fun hlt => hlt.ne' hn
          exact iff_of_true rfl ((hf.failed hres).resolve_left hnull).ne'
      · obtain ⟨hresid, hfulls⟩ := hf.served hres
        have hva₁ : va < (s₁.procs p).sz := hsz₁ ▸ hva
        have hpage₁ := userPage_resident hset₁ hr₁ hva₁ hbit hresid
        rw [hflat₁] at hpage₁
        cases hallow : (flatMem s p).allows va bit with
        | true =>
            rw [hallow] at hpage₁
            refine ⟨.page res, s₁, by simp [userAccess, hpage, hrun, hres, hpage₁],
              fun _ => ⟨own₁, hset₁, hr₁, hsz₁, hflat₁, by simp [hfulls], fun pa hpa => ?_,
                fun hd => by cases hd⟩⟩
            cases hpa
            exact ⟨hresid, rfl⟩
        | false =>
            rw [hallow] at hpage₁
            exact ⟨.denied, s₁, by simp [userAccess, hpage, hrun, hres, hpage₁],
              fun _ => ⟨own₁, hset₁, hr₁, hsz₁, hflat₁, by simp [hfulls],
                fun pa hpa => (by cases hpa), fun _ => rfl⟩⟩

end Access

/-! ### Steps -/

/-- A resident page is given the contents `x`. -/
theorem flat_setPage (h : Wf own lim s) (hr : IsTable own r) (hv : v < UPAGES)
    (hres : Resident (s.pte r v) pa) (x : Page) {r' v' : Nat} (hr' : IsTable own r')
    (hv' : v' < UPAGES) : flat (setPage s pa x) r' v' =
      if r' = r ∧ v' = v then (x, (flat s r v).2) else flat s r' v' := by
  by_cases hk : r' = r ∧ v' = v
  · obtain ⟨rfl, rfl⟩ := hk
    rw [if_pos ⟨rfl, rfl⟩, flat_resident hres, flat_resident (s := setPage s pa x) hres]
    simp [setPage, Kernel.pte]
  · rw [if_neg hk]
    refine flat_congr rfl (fun y hy => ?_) (fun _ _ => rfl) (h.pages.userEntry hr' hv')
    have hne : y ≠ pa := by
      rintro rfl
      have := (h.pages.own_user hr' hv' hy).symm.trans (h.pages.own_user hr hv hres)
      cases this
      exact hk ⟨rfl, rfl⟩
    simp [setPage, hne]

theorem Settled.setPage (h : Settled own lim s) (pa : Nat) (x : Page) :
    Settled own lim (setPage s pa x) :=
  ⟨h.wf.congr ⟨rfl, rfl, rfl, rfl, fun _ => rfl⟩ rfl rfl rfl (fun _ hi => ⟨hi, rfl, rfl, rfl⟩)
    h.wf.raid, h.noHeld, h.noNew, h.sized, h.sz_le, h.live, h.unused⟩

theorem addr_eq_iff (va a : Nat) : a = va ↔ a / PGSIZE = va / PGSIZE ∧ pageOff a = pageOff va := by
  constructor
  · rintro rfl
    exact ⟨rfl, rfl⟩
  · rintro ⟨hd, ho⟩
    have hm : a % PGSIZE = va % PGSIZE := congrArg Fin.val ho
    rw [← Nat.div_add_mod a PGSIZE, ← Nat.div_add_mod va PGSIZE, hd, hm]

/-- Two processes have different tables. -/
theorem root_ne {r' : Nat} (hr : own r = .root p) (hr' : own r' = .root q) (hq : q ≠ p) :
    r' ≠ r := by
  rintro rfl
  rw [hr] at hr'
  cases hr'
  exact hq rfl

/-- A new page in place of a resident one shows in flat memory at the addresses of that page. -/
theorem flatMem_setPage (h : Settled own lim s) (hr : own r = .root p)
    (hv : v < npages (s.procs p).sz) (hres : Resident (s.pte r v) pa) (x : Page) :
    flatMem (setPage s pa x) = Function.update (flatMem s) p
      { flatMem s p with
        byte := fun a => if a / PGSIZE = v then x (pageOff a) else (flatMem s p).byte a } := by
  have hwu : ∀ w, w < npages (s.procs p).sz → w < UPAGES := fun w hw =>
    hw.trans_le (npages_le (h.sz_le p))
  have htab : IsTable own r := ⟨p, Or.inl hr⟩
  have hpt := h.wf.pages.pagetable hr
  have hset : ∀ r' v', IsTable own r' → v' < UPAGES → flat (setPage s pa x) r' v' =
      if r' = r ∧ v' = v then (x, (flat s r v).2) else flat s r' v' :=
    fun r' v' hr' hv' => flat_setPage h.wf htab (hwu v hv) hres x hr' hv'
  funext q
  by_cases hq : q = p
  · subst hq
    rw [Function.update_self, flatMem_of hpt, flatMem_of (s := setPage s pa x) hpt]
    refine congrArg₂ (FlatProc.mk (s.procs q).sz) (funext fun a => ?_) (funext fun w => ?_)
    · change (if a / PGSIZE < npages (s.procs q).sz then _ else _) = _
      by_cases ha : a / PGSIZE < npages (s.procs q).sz
      · rw [if_pos ha, hset r _ htab (hwu _ ha)]
        by_cases hav : a / PGSIZE = v
        · rw [if_pos ⟨rfl, hav⟩, if_pos hav]
        · rw [if_neg fun hk => hav hk.2, if_neg hav]
          exact (if_pos ha).symm
      · have hav : a / PGSIZE ≠ v := fun hav => ha (by rwa [hav])
        rw [if_neg ha, if_neg hav]
        exact (if_neg ha).symm
    · change (if w < npages (s.procs q).sz then _ else _) = if w < npages (s.procs q).sz then _ else _
      by_cases hw : w < npages (s.procs q).sz
      · rw [if_pos hw, if_pos hw, hset r w htab (hwu w hw)]
        by_cases he : w = v
        · rw [if_pos ⟨rfl, he⟩, he]
        · rw [if_neg fun hc => he hc.2]
      · rw [if_neg hw, if_neg hw]
  · rw [Function.update_of_ne hq]
    refine flatMem_apply_congr h rfl rfl fun r' w hr' hw => ?_
    rw [hset r' w ⟨q, Or.inl hr'⟩ hw, if_neg fun he => root_ne hr hr' hq he.1]

/-- The byte of a resident page. -/
theorem flatMem_byte (h : Settled own lim s) (hr : own r = .root p)
    (hv : va / PGSIZE < npages (s.procs p).sz) (hres : Resident (s.pte r (va / PGSIZE)) pa) :
    (flatMem s p).byte va = s.mem pa (pageOff va) := by
  rw [flatMem_of (h.wf.pages.pagetable hr)]
  simp only [flatOf, if_pos hv, flat_resident hres]

/-- Storing a byte in the page of an address is storing it in flat memory. -/
theorem flatMem_store (h : Settled own lim s) (hr : own r = .root p) (hva : va < (s.procs p).sz)
    (hres : Resident (s.pte r (va / PGSIZE)) pa) (b : UInt8) :
    flatMem (setPage s pa (Function.update (s.mem pa) (pageOff va) b)) =
      Function.update (flatMem s) p
        { flatMem s p with byte := Function.update (flatMem s p).byte va b } := by
  have hlt := (page_lt h hva).1
  rw [flatMem_setPage h hr hlt hres]
  refine congrArg (fun byte => Function.update (flatMem s) p { flatMem s p with byte := byte })
    (funext fun a => ?_)
  by_cases hav : a = va
  · subst hav
    rw [if_pos rfl, Function.update_self, Function.update_self]
  · rw [Function.update_of_ne hav]
    by_cases hp : a / PGSIZE = va / PGSIZE
    · have ho : pageOff a ≠ pageOff va := fun ho => hav ((addr_eq_iff va a).mpr ⟨hp, ho⟩)
      rw [if_pos hp, Function.update_of_ne ho]
      exact (flatMem_byte h hr (by rwa [hp]) (by rwa [hp])).symm
    · rw [if_neg hp]

/-- Resizing a process is resizing its flat memory. -/
theorem flatMem_resize {n : Nat} (h : Settled own lim s) (hr : own r = .root p)
    (hn : n ≤ TRAPFRAME) (hres : Resized own own' s s' p r n) :
    flatMem s' = Function.update (flatMem s) p ((flatMem s p).resize n) := by
  have hpt := h.wf.pages.pagetable hr
  funext q
  by_cases hq : q = p
  · subst hq
    rw [Function.update_self, flatMem_of hpt, flatMem_of (r := r) ((hres.pagetable q).trans hpt)]
    have htab : IsTable own r := ⟨q, Or.inl hr⟩
    -- the pages beyond the old size were empty
    have hflat : ∀ w, w < npages n → flat s' r w =
        if w < npages (s.procs q).sz then flat s r w else (zeroPage, lazyPerm) := by
      intro w hw
      have hwu : w < UPAGES := hw.trans_le (npages_le hn)
      rw [hres.flat r w htab hwu, if_neg fun he => by omega]
      split
      · rfl
      · refine flat_zero (h.wf.pte_above htab ?_ hwu)
        rw [h.sized q r hr]
        omega
    have hsz : (s'.procs q).sz = n := by rw [hres.sz, if_pos rfl]
    simp only [flatOf, FlatProc.resize, hsz]
    refine congrArg₂ (FlatProc.mk _) (funext fun a => ?_) (funext fun w => ?_)
    · by_cases ha : a / PGSIZE < npages n
      · rw [if_pos ha, hflat _ ha]
        by_cases ha' : a / PGSIZE < npages (s.procs q).sz
        · simp [ha, ha']
        · simp [ha', zeroPage]
      · simp [ha]
    · by_cases hw : w < npages n
      · rw [if_pos hw, hflat _ hw]
        by_cases hw' : w < npages (s.procs q).sz
        · simp [hw, hw']
        · simp [hw']
      · simp [hw]
  · rw [Function.update_of_ne hq]
    refine flatMem_apply_congr h (hres.pagetable q) (by rw [hres.sz, if_neg hq]) fun r' w hr' hw => ?_
    rw [hres.flat r' w ⟨q, Or.inl hr'⟩ hw, if_neg fun he => root_ne hr hr' hq he.1]

/-- The operation returns, and unless `kalloc` returned 0 it has done what it does to flat
memory. -/
def ActsFlat (s : Kernel) (r : Nat) (o : MemOp) : Prop :=
  ∃ res s', userOp r o s = .ok (res, s') ∧ (s'.nullAllocs = s.nullAllocs →
    flatOp (s'.swapFulls != s.swapFulls) o (flatMem s) = (res, flatMem s') ∧ Coherent s')

theorem load_flat (h : Settled own lim s) (hr : own r = .root p) (hva : va < (s.procs p).sz) :
    ActsFlat s r (.load p va) := by
  obtain ⟨acc, s₁, hrun, hpost⟩ := userAccess_spec h hr hva (Or.inl rfl)
  cases acc with
  | page pa =>
      refine ⟨.byte (s₁.mem pa (pageOff va)), s₁, by simp [userOp, hrun], fun hn => ?_⟩
      obtain ⟨own₁, hset, hr₁, hsz, hflat, hfail, hpage, -⟩ := hpost hn
      obtain ⟨hres, hallow⟩ := hpage pa rfl
      have hfull : s₁.swapFulls = s.swapFulls := by simpa using hfail
      have hbyte : (flatMem s p).byte va = s₁.mem pa (pageOff va) := by
        rw [← hflat]
        exact flatMem_byte hset hr₁ (hsz ▸ (page_lt h hva).1) hres
      exact ⟨by simp [flatOp, hfull, hallow, hbyte, hflat], own₁, lim, hset⟩
  | failed =>
      refine ⟨.failed, s₁, by simp [userOp, hrun], fun hn => ?_⟩
      obtain ⟨own₁, hset, -, -, hflat, hfail, -, -⟩ := hpost hn
      exact ⟨by simp [flatOp, hfail.mp rfl, hflat], own₁, lim, hset⟩
  | denied =>
      refine ⟨.denied, s₁, by simp [userOp, hrun], fun hn => ?_⟩
      obtain ⟨own₁, hset, -, -, hflat, hfail, -, hdeny⟩ := hpost hn
      have hfull : s₁.swapFulls = s.swapFulls := by simpa using hfail
      exact ⟨by simp [flatOp, hfull, hdeny rfl, hflat], own₁, lim, hset⟩

theorem store_flat (h : Settled own lim s) (hr : own r = .root p) (hva : va < (s.procs p).sz)
    (b : UInt8) : ActsFlat s r (.store p va b) := by
  obtain ⟨acc, s₁, hrun, hpost⟩ := userAccess_spec h hr hva (Or.inr rfl)
  cases acc with
  | page pa =>
      refine ⟨.stored, setPage s₁ pa (Function.update (s₁.mem pa) (pageOff va) b),
        by simp [userOp, hrun], fun hn => ?_⟩
      obtain ⟨own₁, hset, hr₁, hsz, hflat, hfail, hpage, -⟩ := hpost hn
      obtain ⟨hres, hallow⟩ := hpage pa rfl
      have hfull : s₁.swapFulls = s.swapFulls := by simpa using hfail
      refine ⟨?_, own₁, lim, hset.setPage ..⟩
      rw [flatMem_store hset hr₁ (hsz ▸ hva) hres b, hflat]
      simp [flatOp, setPage, hfull, hallow]
  | failed =>
      refine ⟨.failed, s₁, by simp [userOp, hrun], fun hn => ?_⟩
      obtain ⟨own₁, hset, -, -, hflat, hfail, -, -⟩ := hpost hn
      exact ⟨by simp [flatOp, hfail.mp rfl, hflat], own₁, lim, hset⟩
  | denied =>
      refine ⟨.denied, s₁, by simp [userOp, hrun], fun hn => ?_⟩
      obtain ⟨own₁, hset, -, -, hflat, hfail, -, hdeny⟩ := hpost hn
      have hfull : s₁.swapFulls = s.swapFulls := by simpa using hfail
      exact ⟨by simp [flatOp, hfull, hdeny rfl, hflat], own₁, lim, hset⟩

theorem sbrk_flat (h : Settled own lim s) (hr : own r = .root p) (n : Int32) (eager : Bool) :
    ActsFlat s r (.sbrk p n eager) := by
  obtain ⟨res, s₁, hrun, -, hres, hpost⟩ := sysSbrk_spec eager h hr (Int32.le_toInt n)
    (Int32.toInt_lt n)
  refine ⟨.size res, s₁, by simp [userOp, hrun], fun hn => ?_⟩
  obtain ⟨own₁, lim₁, hset, hiff, hok, hfail⟩ := hpost hn
  refine ⟨?_, own₁, lim₁, hset⟩
  have hsz : (flatMem s p).sz = (s.procs p).sz := by
    rw [flatMem_of (h.wf.pages.pagetable hr)]
    rfl
  rcases hres with rfl | rfl
  · have hcond : (s₁.swapFulls != s.swapFulls) = true ∨
        newSize (s.procs p).sz n.toInt > TRAPFRAME := by
      by_contra hc
      push Not at hc
      exact hiff.mpr ⟨hc.2, by simpa using hc.1⟩ rfl
    rw [flatOp, hsz, if_pos hcond, flatMem_keeps h (hfail rfl)]
  · obtain ⟨hle, hfull⟩ := hiff.mp (by simp)
    have hcond : ¬ ((s₁.swapFulls != s.swapFulls) = true ∨
        newSize (s.procs p).sz n.toInt > TRAPFRAME) := by
      simp only [hfull, bne_self_eq_false, Bool.false_eq_true, false_or]
      omega
    rw [flatOp, hsz, if_neg hcond, flatMem_resize h hr hle (hok (by simp))]

/-- **A step of the kernel is a step of flat memory.** -/
theorem memStep_flat {o : MemOp} (h : Coherent s) (hen : o.Enabled s) (hnn : memNoNull o s) :
    ∃ res full s', memStep o s = .ok ((res, full), s') ∧
      flatOp full o (flatMem s) = (res, flatMem s') ∧ Coherent s' := by
  obtain ⟨own, lim, h⟩ := h
  obtain ⟨hpt, hen⟩ := hen
  obtain ⟨r, hr⟩ := Option.ne_none_iff_exists'.mp hpt
  have hown := h.wf.pages.own_root hr
  have hacts : ActsFlat s r o := by
    cases o with
    | load p va => exact load_flat h hown hen
    | store p va b => exact store_flat h hown hen b
    | sbrk p n eager => exact sbrk_flat h hown n eager
  obtain ⟨res, s', hrun, hpost⟩ := hacts
  have hstep : memStep o s = .ok ((res, s'.swapFulls != s.swapFulls), s') := by
    simp [memStep, hr, hrun]
  obtain ⟨hflat, hcoh⟩ := hpost (hnn _ s' hstep)
  exact ⟨res, _, s', hstep, hflat, hcoh⟩

/-! ### Runs -/

/-- Every operation of the run can be issued, and `kalloc` never returns 0. -/
def Served : MemOp → Kernel → Prop := fun o s => o.Enabled s ∧ memNoNull o s

instance decidableServed (o : MemOp) (s : Kernel) : Decidable (Served o s) :=
  inferInstanceAs (Decidable (_ ∧ _))

theorem run_flat {ops : List MemOp} (h : Coherent s) (hm : Meets memStep Served ops s) :
    ∃ rs s', run memStep ops s = .ok (rs, s') ∧ Coherent s' ∧
      Trace (fun o m r m' => flatOp r.2 o m = (r.1, m')) ops (flatMem s) rs (flatMem s') := by
  have hstep : ∀ o t m, Served o t → Coherent t ∧ m = flatMem t → ∃ r t' m',
      memStep o t = .ok (r, t') ∧ flatOp r.2 o m = (r.1, m') ∧ Coherent t' ∧ m' = flatMem t' := by
    rintro o t m hG ⟨hcoh, rfl⟩
    obtain ⟨res, full, t', hstep, hflat, hcoh'⟩ := memStep_flat hcoh hG.1 hG.2
    exact ⟨(res, full), t', _, hstep, hflat, hcoh', rfl⟩
  obtain ⟨rs, s', m', hrun, htrace, hcoh, rfl⟩ := run_simulates hstep ops s (flatMem s) hm ⟨h, rfl⟩
  exact ⟨rs, s', hrun, hcoh, htrace⟩

theorem flatMem_sz (h : Coherent s) (p : ProcId) : (flatMem s p).sz = (s.procs p).sz := by
  obtain ⟨own, lim, h⟩ := h
  unfold flatMem
  cases hp : (s.procs p).pagetable with
  | none => exact ((h.unused p ((h.live p).mpr hp)).2).symm
  | some r => rfl

/-- An entry has the permissions that flat memory gives its page. -/
theorem flatMem_perm (h : Coherent s) (hr : (s.procs p).pagetable = some r)
    (hv : v < npages (s.procs p).sz) (hne : s.pte r v ≠ 0) :
    (flatMem s p).perm v = (s.pte r v).perm := by
  obtain ⟨own, lim, h⟩ := h
  have htab : IsTable own r := ⟨p, Or.inl (h.wf.pages.own_root hr)⟩
  rw [flatMem_of hr]
  simp only [flatOf, if_pos hv]
  rcases h.wf.pages.userEntry htab (hv.trans_le (npages_le (h.sz_le p))) with h0 | ⟨pa, hx⟩ | ⟨n, hx⟩
  · exact absurd h0 hne
  · rw [flat_resident hx]
  · rw [flat_swapped hx]

/-- An operation of another process is not seen. -/
theorem flatOp_other {o : MemOp} (full : Bool) (m : FlatMem) (hq : q ≠ o.proc) :
    (flatOp full o m).2 q = m q := by
  cases o <;> simp only [flatOp] <;> split_ifs <;> first
    | rfl
    | exact Function.update_of_ne hq ..

/-- The permissions of a page stay as they are while the page is below the size. -/
theorem flatOp_perm {o : MemOp} (full : Bool) (m : FlatMem) (hv : v < npages (m p).sz)
    (hv' : v < npages ((flatOp full o m).2 p).sz) : ((flatOp full o m).2 p).perm v = (m p).perm v := by
  by_cases hp : p = o.proc
  · subst hp
    cases o with
    | load p va =>
        simp only [flatOp]
        split_ifs <;> rfl
    | store p va b =>
        simp only [flatOp]
        split_ifs <;> simp [MemOp.proc]
    | sbrk p n eager =>
        simp only [flatOp, MemOp.proc] at hv hv' ⊢
        split_ifs at hv' ⊢
        · rfl
        · simp only [Function.update_self, FlatProc.resize] at hv' ⊢
          rw [if_pos ⟨hv, hv'⟩]
  · rw [flatOp_other full m hp]

/-- Page `v` of process `p` is below the size in every state of the run. -/
def StaysMapped (ops : List MemOp) (s : Kernel) (p : ProcId) (v : Nat) : Prop :=
  ∀ pre rs t, pre <+: ops → run memStep pre s = .ok (rs, t) → v < npages (t.procs p).sz

theorem run_perm : ∀ (ops : List MemOp) (s : Kernel) (rs : List (MemResult × Bool)) (s' : Kernel),
    Coherent s → Meets memStep Served ops s → StaysMapped ops s p v →
    run memStep ops s = .ok (rs, s') → (flatMem s' p).perm v = (flatMem s p).perm v := by
  intro ops
  induction ops with
  | nil =>
      intro s rs s' _ _ _ hrun
      cases hrun
      rfl
  | cons o ops ih =>
      intro s rs s' h ⟨hG, hrest⟩ hstay hrun
      obtain ⟨res, rs₁, s₁, rfl, h₁, hrun'⟩ := run_cons_inv hrun
      obtain ⟨r, full, s₂, h₂, hflat, hcoh⟩ := memStep_flat h hG.1 hG.2
      cases h₁.symm.trans h₂
      have hstay₁ : StaysMapped ops s₁ p v := fun pre rs t hpre ht =>
        hstay (o :: pre) _ t (List.cons_prefix_cons.mpr ⟨rfl, hpre⟩) (run_cons h₁ ht)
      rw [ih s₁ rs₁ s' hcoh (hrest _ s₁ h₁) hstay₁ hrun']
      have hnext : (flatOp full o (flatMem s)).2 = flatMem s₁ := by rw [hflat]
      rw [← hnext]
      refine flatOp_perm full (flatMem s) ?_ ?_
      · rw [flatMem_sz h]
        exact hstay [] _ s List.nil_prefix rfl
      · rw [hnext, flatMem_sz hcoh]
        exact hstay₁ [] _ s₁ List.nil_prefix rfl

/-- **Demand paging is transparent.**  A run of loads, stores and `sbrk`s by any processes does
not stop, and its results are those of a run on flat memory, which fails only where swap is full.
A page that stays below the size of its process keeps the permissions of its entry, wherever the
page has been in between. -/
theorem paging_transparent {ops : List MemOp} (h : Coherent s) (hm : Meets memStep Served ops s) :
    ∃ rs s', run memStep ops s = .ok (rs, s') ∧ Coherent s' ∧
      Trace (fun o m r m' => flatOp r.2 o m = (r.1, m')) ops (flatMem s) rs (flatMem s') ∧
      ∀ p v r r', StaysMapped ops s p v → (s.procs p).pagetable = some r →
        (s'.procs p).pagetable = some r' → s.pte r v ≠ 0 → s'.pte r' v ≠ 0 →
        (s'.pte r' v).perm = (s.pte r v).perm := by
  obtain ⟨rs, s', hrun, hcoh, htrace⟩ := run_flat h hm
  refine ⟨rs, s', hrun, hcoh, htrace, fun p v r r' hstay hr hr' hne hne' => ?_⟩
  have hv := hstay [] _ s List.nil_prefix rfl
  have hv' := hstay ops rs s' (List.prefix_refl ops) hrun
  rw [← flatMem_perm h hr hv hne, ← flatMem_perm hcoh hr' hv' hne']
  exact run_perm ops s rs s' h hm hstay hrun

/-- The first page is stored to, evicted by the growth of the process, and read again. -/
def evictedRun : List MemOp :=
  [.sbrk firstProc 4096 true, .store firstProc 7 42, .sbrk firstProc (32 * 4096) true,
    .load firstProc 7]

theorem paging_transparent_evicted :
    Coherent firstKernel ∧ Meets memStep Served evictedRun firstKernel ∧
      ∃ rs s', run memStep evictedRun firstKernel = .ok (rs, s') ∧ Coherent s' ∧
        Trace (fun o m r m' => flatOp r.2 o m = (r.1, m')) evictedRun (flatMem firstKernel) rs
          (flatMem s') :=
  have h : Coherent firstKernel := firstKernel_listed.coherent
  have hm : Meets memStep Served evictedRun firstKernel := by decide +kernel
  have ⟨rs, s', hrun, hcoh, htrace, _⟩ := paging_transparent h hm
  ⟨h, hm, rs, s', hrun, hcoh, htrace⟩

example : (run memStep evictedRun firstKernel).toOption.map Prod.fst =
    some [(.size (some 0), false), (.stored, false), (.size (some 4096), false), (.byte 42, false)] := by
  decide +kernel

end Xv6.Vm
