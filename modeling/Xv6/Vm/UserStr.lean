import Xv6.Vm.UserOnly

/-!
# Vm — User strings

`copyinstr`: the kernel reads a string argument of a system call.

It goes through the pages of the string as `copyin` does, but a page that `walkaddr` does not give
ends it: there is no `vmfault`.  So it finds the strings all of whose pages are in memory
(`StringHere`), and flat memory, which has no notion of a page in memory, does not tell its result.

* `copyinstrLoop_spec`: what it returns and delivers.
* `copyinstr_iff`: when that is what flat memory says, in one state and in two states with the same
  flat memory.
-/

namespace Xv6.Vm
open Xv6.Lib
open Xv6.Raid (Page zeroPage PGSIZE BLOCKS_PER_PAGE MAX_SWAP Healthy)

variable {own own' : Nat → Owner} {lim : Nat → Nat} {s s' : Kernel} {p q : ProcId}
  {r v pa va : Nat}

/-! ### Definitions -/

/-- The inner loop, over the bytes of one page: what goes to `dst`, and `got_null`. -/
def takeStr : List UInt8 → List UInt8 × Bool
  | [] => ([], false)
  | b :: rest =>
    if b = 0 then ([0], true)
    else (b :: (takeStr rest).1, (takeStr rest).2)

/-- The loop of `copyinstr`, with a bound on its turns; the result is whether it is 0, and the bytes
delivered to `dst`. -/
def copyinstrLoop (s : Kernel) (r : Nat) : Nat → Nat → Nat → Except String (Bool × List UInt8)
  | 0, _, _ => .error "copyinstr: no turn left"
  | n + 1, srcva, max =>
    if max = 0 then .ok (false, [])
    else do
      let va0 := pgRoundDown srcva
      let pa0 ← walkaddr s r va0
      if pa0 = 0 then return (false, [])
      else
        let k := min (PGSIZE - (srcva - va0)) max
        let (bytes, gotNull) := takeStr (loadBytes s pa0 (srcva - va0) k)
        if gotNull then return (true, bytes)
        else
          let (ok, rest) ← copyinstrLoop s r n (va0 + PGSIZE) (max - k)
          return (ok, bytes ++ rest)

def copyinstr (s : Kernel) (r srcva max : Nat) : Except String (Bool × List UInt8) :=
  copyinstrLoop s r (max + 1) srcva max

/-! ### Strings of flat memory -/

/-- The first NUL from `va` on is `k` bytes away. -/
def FirstNul (m : FlatProc) (va k : Nat) : Prop :=
  m.byte (va + k) = 0 ∧ ∀ i, i < k → m.byte (va + i) ≠ 0

theorem FirstNul.unique {m : FlatProc} {j k : Nat} (hj : FirstNul m va j) (hk : FirstNul m va k) :
    j = k := by
  rcases lt_trichotomy j k with hlt | heq | hgt
  · exact absurd hj.1 (hk.2 j hlt)
  · exact heq
  · exact absurd hk.1 (hj.2 k hgt)

/-- A NUL beyond the first `t` bytes, none of which is one. -/
theorem firstNul_add {m : FlatProc} {t j : Nat} (hno : ∀ i, i < t → m.byte (va + i) ≠ 0) :
    FirstNul m (va + t) j ↔ FirstNul m va (t + j) := by
  rw [FirstNul, FirstNul, Nat.add_assoc]
  refine and_congr_right fun _ => ⟨fun hbefore i hi => ?_, fun hbefore i hi => ?_⟩
  · by_cases hit : i < t
    · exact hno i hit
    · have hi' := hbefore (i - t) (by omega)
      rwa [Nat.add_assoc, Nat.add_sub_cancel' (not_lt.mp hit)] at hi'
  · rw [Nat.add_assoc]
    exact hbefore (t + i) (Nat.add_lt_add_left hi t)

theorem FlatProc.read_succ (m : FlatProc) (va n : Nat) :
    m.read va (n + 1) = m.byte va :: m.read (va + 1) n := by
  rw [Nat.add_comm, m.read_add]
  rfl

/-- The inner loop on bytes of flat memory. -/
theorem takeStr_read (m : FlatProc) : ∀ (n va : Nat), ∃ k got,
    takeStr (m.read va n) = (m.read va k, got) ∧
      (got = true → ∃ j, k = j + 1 ∧ j < n ∧ FirstNul m va j) ∧
      (got = false → k = n ∧ ∀ i, i < n → m.byte (va + i) ≠ 0) := by
  intro n
  induction n with
  | zero => exact fun va => ⟨0, false, rfl, fun hf => (by cases hf), fun _ => ⟨rfl, fun _ hi => by cases hi⟩⟩
  | succ n ih =>
      intro va
      rw [m.read_succ, takeStr]
      by_cases h0 : m.byte va = 0
      · refine ⟨1, true, ?_, fun _ => ⟨0, rfl, Nat.succ_pos n, h0, fun _ hi => by cases hi⟩,
          fun hf => (by cases hf)⟩
        rw [if_pos h0, m.read_succ, h0]
        rfl
      · obtain ⟨k, got, hrun, hyes, hno⟩ := ih (va + 1)
        have hone : ∀ i, i < 1 → m.byte (va + i) ≠ 0 := fun i hi => by
          rw [Nat.lt_one_iff.mp hi]
          exact h0
        refine ⟨k + 1, got, ?_, fun hg => ?_, fun hg => ?_⟩
        · rw [if_neg h0, hrun, m.read_succ]
        · obtain ⟨j, hk, hj, hnul⟩ := hyes hg
          exact ⟨1 + j, by omega, by omega, (firstNul_add hone).mp hnul⟩
        · obtain ⟨hk, hall⟩ := hno hg
          refine ⟨by omega, fun i hi => ?_⟩
          cases i with
          | zero => exact h0
          | succ i =>
              have hi' := hall i (Nat.lt_of_succ_lt_succ hi)
              rwa [Nat.add_assoc, Nat.add_comm 1] at hi'

/-! ### What `copyinstr` reads -/

/-- It has read the first `k` bytes at `va`, of at most `max`, all in pages in memory and for user
code.  The last is the first NUL (`ok`), or none of them is one and the next page is refused. -/
structure StringRead (s : Kernel) (p : ProcId) (r va max k : Nat) (ok : Bool) : Prop where
  le : k ≤ max
  pages : ∀ i, i < k → Accessible s r ((va + i) / PGSIZE)
  found : ok = true → ∃ j, k = j + 1 ∧ FirstNul (flatMem s p) va j
  missing : ok = false → (∀ i, i < k → (flatMem s p).byte (va + i) ≠ 0) ∧
    (k < max → ¬ Accessible s r ((va + k) / PGSIZE))

section Read

variable {max k : Nat} {ok : Bool}

/-- The first turn does not find the NUL. -/
theorem StringRead.turn (hacc : Accessible s r (va / PGSIZE))
    (hno : ∀ i, i < turnLen va max → (flatMem s p).byte (va + i) ≠ 0)
    (h : StringRead s p r (va / PGSIZE * PGSIZE + PGSIZE) (max - turnLen va max) k ok) :
    StringRead s p r va max (turnLen va max + k) ok := by
  have hle : turnLen va max ≤ max := Nat.min_le_right ..
  have hk := h.le
  have hnext : 0 < max - turnLen va max → va / PGSIZE * PGSIZE + PGSIZE = va + turnLen va max :=
    fun hpos => turnLen_next (Nat.lt_of_sub_pos hpos)
  refine ⟨by omega, fun i hi => ?_, fun hok => ?_, fun hok => ⟨fun i hi => ?_, fun hlt => ?_⟩⟩
  · by_cases hturn : i < turnLen va max
    · rwa [turnLen_page hturn]
    · have hi' := h.pages (i - turnLen va max) (by omega)
      rwa [hnext (by omega), Nat.add_assoc, Nat.add_sub_cancel' (not_lt.mp hturn)] at hi'
  · obtain ⟨j, hj, hnul⟩ := h.found hok
    rw [hnext (by omega)] at hnul
    exact ⟨turnLen va max + j, by omega, (firstNul_add hno).mp hnul⟩
  · by_cases hturn : i < turnLen va max
    · exact hno i hturn
    · have hi' := (h.missing hok).1 (i - turnLen va max) (by omega)
      rwa [hnext (by omega), Nat.add_assoc, Nat.add_sub_cancel' (not_lt.mp hturn)] at hi'
  · have hlast := (h.missing hok).2 (by omega)
    rwa [hnext (by omega), Nat.add_assoc] at hlast

theorem copyinstrLoop_spec (h : Settled own lim s) (hr : own r = .root p) :
    ∀ (n srcva max : Nat), max < n →
    ∃ ok k, copyinstrLoop s r n srcva max = .ok (ok, (flatMem s p).read srcva k) ∧
      StringRead s p r srcva max k ok := by
  intro n
  induction n with
  | zero => exact fun _ _ hlt => absurd hlt (Nat.not_lt_zero _)
  | succ n ih =>
      intro srcva max hlt
      rw [copyinstrLoop]
      by_cases hmax : max = 0
      · subst hmax
        exact ⟨false, 0, rfl, le_rfl, fun _ hi => absurd hi (Nat.not_lt_zero _),
          fun hf => (by cases hf), fun _ => ⟨fun _ hi => absurd hi (Nat.not_lt_zero _),
            fun hlt => absurd hlt (Nat.lt_irrefl 0)⟩⟩
      · have hpos : 0 < max := Nat.pos_of_ne_zero hmax
        have hpage : pgRoundDown srcva / PGSIZE = srcva / PGSIZE := page_div _
        simp only [if_neg hmax]
        by_cases hacc : Accessible s r (srcva / PGSIZE)
        · have hacc₀ : Accessible s r (pgRoundDown srcva / PGSIZE) := hpage.symm ▸ hacc
          obtain ⟨pa, hwalk, hpa, hv, hres⟩ := walkaddr_accessible h hr hacc₀
          rw [hpage] at hv hres
          have hlen : min (PGSIZE - srcva % PGSIZE) max = turnLen srcva max := rfl
          obtain ⟨k, got, htake, hyes, hno⟩ := takeStr_read (flatMem s p) (turnLen srcva max) srcva
          simp only [hwalk, ok_bind, if_neg hpa, sub_pgRoundDown, hlen,
            loadBytes_flat h hr hv hres max, htake]
          cases got with
          | true =>
              obtain ⟨j, rfl, hj, hnul⟩ := hyes rfl
              have hle : turnLen srcva max ≤ max := Nat.min_le_right ..
              refine ⟨true, j + 1, rfl, by omega, fun i hi => ?_, fun _ => ⟨j, rfl, hnul⟩,
                fun hf => (by cases hf)⟩
              rwa [turnLen_page (by omega : i < turnLen srcva max)]
          | false =>
              obtain ⟨rfl, hall⟩ := hno rfl
              have hturn : 0 < turnLen srcva max := turnLen_pos hpos
              obtain ⟨ok, k, hrun, hread⟩ := ih (srcva / PGSIZE * PGSIZE + PGSIZE)
                (max - turnLen srcva max) (by omega)
              have hrun : copyinstrLoop s r n (pgRoundDown srcva + PGSIZE)
                  (max - turnLen srcva max) = .ok (ok, _) := hrun
              refine ⟨ok, turnLen srcva max + k, ?_, hread.turn hacc hall⟩
              simp only [hrun, ok_bind, Bool.false_eq_true, if_false, FlatProc.read_turn _ hread.le]
              rfl
        · have hacc₀ : ¬ Accessible s r (pgRoundDown srcva / PGSIZE) := hpage.symm ▸ hacc
          refine ⟨false, 0, ?_, Nat.zero_le _, fun _ hi => absurd hi (Nat.not_lt_zero _),
            fun hf => (by cases hf), fun _ => ⟨fun _ hi => absurd hi (Nat.not_lt_zero _), fun _ => hacc⟩⟩
          simp only [walkaddr_refused h hr hacc₀, ok_bind, if_true]
          rfl

/-- The bytes that are read are those that can be reached before the first NUL. -/
theorem StringRead.lt_iff (h : StringRead s p r va max k ok) {i : Nat} (hi : i < max)
    (hno : ∀ j, j < i → (flatMem s p).byte (va + j) ≠ 0) :
    i < k ↔ ∀ j, j ≤ i → Accessible s r ((va + j) / PGSIZE) := by
  refine ⟨fun hlt j hj => h.pages j (hj.trans_lt hlt), fun hacc => ?_⟩
  by_contra hge
  have hki : k ≤ i := not_lt.mp hge
  cases ok with
  | true =>
      obtain ⟨j, rfl, hnul⟩ := h.found rfl
      exact hno j hki hnul.1
  | false => exact (h.missing rfl).2 (hki.trans_lt hi) (hacc k hki)

/-- None of the bytes that are read is a NUL, but the last. -/
theorem StringRead.no_nul (h : StringRead s p r va max k ok) {i : Nat} (hi : i + 1 < k) :
    (flatMem s p).byte (va + i) ≠ 0 := by
  cases ok with
  | true =>
      obtain ⟨j, rfl, hnul⟩ := h.found rfl
      exact hnul.2 i (Nat.lt_of_succ_lt_succ hi)
  | false => exact (h.missing rfl).1 i (Nat.lt_of_succ_lt hi)

theorem StringRead.ok_iff (h : StringRead s p r va max k ok) :
    ok = true ↔ ∃ j, k = j + 1 ∧ (flatMem s p).byte (va + j) = 0 := by
  refine ⟨fun hok => ?_, ?_⟩
  · obtain ⟨j, hj, hnul⟩ := h.found hok
    exact ⟨j, hj, hnul.1⟩
  · rintro ⟨j, rfl, h0⟩
    by_contra hok
    exact (h.missing (Bool.not_eq_true _ ▸ hok)).1 j (Nat.lt_succ_self j) h0

/-- A string of `j` bytes, shorter than `max`, whose pages are all in memory and for user code. -/
def StringHere (s : Kernel) (p : ProcId) (r va max j : Nat) : Prop :=
  j < max ∧ FirstNul (flatMem s p) va j ∧ ∀ i, i ≤ j → Accessible s r ((va + i) / PGSIZE)

/-- Those are the strings that are found. -/
theorem StringRead.here_iff (h : StringRead s p r va max k ok) {j : Nat} :
    StringHere s p r va max j ↔ ok = true ∧ k = j + 1 := by
  constructor
  · rintro ⟨hj, hnul, hacc⟩
    have hlt : j < k := (h.lt_iff hj hnul.2).mpr hacc
    have hk : k = j + 1 := by
      by_contra hne
      exact h.no_nul (show j + 1 < k by omega) hnul.1
    exact ⟨h.ok_iff.mpr ⟨j, hk, hnul.1⟩, hk⟩
  · rintro ⟨hok, hk⟩
    obtain ⟨j', hk', hnul⟩ := h.found hok
    cases hk.symm.trans hk'
    have hle := h.le
    exact ⟨by omega, hnul, fun i hi => h.pages i (by omega)⟩

/-- Two reads of one flat memory that can reach the same bytes read the same. -/
theorem StringRead.same_iff {r' k' : Nat} {ok' : Bool} (h : StringRead s p r va max k ok)
    (h' : StringRead s' p r' va max k' ok') (hflat : flatMem s' p = flatMem s p) :
    (ok = ok' ∧ k = k') ↔ ∀ i, i < max → (∀ j, j < i → (flatMem s p).byte (va + j) ≠ 0) →
      ((∀ j, j ≤ i → Accessible s r ((va + j) / PGSIZE)) ↔
        ∀ j, j ≤ i → Accessible s' r' ((va + j) / PGSIZE)) := by
  constructor
  · rintro ⟨rfl, rfl⟩ i hi hno
    rw [← h.lt_iff hi hno, ← h'.lt_iff hi (hflat.symm ▸ hno)]
  · intro hcond
    have hreach : ∀ i, i < max → (∀ j, j < i → (flatMem s p).byte (va + j) ≠ 0) →
        (i < k ↔ i < k') := fun i hi hno => by
      rw [h.lt_iff hi hno, h'.lt_iff hi (hflat.symm ▸ hno), hcond i hi hno]
    have hk : k = k' := by
      rcases lt_trichotomy k k' with hlt | heq | hgt
      · refine absurd ((hreach k (hlt.trans_le h'.le) fun j hj => ?_).mpr hlt) (Nat.lt_irrefl k)
        exact hflat ▸ h'.no_nul (show j + 1 < k' by omega)
      · exact heq
      · refine absurd ((hreach k' (hgt.trans_le h.le) fun j hj => ?_).mp hgt) (Nat.lt_irrefl k')
        exact h.no_nul (show j + 1 < k by omega)
    refine ⟨?_, hk⟩
    subst hk
    have hok : ok = true ↔ ok' = true := by rw [h.ok_iff, h'.ok_iff, hflat]
    rwa [← Bool.eq_iff_iff] at hok

end Read

/-! ### Strings of flat memory -/

/-- Flat memory holds a string of `k` bytes at `va`, shorter than `max`, all of it below the
size. -/
def StringIn (m : FlatProc) (va max k : Nat) : Prop := k < max ∧ va + k < m.sz ∧ FirstNul m va k

/-- `copyinstr` succeeds just when flat memory holds a string, and delivers it. -/
def StringExact (s : Kernel) (p : ProcId) (r va max : Nat) : Prop :=
  ∃ ok bytes, copyinstr s r va max = .ok (ok, bytes) ∧
    (ok = true ↔ ∃ k, StringIn (flatMem s p) va max k) ∧
    ∀ k, StringIn (flatMem s p) va max k → bytes = (flatMem s p).read va (k + 1)

theorem StringRead.exact_iff {max k : Nat} {ok : Bool} (h : StringRead s p r va max k ok)
    (hsz : (flatMem s p).sz = (s.procs p).sz) :
    ((ok = true ↔ ∃ j, StringIn (flatMem s p) va max j) ∧ ∀ j, StringIn (flatMem s p) va max j →
        (flatMem s p).read va k = (flatMem s p).read va (j + 1)) ↔
      (∀ j, StringIn (flatMem s p) va max j → ∀ i, i ≤ j → Accessible s r ((va + i) / PGSIZE)) ∧
        ∀ j, StringHere s p r va max j → va + j < (s.procs p).sz := by
  constructor
  · rintro ⟨hiff, -⟩
    constructor
    · intro j hj
      have hok := hiff.mpr ⟨j, hj⟩
      obtain ⟨j', hk, hnul⟩ := h.found hok
      cases hnul.unique hj.2.2
      exact (h.here_iff.mpr ⟨hok, hk⟩).2.2
    · intro j hj
      obtain ⟨j', hin⟩ := hiff.mp (h.here_iff.mp hj).1
      cases hj.2.1.unique hin.2.2
      exact hsz ▸ hin.2.1
  · rintro ⟨hall, hbelow⟩
    have hhere : ∀ j, StringIn (flatMem s p) va max j → ok = true ∧ k = j + 1 :=
      fun j hj => h.here_iff.mp ⟨hj.1, hj.2.2, hall j hj⟩
    refine ⟨⟨fun hok => ?_, ?_⟩, fun j hj => by rw [(hhere j hj).2]⟩
    · obtain ⟨j, hk, hnul⟩ := h.found hok
      have hj := h.here_iff.mpr ⟨hok, hk⟩
      exact ⟨j, hj.1, hsz.symm ▸ hbelow j hj, hnul⟩
    · rintro ⟨j, hj⟩
      exact (hhere j hj).1

/-- **Strings of flat memory are read** just when their pages are all in memory and for user code,
and there is no NUL beyond the size at which `copyinstr` stops.  **In two states with the same flat
memory** it returns and delivers the same just when it can reach the same bytes. -/
theorem copyinstr_iff {r' : Nat} (h : Coherent s) (hr : (s.procs p).pagetable = some r)
    (h' : Coherent s') (hr' : (s'.procs p).pagetable = some r')
    (hflat : flatMem s' p = flatMem s p) (srcva max : Nat) :
    (StringExact s p r srcva max ↔
      (∀ k, StringIn (flatMem s p) srcva max k → ∀ i, i ≤ k → Accessible s r ((srcva + i) / PGSIZE)) ∧
      ∀ k, StringHere s p r srcva max k → srcva + k < (s.procs p).sz) ∧
    (copyinstr s r srcva max = copyinstr s' r' srcva max ↔
      ∀ i, i < max → (∀ j, j < i → (flatMem s p).byte (srcva + j) ≠ 0) →
        ((∀ j, j ≤ i → Accessible s r ((srcva + j) / PGSIZE)) ↔
          ∀ j, j ≤ i → Accessible s' r' ((srcva + j) / PGSIZE))) := by
  obtain ⟨own, lim, h⟩ := h
  obtain ⟨own', lim', h'⟩ := h'
  have hroot := h.wf.pages.own_root hr
  obtain ⟨ok, k, hrun, hread⟩ := copyinstrLoop_spec h hroot (max + 1) srcva max (Nat.lt_succ_self _)
  obtain ⟨ok', k', hrun', hread'⟩ := copyinstrLoop_spec h' (h'.wf.pages.own_root hr') (max + 1) srcva
    max (Nat.lt_succ_self _)
  have hsz := flatMem_sz ⟨own, lim, h⟩ p
  constructor
  · have hexact : StringExact s p r srcva max ↔ (ok = true ↔ ∃ k, StringIn (flatMem s p) srcva max k) ∧
        ∀ j, StringIn (flatMem s p) srcva max j →
          (flatMem s p).read srcva k = (flatMem s p).read srcva (j + 1) := by
      refine ⟨?_, fun hx => ⟨ok, _, hrun, hx⟩⟩
      rintro ⟨ok₁, bytes₁, hrun₁, hx⟩
      cases hrun.symm.trans hrun₁
      exact hx
    rw [hexact]
    exact hread.exact_iff hsz
  · rw [copyinstr, copyinstr, hrun, hrun', hflat, ← hread.same_iff hread' hflat]
    constructor
    · intro heq
      obtain ⟨hok, hbytes⟩ := Prod.mk.inj (Except.ok.inj heq)
      have hlen := congrArg List.length hbytes
      rw [FlatProc.length_read, FlatProc.length_read] at hlen
      exact ⟨hok, hlen⟩
    · rintro ⟨rfl, rfl⟩
      rfl

/-! ### A string in pages that are not there yet -/

theorem stackKernel_coherent : Coherent stackKernel :=
  coherent_after_run firstKernel_listed.coherent (by decide +kernel) firstKernel

theorem stackTable_eq : (stackKernel.procs firstProc).pagetable = some lazyTable := by
  decide +kernel

/-- The operation, as a program that does not ask for its memory at once makes it. -/
def MemOp.asLazy : MemOp → MemOp
  | .sbrk p n _ => .sbrk p n false
  | o => o

/-- Flat memory does not see when the memory is asked for. -/
theorem flatOp_asLazy (full : Bool) (o : MemOp) (m : FlatMem) : flatOp full o.asLazy m = flatOp full o m := by
  cases o with
  | load p va => rfl
  | store p va b => rfl
  | sbrk p n eager => rfl

theorem trace_asLazy {ops ops' : List MemOp} {rs : List (MemResult × Bool)} {m m₁ m₂ : FlatMem}
    (h : Trace (fun o m r m' => flatOp r.2 o m = (r.1, m')) ops m rs m₁)
    (h' : Trace (fun o m r m' => flatOp r.2 o m = (r.1, m')) ops' m rs m₂)
    (hops : ops.map MemOp.asLazy = ops'.map MemOp.asLazy) : m₁ = m₂ := by
  induction h generalizing ops' with
  | nil m => cases h' with | nil => rfl
  | cons hstep _ ih =>
      cases h' with
      | cons hstep' htrace' =>
          rw [List.map_cons, List.map_cons, List.cons.injEq] at hops
          rw [← flatOp_asLazy, hops.1, flatOp_asLazy, hstep'] at hstep
          cases hstep
          exact ih htrace' hops.2

/-- Whether the pages are there does not matter to flat memory. -/
theorem flatMem_asLazy {ops ops' : List MemOp} (hm : Meets memStep Served ops firstKernel)
    (hm' : Meets memStep Served ops' firstKernel) (hops : ops.map MemOp.asLazy = ops'.map MemOp.asLazy)
    (hres : (run memStep ops firstKernel).toOption.map Prod.fst =
      (run memStep ops' firstKernel).toOption.map Prod.fst) :
    flatMem (stateAfter (run memStep ops firstKernel) firstKernel) =
      flatMem (stateAfter (run memStep ops' firstKernel) firstKernel) := by
  obtain ⟨rs, s, hrun, -, htrace⟩ := run_flat firstKernel_listed.coherent hm
  obtain ⟨rs', s', hrun', -, htrace'⟩ := run_flat firstKernel_listed.coherent hm'
  rw [hrun, hrun'] at hres
  cases hres
  rw [hrun, hrun']
  exact trace_asLazy htrace htrace' hops

theorem lazy_flat : flatMem lazyKernel = flatMem stackKernel :=
  flatMem_asLazy (by decide +kernel) (by decide +kernel) rfl (by decide +kernel)

/-- A letter at the end of the first page, and a NUL at the start of the second. -/
def letterOps (eager : Bool) : List MemOp := [.sbrk firstProc 8192 eager, .store firstProc 4095 97]

def letterKernel (eager : Bool) : Kernel := stateAfter (run memStep (letterOps eager) firstKernel) firstKernel

theorem letterOps_served (eager : Bool) : Meets memStep Served (letterOps eager) firstKernel := by
  cases eager with
  | false => decide +kernel
  | true => decide +kernel

theorem letterKernel_coherent (eager : Bool) : Coherent (letterKernel eager) :=
  coherent_after_run firstKernel_listed.coherent (letterOps_served eager) firstKernel

theorem letterTable_eq (eager : Bool) : ((letterKernel eager).procs firstProc).pagetable = some lazyTable := by
  cases eager with
  | false => decide +kernel
  | true => decide +kernel

theorem letter_flat : flatMem (letterKernel false) = flatMem (letterKernel true) :=
  flatMem_asLazy (letterOps_served false) (letterOps_served true) rfl (by decide +kernel)

/-- With both pages in memory, the string on their border is found; not so when the second is not there yet,
and the two kernels do not agree. -/
theorem copyinstr_border : Coherent (letterKernel true) ∧ Coherent (letterKernel false) ∧
    ((letterKernel true).procs firstProc).pagetable = some lazyTable ∧
    ((letterKernel false).procs firstProc).pagetable = some lazyTable ∧
    flatMem (letterKernel false) firstProc = flatMem (letterKernel true) firstProc ∧
    StringIn (flatMem (letterKernel true) firstProc) 4095 8 1 ∧
    StringExact (letterKernel true) firstProc lazyTable 4095 8 ∧
    copyinstr (letterKernel true) lazyTable 4095 8 ≠ copyinstr (letterKernel false) lazyTable 4095 8 := by
  have hsz : ((letterKernel true).procs firstProc).sz = 8192 := by decide +kernel
  have hfirst : Accessible (letterKernel true) lazyTable 0 := ⟨by decide, by decide +kernel, by decide +kernel⟩
  have hsecond : Accessible (letterKernel true) lazyTable 1 := ⟨by decide, by decide +kernel, by decide +kernel⟩
  have hlazy : ¬ Accessible (letterKernel false) lazyTable 1 := by
    rintro ⟨-, hvalid, -⟩
    exact absurd hvalid (by decide +kernel)
  have hletter : (flatMem (letterKernel true) firstProc).byte 4095 ≠ 0 := by decide +kernel
  have hnul : (flatMem (letterKernel true) firstProc).byte 4096 = 0 := by decide +kernel
  have hthere : ∀ i, i ≤ 1 → Accessible (letterKernel true) lazyTable ((4095 + i) / PGSIZE) := by
    intro i hi
    rcases Nat.le_one_iff_eq_zero_or_eq_one.mp hi with rfl | rfl
    · exact hfirst
    · exact hsecond
  have hiff := copyinstr_iff (letterKernel_coherent true) (letterTable_eq true) (letterKernel_coherent false)
    (letterTable_eq false) (congrFun letter_flat firstProc) 4095 8
  have hstring : StringIn (flatMem (letterKernel true) firstProc) 4095 8 1 := by
    refine ⟨by decide, ?_, hnul, fun i hi => ?_⟩
    · rw [flatMem_sz (letterKernel_coherent true), hsz]
      decide
    · rwa [Nat.lt_one_iff.mp hi]
  refine ⟨letterKernel_coherent true, letterKernel_coherent false, letterTable_eq true, letterTable_eq false,
    congrFun letter_flat firstProc, hstring, hiff.1.mpr ⟨fun k hk i hi => ?_, fun k hk => ?_⟩, fun heq => ?_⟩
  · exact hthere i (hi.trans_eq (hk.2.2.unique hstring.2.2))
  · have := hk.1
    omega
  · -- the two states differ in the second page
    have hsame := hiff.2.mp heq 1 (by decide) fun j hj => by rwa [Nat.lt_one_iff.mp hj]
    exact hlazy (hsame.mp hthere 1 le_rfl)

/-- **The same string, in a page that is not there yet**, is not found. -/
theorem copyinstr_lazy_page : Coherent lazyKernel ∧ Coherent stackKernel ∧
    (lazyKernel.procs firstProc).pagetable = some lazyTable ∧
    (stackKernel.procs firstProc).pagetable = some lazyTable ∧
    flatMem lazyKernel firstProc = flatMem stackKernel firstProc ∧
    copyinstr stackKernel lazyTable 0 1 = .ok (true, [0]) ∧
    copyinstr lazyKernel lazyTable 0 1 = .ok (false, []) ∧
    StringIn (flatMem lazyKernel firstProc) 0 1 0 := by
  refine ⟨lazyKernel_coherent, stackKernel_coherent, lazyTable_eq, stackTable_eq,
    congrFun lazy_flat firstProc, eq_ok_of_toOption (by decide +kernel),
    eq_ok_of_toOption (by decide +kernel), Nat.zero_lt_one, by decide +kernel, by decide +kernel,
    fun i hi => absurd hi (Nat.not_lt_zero i)⟩

end Xv6.Vm
