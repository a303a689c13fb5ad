import Xv6.Vm.Lifecycle

/-!
# Vm — User copies

`copyin` and `copyout`: the kernel reads and writes the memory of the process that called it.

Both go through the range page by page.  A page that `walkaddr` does not give is left to
`vmfault`, which may evict any other page, the one copied a turn earlier among them; flat memory
does not see that (`fetchPage_spec`).  So one turn moves the bytes of one page between the kernel
and flat memory, and a call moves the bytes of the range up to the first page that is refused
(`Moved`).

The addresses are `uint64`s in the source.  A turn at an address of `MAXVA` or above refuses its
page, so that `va0 + PGSIZE` does not overflow.
-/

namespace Xv6.Vm
open Xv6.Lib
open Xv6.Raid (Page zeroPage PGSIZE BLOCKS_PER_PAGE MAX_SWAP Healthy)

variable {own own' : Nat → Owner} {lim : Nat → Nat} {s s' : Kernel} {p q : ProcId}
  {r v pa va : Nat}

/-! ### Definitions -/

/-- The page for a turn of `copyin` or `copyout`; 0 when it is refused. -/
def fetchPage (s : Kernel) (p : ProcId) (r va0 : Nat) : Except String (Nat × Kernel) := do
  let pa0 ← walkaddr s r va0
  if pa0 = 0 then vmfault s p r va0 else pure (pa0, s)

/-- The `n` bytes of page `pa` from offset `off` on. -/
def loadBytes (s : Kernel) (pa off n : Nat) : List UInt8 :=
  (List.range n).map fun i => s.mem pa (pageOff (off + i))

/-- The loop of `copyin` by process `p`, with a bound on its turns; the result is whether it is 0,
and the bytes delivered to `dst`. -/
def copyinLoop (p : ProcId) (r : Nat) :
    Nat → Kernel → Nat → Nat → Except String ((Bool × List UInt8) × Kernel)
  | 0, _, _, _ => .error "copyin: no turn left"
  | n + 1, s, srcva, len =>
    if len = 0 then .ok ((true, []), s)
    else do
      let va0 := pgRoundDown srcva
      let (pa0, s) ← fetchPage s p r va0
      if pa0 = 0 then return ((false, []), s)
      else
        let k := min (PGSIZE - (srcva - va0)) len
        let bytes := loadBytes s pa0 (srcva - va0) k
        let ((ok, rest), s) ← copyinLoop p r n s (va0 + PGSIZE) (len - k)
        return ((ok, bytes ++ rest), s)

def copyin (s : Kernel) (p : ProcId) (r srcva len : Nat) :
    Except String ((Bool × List UInt8) × Kernel) :=
  copyinLoop p r (len + 1) s srcva len

/-- The loop of `copyout`, with the number of bytes that it has stored. -/
def copyoutRun (p : ProcId) (r : Nat) :
    Nat → Kernel → Nat → List UInt8 → Except String ((Bool × Nat) × Kernel)
  | 0, s, _, _ => .ok ((true, 0), s)
  | n + 1, s, dstva, src =>
    if src = [] then .ok ((true, 0), s)
    else if pgRoundDown dstva ≥ MAXVA then .ok ((false, 0), s)
    else do
      let va0 := pgRoundDown dstva
      let (pa0, s) ← fetchPage s p r va0
      if pa0 = 0 then return ((false, 0), s)
      else
        match ← walk s r va0 with
        | none => .error "copyout"
        | some e =>
          if !e.has PTE_W then return ((false, 0), s)
          else
            let len := PGSIZE - (dstva - va0)
            let ((ok, k), s) ← copyoutRun p r n (storeBytes s pa0 (dstva - va0) (src.take len))
              (va0 + PGSIZE) (src.drop len)
            return ((ok, (src.take len).length + k), s)

theorem fetchPage_bind {β : Type} (f : Nat × Kernel → Except String β) (va0 : Nat) :
    (walkaddr s r va0 >>= fun pa0 =>
      if pa0 = 0 then vmfault s p r va0 >>= f else pure (pa0, s) >>= f) =
      fetchPage s p r va0 >>= f := by
  unfold fetchPage
  cases walkaddr s r va0 with
  | error e => rfl
  | ok pa0 =>
      simp only [ok_bind]
      split
      · rfl
      · rfl

/-- The count of the bytes is all that `copyoutRun` adds to `copyout`. -/
theorem copyoutLoop_eq : ∀ (n : Nat) (s : Kernel) (dstva : Nat) (src : List UInt8),
    copyoutLoop p r n s dstva src = (copyoutRun p r n s dstva src).map fun x => (x.1.1, x.2) := by
  intro n
  induction n with
  | zero => exact fun _ _ _ => rfl
  | succ n ih =>
      intro s dstva src
      rw [copyoutLoop, copyoutRun]
      by_cases hsrc : src = []
      · rw [if_pos hsrc, if_pos hsrc]
        rfl
      · rw [if_neg hsrc, if_neg hsrc]
        by_cases hmax : pgRoundDown dstva ≥ MAXVA
        · simp only [if_pos hmax]
          rfl
        · simp only [if_neg hmax]
          refine (fetchPage_bind _ _).trans ?_
          cases fetchPage s p r (pgRoundDown dstva) with
          | error e => rfl
          | ok x =>
              simp only [ok_bind]
              split
              · rfl
              · cases walk x.2 r (pgRoundDown dstva) with
                | error e => rfl
                | ok e =>
                    cases e with
                    | none => rfl
                    | some e =>
                        simp only [ok_bind]
                        split
                        · rfl
                        · rw [ih]
                          cases copyoutRun p r n _ _ _ with
                          | error e => rfl
                          | ok y => rfl

/-! ### Fetching a page -/

theorem page_lt_npages {n : Nat} : v * PGSIZE < n ↔ v < npages n := by
  simp only [npages, PGSIZE]
  omega

/-- User code may use page `v` as it is. -/
def Accessible (s : Kernel) (r v : Nat) : Prop :=
  v < UPAGES ∧ (s.pte r v).has PTE_V = true ∧ (s.pte r v).has PTE_U = true

theorem Resident.pa_ne_zero (h : Wf own lim s) (hr : IsTable own r) (hv : v < UPAGES)
    (hres : Resident (s.pte r v) pa) : pa ≠ 0 := by
  rintro rfl
  have hown := h.pages.own_user hr hv hres
  have hkend := (h.pages.range 0 (by simp [hown])).2.1
  have := h.kend_pos
  omega

section Fetch

variable (h : Settled own lim s) (hr : own r = .root p)

include h hr

theorem walkaddr_accessible (hacc : Accessible s r (va / PGSIZE)) :
    ∃ pa, walkaddr s r va = .ok pa ∧ pa ≠ 0 ∧ va / PGSIZE < npages (s.procs p).sz ∧
      Resident (s.pte r (va / PGSIZE)) pa := by
  obtain ⟨hv, hvalid, huser⟩ := hacc
  have htab : IsTable own r := ⟨p, Or.inl hr⟩
  have hres := (h.wf.pages.table r htab).resident_of hv hvalid
  have hwalk := walk_resident h.wf.pages htab rfl hres hv
  have hmax : ¬ va ≥ MAXVA := by
    simp only [UPAGES, TRAPFRAME, TRAMPOLINE, MAXVA, PGSIZE] at *
    omega
  refine ⟨_, ?_, Resident.pa_ne_zero h.wf htab hv hres, ?_, hres⟩
  · have hvalid : (s.pte r (va / PGSIZE)).has PTE_V = true := hvalid
    simp only [walkaddr, if_neg hmax, hwalk, ok_bind, hvalid, huser]
    rfl
  · rw [← h.sized p r hr]
    by_contra hge
    exact hres.not_zero ((h.wf.pages.table r htab).above _ (not_lt.mp hge) hv)

theorem walkaddr_refused (hacc : ¬ Accessible s r (va / PGSIZE)) : walkaddr s r va = .ok 0 := by
  have htab := h.wf.pages.table r ⟨p, Or.inl hr⟩
  by_cases hmax : va ≥ MAXVA
  · simp only [walkaddr, if_pos hmax]
  · rcases walk_eq htab (not_le.mp hmax) with hw | ⟨hw, -⟩
    · cases hvalid : (s.pte r (va / PGSIZE)).has PTE_V with
      | false =>
          simp only [walkaddr, if_neg hmax, hw, ok_bind, hvalid]
          rfl
      | true =>
          have huser : (s.pte r (va / PGSIZE)).has PTE_U = false := by
            by_cases hv : va / PGSIZE < UPAGES
            · rw [← Bool.not_eq_true]
              exact fun huser => hacc ⟨hv, hvalid, huser⟩
            · rcases htab.top _ (not_lt.mp hv) with h0 | ⟨pa, -, huser⟩
              · rw [Kernel.pte, h0]
                decide
              · exact huser
          simp only [walkaddr, if_neg hmax, hw, ok_bind, hvalid, huser]
          rfl
    · simp only [walkaddr, if_neg hmax, hw, ok_bind]
      rfl

/-- **Fetching a page** leaves flat memory alone.  A page that is given is a page of the process,
and it is in memory; one that is refused lies beyond the size, or could not be paged in. -/
theorem fetchPage_spec : ∃ res s' own', fetchPage s p r (v * PGSIZE) = .ok (res, s') ∧
    Settled own' lim s' ∧ Keeps noPage own own' s s' ∧
    (res ≠ 0 → v < npages (s.procs p).sz ∧ Resident (s'.pte r v) res) ∧
    (res = 0 → npages (s.procs p).sz ≤ v ∨ s.nullAllocs < s'.nullAllocs ∨
      s.swapFulls < s'.swapFulls) := by
  by_cases hacc : Accessible s r (v * PGSIZE / PGSIZE)
  · obtain ⟨pa, hwalk, hpa, hv, hres⟩ := walkaddr_accessible h hr hacc
    rw [page_div] at hv hres
    refine ⟨pa, s, own, ?_, h, Keeps.refl own s, fun _ => ⟨hv, hres⟩, fun h0 => absurd h0 hpa⟩
    simp only [fetchPage, hwalk, ok_bind, if_neg hpa]
    rfl
  · have hfetch : fetchPage s p r (v * PGSIZE) = vmfault s p r (v * PGSIZE) := by
      simp only [fetchPage, walkaddr_refused h hr hacc, ok_bind, if_true]
    rw [hfetch]
    by_cases hv : v < npages (s.procs p).sz
    · obtain ⟨res, s₁, own₁, hrun, hset, hf⟩ := vmfault_spec h hr
        (show v * PGSIZE / PGSIZE * PGSIZE < _ by rw [page_div]; exact page_lt_npages.mpr hv)
      rw [page_div] at hf
      exact ⟨res, s₁, own₁, hrun, hset, hf.keeps, fun hne => ⟨hv, (hf.served hne).1⟩,
        fun h0 => Or.inr (hf.failed h0)⟩
    · refine ⟨0, s, own, vmfault_above s p r ?_, h, Keeps.refl own s, fun hne => absurd rfl hne,
        fun _ => Or.inl (not_lt.mp hv)⟩
      rw [page_div]
      exact not_lt.mp fun hlt => hv (page_lt_npages.mp hlt)

end Fetch

/-! ### How far a call gets -/

/-- A page could not be had in between. -/
def Denied (s s' : Kernel) : Prop := s.nullAllocs < s'.nullAllocs ∨ s.swapFulls < s'.swapFulls

theorem Denied.after {s₁ : Kernel} (hn : s.nullAllocs ≤ s₁.nullAllocs)
    (hf : s.swapFulls ≤ s₁.swapFulls) (h : Denied s₁ s') : Denied s s' :=
  h.imp hn.trans_lt hf.trans_lt

/-- A call for the `len` bytes at `va` has moved the first `k` of them, all in pages of the process
that satisfy `W`; `ok` is the result 0.  When it is not, the next byte is in a page beyond the
size, or in one that does not satisfy `W`, or could not be paged in. -/
structure Moved (m : FlatProc) (W : Pte → Bool) (denied : Prop) (va len k : Nat) (ok : Bool) :
    Prop where
  le : k ≤ len
  done : ok = true → k = len
  pages : ∀ i, i < k → (va + i) / PGSIZE < npages m.sz ∧ W (m.perm ((va + i) / PGSIZE)) = true
  stop : ok = false → k < len ∧ (npages m.sz ≤ (va + k) / PGSIZE ∨
    W (m.perm ((va + k) / PGSIZE)) = false ∨ denied)

section Moved

variable {m : FlatProc} {W : Pte → Bool} {denied denied' : Prop} {len k : Nat} {ok : Bool}

theorem moved_nothing : Moved m W denied va 0 0 true :=
  ⟨le_rfl, fun _ => rfl, fun _ hi => absurd hi (Nat.not_lt_zero _), fun hf => by cases hf⟩

theorem moved_refused (hlen : 0 < len) (h : npages m.sz ≤ va / PGSIZE ∨
    W (m.perm (va / PGSIZE)) = false ∨ denied) : Moved m W denied va len 0 false :=
  ⟨Nat.zero_le _, fun hf => (by cases hf), fun _ hi => absurd hi (Nat.not_lt_zero _),
    fun _ => ⟨hlen, h⟩⟩

/-- The bytes of one turn. -/
def turnLen (va len : Nat) : Nat := min (PGSIZE - va % PGSIZE) len

theorem turnLen_pos (hlen : 0 < len) : 0 < turnLen va len := by
  have := mod_PGSIZE_lt va
  simp only [turnLen]
  omega

theorem turnLen_page {i : Nat} (hi : i < turnLen va len) : (va + i) / PGSIZE = va / PGSIZE := by
  simp only [turnLen, PGSIZE] at *
  omega

/-- The next turn starts at the next byte. -/
theorem turnLen_next (hlt : turnLen va len < len) :
    va / PGSIZE * PGSIZE + PGSIZE = va + turnLen va len := by
  simp only [turnLen, PGSIZE] at *
  omega

/-- One turn, and the rest of the call. -/
theorem Moved.turn (hpage : va / PGSIZE < npages m.sz) (hW : W (m.perm (va / PGSIZE)) = true)
    (hdenied : denied → denied')
    (h : Moved m W denied (va / PGSIZE * PGSIZE + PGSIZE) (len - turnLen va len) k ok) :
    Moved m W denied' va len (turnLen va len + k) ok := by
  have hle : turnLen va len ≤ len := Nat.min_le_right ..
  have hnext : 0 < len - turnLen va len → ∀ i, va / PGSIZE * PGSIZE + PGSIZE + i =
      va + (turnLen va len + i) := fun hpos i => by
    have hlt : turnLen va len < len := by omega
    rw [turnLen_next hlt]
    omega
  have hk := h.le
  refine ⟨by omega, fun hok => ?_, fun i hi => ?_, fun hok => ?_⟩
  · have := h.done hok
    omega
  · by_cases hturn : i < turnLen va len
    · rw [turnLen_page hturn]
      exact ⟨hpage, hW⟩
    · have hi' := h.pages (i - turnLen va len) (by omega)
      rwa [hnext (by omega), Nat.add_sub_cancel' (not_lt.mp hturn)] at hi'
  · obtain ⟨hlt, hwhy⟩ := h.stop hok
    rw [hnext (by omega)] at hwhy
    refine ⟨by omega, ?_⟩
    rcases hwhy with hsz | hperm | hst
    · exact Or.inl hsz
    · exact Or.inr (Or.inl hperm)
    · exact Or.inr (Or.inr (hdenied hst))

end Moved

/-! ### `copyin` -/

/-- The `n` bytes of flat memory at `va`. -/
def FlatProc.read (m : FlatProc) (va n : Nat) : List UInt8 := (List.range n).map fun i => m.byte (va + i)

@[simp] theorem FlatProc.length_read (m : FlatProc) (va n : Nat) : (m.read va n).length = n := by
  rw [FlatProc.read, List.length_map, List.length_range]

theorem FlatProc.read_add (m : FlatProc) (va a b : Nat) :
    m.read va (a + b) = m.read va a ++ m.read (va + a) b := by
  simp only [FlatProc.read, List.range_add, List.map_append, List.map_map]
  congr 2
  funext i
  simp [Nat.add_assoc]

/-- What follows a turn, of the bytes that are left if any. -/
theorem FlatProc.read_turn (m : FlatProc) {len k : Nat} (hk : k ≤ len - turnLen va len) :
    m.read va (turnLen va len) ++ m.read (va / PGSIZE * PGSIZE + PGSIZE) k =
      m.read va (turnLen va len + k) := by
  rw [m.read_add]
  cases k with
  | zero => rfl
  | succ k =>
      have hlt : turnLen va len < len := by omega
      rw [turnLen_next hlt]

theorem sub_pgRoundDown (va : Nat) : va - pgRoundDown va = va % PGSIZE := by
  simp only [pgRoundDown, PGSIZE]
  omega

/-- The bytes of a turn are those of flat memory. -/
theorem loadBytes_flat (h : Settled own lim s) (hr : own r = .root p)
    (hv : va / PGSIZE < npages (s.procs p).sz) (hres : Resident (s.pte r (va / PGSIZE)) pa)
    (len : Nat) :
    loadBytes s pa (va % PGSIZE) (turnLen va len) = (flatMem s p).read va (turnLen va len) := by
  refine List.map_congr_left fun i hi => ?_
  have hpage := turnLen_page (List.mem_range.mp hi)
  rw [flatMem_byte h hr (hpage ▸ hv) (by rwa [hpage])]
  congr 1
  ext
  simp [pageOff, Nat.add_mod]

theorem copyinLoop_spec : ∀ (n : Nat) (own : Nat → Owner) (s : Kernel) (srcva len : Nat), len < n →
    Settled own lim s → own r = .root p →
    ∃ ok k s' own', copyinLoop p r n s srcva len =
        .ok ((ok, (flatMem s p).read srcva k), s') ∧
      Settled own' lim s' ∧ Keeps noPage own own' s s' ∧
      Moved (flatMem s p) (fun _ => true) (Denied s s') srcva len k ok := by
  intro n
  induction n with
  | zero => exact fun _ _ _ _ hlt => absurd hlt (Nat.not_lt_zero _)
  | succ n ih =>
      intro own s srcva len hlt h hr
      rw [copyinLoop]
      by_cases hlen : len = 0
      · subst hlen
        exact ⟨true, 0, s, own, rfl, h, Keeps.refl own s, moved_nothing⟩
      · have hpos := Nat.pos_of_ne_zero hlen
        obtain ⟨res, s₁, own₁, hfetch, hset₁, hk₁, hgiven, hrefused⟩ :=
          fetchPage_spec (v := srcva / PGSIZE) h hr
        have hfetch : fetchPage s p r (pgRoundDown srcva) = .ok (res, s₁) := hfetch
        simp only [if_neg hlen, hfetch, ok_bind]
        by_cases hres : res = 0
        · refine ⟨false, 0, s₁, own₁, by rw [if_pos hres]; rfl, hset₁, hk₁, moved_refused hpos ?_⟩
          rw [flatMem_sz ⟨own, lim, h⟩ p]
          rcases hrefused hres with hsz | hst
          · exact Or.inl hsz
          · exact Or.inr (Or.inr hst)
        · obtain ⟨hv, hresid⟩ := hgiven hres
          have hr₁ : own₁ r = .root p := (hk₁.roots p r).1.mpr hr
          have hflat₁ : flatMem s₁ = flatMem s := flatMem_keeps h hk₁
          have hsz₁ : (s₁.procs p).sz = (s.procs p).sz := hk₁.procs.sz p
          have hturn : 0 < turnLen srcva len := turnLen_pos hpos
          obtain ⟨ok, k, s₂, own₂, hrun, hset₂, hk₂, hmoved⟩ := ih own₁ s₁
            (srcva / PGSIZE * PGSIZE + PGSIZE) (len - turnLen srcva len) (by omega) hset₁ hr₁
          rw [hflat₁] at hrun hmoved
          refine ⟨ok, turnLen srcva len + k, s₂, own₂, ?_, hset₂, hk₁.trans hk₂ fun _ _ hf => hf.elim id id,
            hmoved.turn (by rwa [flatMem_sz ⟨own, lim, h⟩ p]) rfl ?_⟩
          · have hbytes := loadBytes_flat hset₁ hr₁ (hsz₁ ▸ hv) hresid len
            rw [hflat₁] at hbytes
            have hlen' : min (PGSIZE - (srcva - pgRoundDown srcva)) len = turnLen srcva len := by
              rw [sub_pgRoundDown]
              rfl
            rw [if_neg hres, hlen', sub_pgRoundDown, hbytes]
            have hrun : copyinLoop p r n s₁ (pgRoundDown srcva + PGSIZE) (len - turnLen srcva len) =
                _ := hrun
            rw [hrun, ok_bind, (flatMem s p).read_turn hmoved.le]
            rfl
          · exact Denied.after hk₁.nulls hk₁.fulls

/-! ### `copyout` -/

/-- Flat memory with `bytes` at `va`. -/
def FlatProc.write (m : FlatProc) (va : Nat) (bytes : List UInt8) : FlatProc :=
  { m with byte := fun a => if va ≤ a then (bytes[a - va]?).getD (m.byte a) else m.byte a }

theorem FlatProc.write_byte (m : FlatProc) (va : Nat) (bytes : List UInt8) (a : Nat) :
    (m.write va bytes).byte a = if va ≤ a then (bytes[a - va]?).getD (m.byte a) else m.byte a := rfl

theorem FlatProc.write_nil (m : FlatProc) (va : Nat) : m.write va [] = m := by
  refine congrArg (FlatProc.mk m.sz · m.perm) (funext fun a => ?_)
  simp

/-- Writing on from where the first bytes end. -/
theorem FlatProc.write_append (m : FlatProc) (va : Nat) (b c : List UInt8) :
    (m.write va b).write (va + b.length) c = m.write va (b ++ c) := by
  refine congrArg (FlatProc.mk m.sz · m.perm) (funext fun a => ?_)
  simp only [FlatProc.write_byte]
  by_cases hva : va ≤ a
  · rw [if_pos hva, if_pos hva]
    by_cases hb : va + b.length ≤ a
    · rw [if_pos hb, List.getElem?_append_right (by omega), Nat.sub_sub,
        List.getElem?_eq_none (l := b) (by omega)]
      rfl
    · rw [if_neg hb, List.getElem?_append_left (by omega)]
  · rw [if_neg hva, if_neg hva, if_neg (by omega)]

/-- Storing bytes in the page of an address is writing them to flat memory. -/
theorem flatMem_storeBytes {bytes : List UInt8} (h : Settled own lim s) (hr : own r = .root p)
    (hv : va / PGSIZE < npages (s.procs p).sz) (hres : Resident (s.pte r (va / PGSIZE)) pa)
    (hlen : bytes.length ≤ PGSIZE - va % PGSIZE) :
    flatMem (storeBytes s pa (va % PGSIZE) bytes) =
      Function.update (flatMem s) p ((flatMem s p).write va bytes) := by
  rw [storeBytes, flatMem_setPage h hr hv hres]
  refine congrArg (fun byte => Function.update (flatMem s) p { flatMem s p with byte := byte })
    (funext fun a => ?_)
  by_cases hpage : a / PGSIZE = va / PGSIZE
  · have hbyte := flatMem_byte h hr (hpage ▸ hv) (show Resident (s.pte r (a / PGSIZE)) pa by rwa [hpage])
    have hle : va % PGSIZE ≤ a % PGSIZE ↔ va ≤ a := by
      simp only [PGSIZE] at *
      omega
    rw [if_pos hpage, hbyte]
    simp only [pageOff, hle]
    by_cases hva : va ≤ a
    · have hsub : a % PGSIZE - va % PGSIZE = a - va := by
        simp only [PGSIZE] at *
        omega
      rw [if_pos hva, if_pos hva, hsub]
    · rw [if_neg hva, if_neg hva]
  · rw [if_neg hpage]
    by_cases hva : va ≤ a
    · have hout : bytes.length ≤ a - va := by
        simp only [PGSIZE] at *
        omega
      rw [if_pos hva, List.getElem?_eq_none hout]
      rfl
    · rw [if_neg hva]

theorem take_turn (va : Nat) (src : List UInt8) :
    src.take (PGSIZE - va % PGSIZE) = src.take (turnLen va src.length) := List.take_eq_take_min ..

theorem drop_turn (va : Nat) (src : List UInt8) :
    src.drop (PGSIZE - va % PGSIZE) = src.drop (turnLen va src.length) := by
  by_cases hle : PGSIZE - va % PGSIZE ≤ src.length
  · rw [turnLen, Nat.min_eq_left hle]
  · rw [turnLen, Nat.min_eq_right (by omega), List.drop_of_length_le (by omega), List.drop_length]

/-- What follows a turn is written on from its end. -/
theorem FlatProc.write_turn (m : FlatProc) {src : List UInt8} {k : Nat}
    (hk : k ≤ src.length - turnLen va src.length) :
    (m.write va (src.take (turnLen va src.length))).write (va / PGSIZE * PGSIZE + PGSIZE)
        ((src.drop (turnLen va src.length)).take k) =
      m.write va (src.take (turnLen va src.length + k)) := by
  have hle : turnLen va src.length ≤ src.length := Nat.min_le_right ..
  cases k with
  | zero => rw [List.take_zero, FlatProc.write_nil, Nat.add_zero]
  | succ k =>
      have hlt : turnLen va src.length < src.length := by omega
      have hnext : va / PGSIZE * PGSIZE + PGSIZE =
          va + (src.take (turnLen va src.length)).length := by
        rw [turnLen_next hlt, List.length_take_of_le hle]
      rw [hnext, FlatProc.write_append, ← List.take_add]

/-- The entry of a page that has been fetched shows the permissions of flat memory. -/
theorem fetched_perm {own₁ : Nat → Owner} {s₁ : Kernel} (h : Settled own lim s)
    (hr : own r = .root p) (hset₁ : Settled own₁ lim s₁) (hk₁ : Keeps noPage own own₁ s s₁)
    (hv : va / PGSIZE < npages (s.procs p).sz) (hres : Resident (s₁.pte r (va / PGSIZE)) pa) :
    walk s₁ r (pgRoundDown va) = .ok (some (s₁.pte r (va / PGSIZE))) ∧
      ((flatMem s p).perm (va / PGSIZE)).has PTE_W = (s₁.pte r (va / PGSIZE)).has PTE_W := by
  have hr₁ : own₁ r = .root p := (hk₁.roots p r).1.mpr hr
  have hv₁ : va / PGSIZE < npages (s₁.procs p).sz := by rwa [hk₁.procs.sz p]
  have hpage : pgRoundDown va / PGSIZE = va / PGSIZE := page_div _
  constructor
  · refine walk_resident hset₁.wf.pages ⟨p, Or.inl hr₁⟩ (by rw [hpage]) hres ?_
    rw [hpage]
    exact hv₁.trans_le (npages_le (hset₁.sz_le p))
  · rw [← flatMem_keeps h hk₁, flatMem_of (hset₁.wf.pages.pagetable hr₁)]
    simp only [flatOf, if_pos hv₁, flat_resident hres]
    exact AccessBit.perm_has (Or.inr rfl) _

/-- What `copyout` has done: the first `k` bytes of `src` are in flat memory, and nothing else has
changed there. -/
structure CopiedOut (own own' : Nat → Owner) (lim : Nat → Nat) (s s' : Kernel) (p : ProcId)
    (dstva : Nat) (src : List UInt8) (k : Nat) (ok : Bool) : Prop where
  settled : Settled own' lim s'
  keeps : Keeps anyPage own own' s s'
  flat : flatMem s' = Function.update (flatMem s) p ((flatMem s p).write dstva (src.take k))
  moved : Moved (flatMem s p) (fun e => e.has PTE_W) (Denied s s') dstva src.length k ok

theorem Keeps.copiedOut {dstva : Nat} {src : List UInt8} {ok : Bool} (h : Settled own lim s)
    (hset : Settled own' lim s') (hk : Keeps noPage own own' s s')
    (hm : Moved (flatMem s p) (fun e => e.has PTE_W) (Denied s s') dstva src.length 0 ok) :
    CopiedOut own own' lim s s' p dstva src 0 ok := by
  refine ⟨hset, hk.weaken fun _ _ hf => hf.elim, ?_, hm⟩
  rw [flatMem_keeps h hk, List.take_zero, FlatProc.write_nil, Function.update_eq_self]

/-- One turn of `copyout`, which has fetched the page `pa`, and the rest of the call. -/
theorem CopiedOut.turn {own₁ own₂ : Nat → Owner} {s₁ s₂ : Kernel} {dstva k : Nat}
    {src : List UInt8} {ok : Bool} (h : Settled own lim s) (hset₁ : Settled own₁ lim s₁)
    (hk₁ : Keeps noPage own own₁ s s₁) (hr : own r = .root p)
    (hv : dstva / PGSIZE < npages (s.procs p).sz) (hres : Resident (s₁.pte r (dstva / PGSIZE)) pa)
    (hperm : ((flatMem s p).perm (dstva / PGSIZE)).has PTE_W = true)
    (hrest : CopiedOut own₁ own₂ lim
      (storeBytes s₁ pa (dstva % PGSIZE) (src.take (turnLen dstva src.length))) s₂ p
      (dstva / PGSIZE * PGSIZE + PGSIZE) (src.drop (turnLen dstva src.length)) k ok) :
    CopiedOut own own₂ lim s s₂ p dstva src (turnLen dstva src.length + k) ok := by
  have hr₁ : own₁ r = .root p := (hk₁.roots p r).1.mpr hr
  have hleft : (src.drop (turnLen dstva src.length)).length =
      src.length - turnLen dstva src.length := List.length_drop ..
  have hfits : (src.take (turnLen dstva src.length)).length ≤ PGSIZE - dstva % PGSIZE := by
    rw [← take_turn]
    exact List.length_take_le ..
  have hstored := flatMem_storeBytes hset₁ hr₁ (by rwa [hk₁.procs.sz p]) hres hfits
  rw [flatMem_keeps h hk₁] at hstored
  obtain ⟨hset₂, hk₂, hflat, hmoved⟩ := hrest
  rw [hleft, hstored, Function.update_self] at hmoved
  rw [hstored, Function.update_self, Function.update_idem, FlatProc.write_turn _ hmoved.le] at hflat
  have hk : Keeps anyPage own own₁ s (storeBytes s₁ pa (dstva % PGSIZE)
      (src.take (turnLen dstva src.length))) := hk₁.trans (keeps_setPage ..) fun _ _ _ => trivial
  refine ⟨hset₂, hk.trans hk₂ fun _ _ _ => trivial, hflat, Moved.turn (by rwa [flatMem_sz ⟨own, lim, h⟩ p])
    hperm (Denied.after hk.nulls hk.fulls) ?_⟩
  exact ⟨hmoved.le, hmoved.done, hmoved.pages, hmoved.stop⟩

theorem copyoutRun_spec : ∀ (n : Nat) (own : Nat → Owner) (s : Kernel) (dstva : Nat)
    (src : List UInt8), src.length < n → Settled own lim s → own r = .root p →
    ∃ ok k s' own', copyoutRun p r n s dstva src = .ok ((ok, k), s') ∧
      CopiedOut own own' lim s s' p dstva src k ok := by
  intro n
  induction n with
  | zero => exact fun _ _ _ _ hlt => absurd hlt (Nat.not_lt_zero _)
  | succ n ih =>
      intro own s dstva src hlt h hr
      have hsz := flatMem_sz ⟨own, lim, h⟩ p
      rw [copyoutRun]
      by_cases hsrc : src = []
      · subst hsrc
        exact ⟨true, 0, s, own, rfl, (Keeps.refl own s).copiedOut h h moved_nothing⟩
      · have hpos : 0 < src.length := List.length_pos_of_ne_nil hsrc
        rw [if_neg hsrc]
        by_cases hmax : pgRoundDown dstva ≥ MAXVA
        · refine ⟨false, 0, s, own, if_pos hmax, (Keeps.refl own s).copiedOut h h
            (moved_refused hpos (Or.inl ?_))⟩
          have hle := npages_le (h.sz_le p)
          rw [hsz]
          simp only [pgRoundDown, MAXVA, UPAGES, TRAPFRAME, TRAMPOLINE, PGSIZE] at *
          omega
        · obtain ⟨res, s₁, own₁, hfetch, hset₁, hk₁, hgiven, hrefused⟩ :=
            fetchPage_spec (v := dstva / PGSIZE) h hr
          have hfetch : fetchPage s p r (pgRoundDown dstva) = .ok (res, s₁) := hfetch
          simp only [if_neg hmax, hfetch, ok_bind]
          by_cases hres : res = 0
          · refine ⟨false, 0, s₁, own₁, by rw [if_pos hres]; rfl,
              hk₁.copiedOut h hset₁ (moved_refused hpos ?_)⟩
            rw [hsz]
            exact (hrefused hres).imp_right Or.inr
          · obtain ⟨hv, hresid⟩ := hgiven hres
            obtain ⟨hwalk, hperm⟩ := fetched_perm h hr hset₁ hk₁ hv hresid
            simp only [if_neg hres, hwalk, ok_bind]
            cases hw : (s₁.pte r (dstva / PGSIZE)).has PTE_W with
            | false =>
                exact ⟨false, 0, s₁, own₁, rfl,
                  hk₁.copiedOut h hset₁ (moved_refused hpos (Or.inr (Or.inl (hperm.trans hw))))⟩
            | true =>
                have hr₁ : own₁ r = .root p := (hk₁.roots p r).1.mpr hr
                have hturn : 0 < turnLen dstva src.length := turnLen_pos hpos
                have hleft : (src.drop (turnLen dstva src.length)).length < n := by
                  rw [List.length_drop]
                  omega
                obtain ⟨ok, k, s₂, own₂, hrun, hrest⟩ := ih own₁ _ (dstva / PGSIZE * PGSIZE + PGSIZE)
                  _ hleft (hset₁.setPage res _) hr₁
                refine ⟨ok, turnLen dstva src.length + k, s₂, own₂, ?_,
                  hrest.turn h hset₁ hk₁ hr hv hresid (hperm.trans hw)⟩
                have hcount : (src.take (turnLen dstva src.length)).length =
                    turnLen dstva src.length := List.length_take_of_le (Nat.min_le_right ..)
                have hrun : copyoutRun p r n (storeBytes s₁ res (dstva % PGSIZE)
                    (src.take (turnLen dstva src.length))) (pgRoundDown dstva + PGSIZE)
                    (src.drop (turnLen dstva src.length)) = .ok ((ok, k), s₂) := hrun
                simp only [Bool.not_true, Bool.false_eq_true, if_false, sub_pgRoundDown, take_turn,
                  drop_turn, hrun, hcount, ok_bind]
                rfl

/-- The loop ends by itself: more turns than bytes make no difference. -/
theorem copyoutRun_turns : ∀ (n m : Nat) (s : Kernel) (dstva : Nat) (src : List UInt8),
    src.length < n → src.length < m →
    copyoutRun p r n s dstva src = copyoutRun p r m s dstva src := by
  intro n
  induction n with
  | zero => exact fun _ _ _ _ hn => absurd hn (Nat.not_lt_zero _)
  | succ n ih =>
      intro m s dstva src hn hm
      obtain ⟨m, rfl⟩ := Nat.exists_eq_succ_of_ne_zero (Nat.ne_of_gt (Nat.zero_lt_of_lt hm))
      rw [copyoutRun, copyoutRun]
      by_cases hsrc : src = []
      · rw [if_pos hsrc, if_pos hsrc]
      · have hpos : 0 < src.length := List.length_pos_of_ne_nil hsrc
        have hleft : (src.drop (PGSIZE - (dstva - pgRoundDown dstva))).length < src.length := by
          have hlt := mod_PGSIZE_lt dstva
          rw [List.length_drop, sub_pgRoundDown]
          omega
        rw [if_neg hsrc, if_neg hsrc]
        by_cases hmax : pgRoundDown dstva ≥ MAXVA
        · rw [if_pos hmax, if_pos hmax]
        · simp only [if_neg hmax]
          cases fetchPage s p r (pgRoundDown dstva) with
          | error e => rfl
          | ok x =>
              simp only [ok_bind]
              cases walk x.2 r (pgRoundDown dstva) with
              | error e => rfl
              | ok e =>
                  cases e with
                  | none => rfl
                  | some e =>
                      simp only [ok_bind, ih m _ _ _ (hleft.trans_le (Nat.le_of_lt_succ hn))
                        (hleft.trans_le (Nat.le_of_lt_succ hm))]

/-- **`copyin` and `copyout` are exact and bounded.**  Both return, whatever the address and the
length.  `copyout` that returns 0 has written `src` to the flat memory of the process and changed
nothing else in the memory of any process; `copyin` that returns 0 has delivered the bytes of flat
memory, and never changes any.  A call that returns -1 has met a page that lies beyond the size,
is not to be written (`copyout`), or could not be paged in. -/
theorem copies_exact (h : Coherent s) (hr : (s.procs p).pagetable = some r) :
    (∀ dstva src, ∃ ok s',
      (∀ n, src.length < n → copyoutLoop p r n s dstva src = .ok (ok, s')) ∧ Coherent s' ∧
      (ok = true → flatMem s' = Function.update (flatMem s) p ((flatMem s p).write dstva src) ∧
        ∀ a, dstva ≤ a → a < dstva + src.length → pgRoundDown a < (s.procs p).sz) ∧
      (ok = false → ∃ a, dstva ≤ a ∧ a < dstva + src.length ∧
        ((s.procs p).sz ≤ pgRoundDown a ∨ ((flatMem s p).perm (a / PGSIZE)).has PTE_W = false ∨
          Denied s s'))) ∧
    (∀ srcva len, ∃ ok bytes s',
      copyin s p r srcva len = .ok ((ok, bytes), s') ∧ Coherent s' ∧ flatMem s' = flatMem s ∧
      (ok = true → bytes = (flatMem s p).read srcva len ∧
        ∀ a, srcva ≤ a → a < srcva + len → pgRoundDown a < (s.procs p).sz) ∧
      (ok = false → ∃ a, srcva ≤ a ∧ a < srcva + len ∧
        ((s.procs p).sz ≤ pgRoundDown a ∨ Denied s s'))) := by
  obtain ⟨own, lim, hset⟩ := h
  have hroot := hset.wf.pages.own_root hr
  have hsz := flatMem_sz ⟨own, lim, hset⟩ p
  have hin : ∀ {a}, a / PGSIZE < npages (flatMem s p).sz ↔ pgRoundDown a < (s.procs p).sz :=
    fun {a} => by rw [hsz, ← page_lt_npages]; rfl
  have hout : ∀ {a}, npages (flatMem s p).sz ≤ a / PGSIZE → (s.procs p).sz ≤ pgRoundDown a :=
    fun ha => not_lt.mp fun hlt => absurd (hin.mpr hlt) (not_lt.mpr ha)
  constructor
  · intro dstva src
    obtain ⟨ok, k, s', own', hrun, hset', -, hflat, hmoved⟩ :=
      copyoutRun_spec (src.length + 1) own s dstva src (Nat.lt_succ_self _) hset hroot
    refine ⟨ok, s', fun n hn => ?_, ⟨own', lim, hset'⟩, fun hok => ?_, fun hok => ?_⟩
    · rw [copyoutLoop_eq, copyoutRun_turns n _ s dstva src hn (Nat.lt_succ_self _), hrun]
      rfl
    · have hk := hmoved.done hok
      subst hk
      rw [List.take_length] at hflat
      refine ⟨hflat, fun a hle hlt => hin.mp ?_⟩
      have ha := (hmoved.pages (a - dstva) (by omega)).1
      rwa [Nat.add_sub_cancel' hle] at ha
    · obtain ⟨hlt, hwhy⟩ := hmoved.stop hok
      exact ⟨dstva + k, Nat.le_add_right .., by omega, hwhy.imp_left hout⟩
  · intro srcva len
    obtain ⟨ok, k, s', own', hrun, hset', hk, hmoved⟩ :=
      copyinLoop_spec (len + 1) own s srcva len (Nat.lt_succ_self _) hset hroot
    refine ⟨ok, _, s', hrun, ⟨own', lim, hset'⟩, flatMem_keeps hset hk, fun hok => ?_, fun hok => ?_⟩
    · have hlen := hmoved.done hok
      subst hlen
      refine ⟨rfl, fun a hle hlt => hin.mp ?_⟩
      have ha := (hmoved.pages (a - srcva) (by omega)).1
      rwa [Nat.add_sub_cancel' hle] at ha
    · obtain ⟨hlt, hsize | hperm | hdenied⟩ := hmoved.stop hok
      · exact ⟨srcva + k, Nat.le_add_right .., by omega, Or.inl (hout hsize)⟩
      · cases hperm
      · exact ⟨srcva + k, Nat.le_add_right .., by omega, Or.inr hdenied⟩

/-- The first process has asked for two pages and touched none. -/
def lazyKernel : Kernel := stateAfter (run memStep [.sbrk firstProc 8192 false] firstKernel) firstKernel

theorem lazyKernel_coherent : Coherent lazyKernel :=
  coherent_after_run firstKernel_listed.coherent (by decide +kernel) firstKernel

/-- Its page table. -/
def lazyTable : Nat := 2148536320

theorem lazyTable_eq : (lazyKernel.procs firstProc).pagetable = some lazyTable := by decide +kernel

/-- Four bytes over the border of two pages that are not there yet. -/
theorem copies_exact_lazy : Coherent lazyKernel ∧
    (lazyKernel.procs firstProc).pagetable = some lazyTable ∧
    ∃ s', copyout lazyKernel firstProc lazyTable 4094 [1, 2, 3, 4] = .ok (true, s') ∧
      flatMem s' = Function.update (flatMem lazyKernel) firstProc
        ((flatMem lazyKernel firstProc).write 4094 [1, 2, 3, 4]) := by
  obtain ⟨s₁, hrun⟩ : ∃ s₁, copyout lazyKernel firstProc lazyTable 4094 [1, 2, 3, 4] =
      .ok (true, s₁) := eq_ok_of_result (by decide +kernel)
  obtain ⟨ok, s', hloop, -, hok, -⟩ :=
    (copies_exact lazyKernel_coherent lazyTable_eq).1 4094 [1, 2, 3, 4]
  have hout : copyout lazyKernel firstProc lazyTable 4094 [1, 2, 3, 4] = .ok (ok, s') :=
    hloop _ (Nat.lt_succ_self _)
  cases hrun.symm.trans hout
  exact ⟨lazyKernel_coherent, lazyTable_eq, s₁, hrun, (hok rfl).1⟩

end Xv6.Vm
