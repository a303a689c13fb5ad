import Xv6.Umalloc.Ring

/-!
# Umalloc — Usable

`malloc` gives out memory that is the program's.

`malloc` passes `nu * sizeof(Header)` to `sbrk`, whose parameter is an `int`: from `2 ^ 31` bytes on it
asks for something else.

* `take_spec`, `morecore_spec`, `malloc_spec`: what each part of `malloc` does to the list.
* `malloc_usable`: as long as no request is that large, memory is usable and disjoint in every run.
* `malloc_unusable`: a request that is.
* `sbrk_eq_sysSbrk`: `sbrk` does what the kernel does.
-/

namespace Xv6.Umalloc
open Xv6.Lib

variable {im : Image} {a a' : Arena} {F : List Nat} {live : List (Nat × Nat)} {h k p q bp n m : Nat}
  {L₁ L₂ : List Nat} {room : Bool}

/-- The list that `malloc` and `free` keep. -/
structure Arranged (im : Image) (a : Arena) (F : List Nat) (live : List (Nat × Nat)) : Prop where
  ring : Ring im a F live
  spaced : Spaced a (im.base :: F)
  entry : a.freep ∈ im.base :: F

/-! ### A block is taken -/

theorem Ring.free_apart (hr : Ring im a F live) {w : Nat} (hp : p ∈ F) (hw : w ∈ F) (hne : w ≠ p) :
    Apart a p w := by
  have hpair : F.Pairwise (Apart a) := (List.pairwise_cons.mp hr.order).2.imp fun hle => Or.inl hle
  have hsymm : Std.Symm (Apart a) := ⟨fun _ _ hap => hap.symm⟩
  exact hpair.forall hp hw hne.symm

/-- All of a block is used: it leaves the list. -/
theorem Arranged.takeAll (ha : Arranged im a F live) (hL : im.base :: F = L₁ ++ q :: p :: L₂) (hp : p ∈ F)
    (hm : p + HEADER + m ≤ a.endOf p) :
    ∃ F', Arranged im { a with ptr := Function.update a.ptr q (a.ptr p), freep := q } F'
      ((p + HEADER, m) :: live) := by
  obtain ⟨hr, hsp, -⟩ := ha
  have hcircle := hr.circle
  have horder := hr.order
  have hlt := hr.sorted
  rw [hL] at hcircle horder hlt hsp
  obtain ⟨F', hF', hmem⟩ := exists_tail hL L₂
  have hsub : (L₁ ++ q :: L₂).Sublist (L₁ ++ q :: p :: L₂) :=
    (List.sublist_cons_self p L₂).cons_cons q |>.append_left L₁
  obtain ⟨-, hlt₂, hlt₁₂⟩ := List.pairwise_append.mp hlt
  obtain ⟨hqlt, hlt₂⟩ := List.pairwise_cons.mp hlt₂
  have hplt : ∀ w ∈ L₂, p < w := (List.pairwise_cons.mp hlt₂).1
  have hqp : q < p := hqlt p List.mem_cons_self
  have hfree : ∀ w ∈ F', w ∈ F ∧ w ≠ p := by
    intro w hw
    have hwL : w ∈ L₁ ++ q :: L₂ := hF' ▸ List.mem_cons_of_mem _ hw
    rcases List.mem_append.mp hwL with hw₁ | hw₁
    · have hne := ((hlt₁₂ w hw₁ q List.mem_cons_self).trans hqp).ne
      exact ⟨(hmem w hw).resolve_left fun hw₂ => (hplt w hw₂).not_gt (lt_of_le_of_ne
        ((hlt₁₂ w hw₁ q List.mem_cons_self).trans hqp).le hne), hne⟩
    · rcases List.mem_cons.mp hw₁ with rfl | hw₂
      · exact ⟨(hmem w hw).resolve_left fun hw₂ => (hplt w hw₂).not_gt hqp, hqp.ne⟩
      · have hwF : w ∈ im.base :: F := hL ▸ by simp [hw₂]
        exact ⟨(List.mem_cons.mp hwF).resolve_left
          ((hr.base_lt_of_mem hp).trans (hplt w hw₂)).ne', (hplt w hw₂).ne'⟩
  refine ⟨F', ⟨?_, ?_, hr.base_size, hr.base_lt, fun w hw => ?_, fun b hb => ?_, fun b hb w hw => ?_,
    ?_, hr.start_le, hr.sz_le⟩, ?_, ?_⟩
  · rw [hF']
    refine hcircle.splice (fun w hw => ?_) ((Function.update_self ..).trans ?_) ?_
    · exact Function.update_of_ne (hlt₁₂ w hw q List.mem_cons_self).ne ..
    · exact (follows_append.mp hcircle).2.2.1
    · refine (follows_append.mp hcircle).2.2.2.congr fun w hw => ?_
      exact Function.update_of_ne (hqlt w (List.mem_cons_of_mem p hw)).ne' ..
  · rw [hF']
    exact horder.sublist hsub
  · exact (hr.free w (hfree w hw).1).congr rfl le_rfl
  · rcases List.mem_cons.mp hb with rfl | hb
    · rw [Nat.add_sub_cancel]
      exact ⟨Nat.le_add_left .., (hr.free p hp).congr rfl le_rfl, hm⟩
    · obtain ⟨h16, hin, hle⟩ := hr.used b hb
      exact ⟨h16, hin.congr rfl le_rfl, hle⟩
  · rcases List.mem_cons.mp hb with rfl | hb
    · rw [Nat.add_sub_cancel]
      exact hr.free_apart hp (hfree w hw).1 (hfree w hw).2
    · exact hr.apart b hb w (hfree w hw).1
  · refine List.pairwise_cons.mpr ⟨fun c hc => ?_, hr.usedApart⟩
    rw [Nat.add_sub_cancel]
    exact (hr.apart c hc p hp).symm
  · rw [hF']
    exact hsp.sublist hsub
  · rw [hF']
    simp

/-- The end of a block is used: the block gets smaller. -/
theorem Arranged.takeEnd (ha : Arranged im a F live) (hq : q ∈ im.base :: F) (hp : p ∈ F) (hn : 0 < n)
    (hlt : n < a.size p) (hm : HEADER + m ≤ HEADER * n) :
    Arranged im { a with
      size := Function.update (Function.update a.size p (a.size p - n)) (p + HEADER * (a.size p - n)) n
      freep := q } F ((p + HEADER * (a.size p - n) + HEADER, m) :: live) := by
  obtain ⟨hr, hsp, -⟩ := ha
  have hinp := hr.free p hp
  have hple := hinp.lt_endOf
  generalize hk : p + HEADER * (a.size p - n) = k
  have hkend : k + HEADER * n = a.endOf p := by
    simp only [Arena.endOf, HEADER] at *
    omega
  have hpk : p < k := by
    simp only [HEADER] at *
    omega
  have hkp : k < a.endOf p := by
    simp only [HEADER] at *
    omega
  generalize ha' : ({ a with
    size := Function.update (Function.update a.size p (a.size p - n)) k n, freep := q } : Arena) = a'
  have hsize : ∀ h, a'.size h = if h = k then n else if h = p then a.size p - n else a.size h := by
    intro h
    subst ha'
    simp only [Function.update_apply]
  have hend : ∀ h, a'.endOf h = if h = k then a.endOf p else if h = p then k else a.endOf h := by
    intro h
    rw [Arena.endOf, hsize]
    by_cases hhk : h = k
    · rw [if_pos hhk, if_pos hhk, hhk, hkend]
    · rw [if_neg hhk, if_neg hhk]
      by_cases hhp : h = p
      · rw [if_pos hhp, if_pos hhp, hhp, hk]
      · rw [if_neg hhp, if_neg hhp]
        rfl
  have hptr : a'.ptr = a.ptr := ha' ▸ rfl
  have hsz : a'.sz = a.sz := ha' ▸ rfl
  have hentry : a'.freep = q := ha' ▸ rfl
  -- no block starts at the header that is new
  have hnew : ∀ h, InHeap im a h → Apart a h p → h ≠ k ∧ h ≠ p := by
    intro h hin hap
    have := hin.lt_endOf
    rcases hap with hle | hle
    · omega
    · omega
  have hnewF : ∀ w ∈ F, w ≠ k := by
    intro w hw
    by_cases hwp : w = p
    · omega
    · exact (hnew w (hr.free w hw) (hr.free_apart hp hw hwp).symm).1
  have hlive : ∀ b ∈ live, b.1 - HEADER ≠ k ∧ b.1 - HEADER ≠ p := fun b hb =>
    hnew _ (hr.used b hb).2.1 (hr.apart b hb p hp)
  have hbase : im.base ≠ k ∧ im.base ≠ p := by
    have := hr.base_lt_of_mem hp
    omega
  have hshrink : ∀ w ∈ im.base :: F, a'.endOf w ≤ a.endOf w := by
    intro w hw
    have hwk : w ≠ k := by
      rcases List.mem_cons.mp hw with rfl | hw
      · exact hbase.1
      · exact hnewF w hw
    rw [hend, if_neg hwk]
    by_cases hwp : w = p
    · rw [if_pos hwp, hwp]
      omega
    · rw [if_neg hwp]
  have hsame : ∀ b ∈ live, a'.endOf (b.1 - HEADER) = a.endOf (b.1 - HEADER) := fun b hb => by
    rw [hend, if_neg (hlive b hb).1, if_neg (hlive b hb).2]
  have hkin : InHeap im a' k := by
    refine ⟨hinp.start_le.trans hpk.le, ?_, ?_⟩
    · rw [hsize, if_pos rfl]
      exact hn
    · rw [hend, if_pos rfl, hsz]
      exact hinp.le_sz
  -- what is beside the old block is beside its two parts
  have hbeside : ∀ h, a'.endOf h = a.endOf h → Apart a h p → Apart a' k h ∧ Apart a' h p := by
    intro h hh hap
    rw [Apart, Apart, hh, hend k, if_pos rfl, hend p, if_neg hpk.ne, if_pos rfl]
    rcases hap with hle | hle
    · exact ⟨Or.inr (hle.trans hpk.le), Or.inl hle⟩
    · exact ⟨Or.inl hle, Or.inr (by omega)⟩
  refine ⟨⟨hptr ▸ hr.circle, hr.order.imp_of_mem fun hv _ hle => (hshrink _ hv).trans hle, ?_, hr.base_lt,
    fun w hw => ?_, fun b hb => ?_, fun b hb w hw => ?_, List.pairwise_cons.mpr ⟨fun c hc => ?_, ?_⟩,
    hsz ▸ hr.start_le, hsz ▸ hr.sz_le⟩, hsp.imp_of_mem fun hv _ hlt => (hshrink _ hv).trans_lt hlt,
    hentry ▸ hq⟩
  · rw [hsize, if_neg hbase.1, if_neg hbase.2]
    exact hr.base_size
  · refine ⟨(hr.free w hw).start_le, ?_, ?_⟩
    · rw [hsize, if_neg (hnewF w hw)]
      by_cases hwp : w = p
      · rw [if_pos hwp]
        omega
      · rw [if_neg hwp]
        exact (hr.free w hw).pos
    · exact (hshrink w (List.mem_cons_of_mem _ hw)).trans (hsz ▸ (hr.free w hw).le_sz)
  · rcases List.mem_cons.mp hb with rfl | hb
    · rw [Nat.add_sub_cancel, hend, if_pos rfl]
      exact ⟨Nat.le_add_left .., hkin, by omega⟩
    · obtain ⟨h16, hin, hle⟩ := hr.used b hb
      refine ⟨h16, hin.congr ?_ hsz.ge, (hsame b hb).symm ▸ hle⟩
      rw [hsize, if_neg (hlive b hb).1, if_neg (hlive b hb).2]
  · rcases List.mem_cons.mp hb with rfl | hb
    · rw [Nat.add_sub_cancel]
      by_cases hwp : w = p
      · refine Or.inr ?_
        rw [hend, if_neg (hnewF w hw), if_pos hwp]
      · refine (hbeside w ?_ (hr.free_apart hp hw hwp).symm).1
        rw [hend, if_neg (hnewF w hw), if_neg hwp]
    · by_cases hwp : w = p
      · exact hwp ▸ (hbeside _ (hsame b hb) (hr.apart b hb p hp)).2
      · rw [Apart, hsame b hb, hend w, if_neg (hnewF w hw), if_neg hwp]
        exact hr.apart b hb w hw
  · rw [Nat.add_sub_cancel]
    exact (hbeside _ (hsame c hc) (hr.apart c hc p hp)).1
  · refine hr.usedApart.imp_of_mem fun hb hc hap => ?_
    rwa [Apart, hsame _ hb, hsame _ hc]

/-- **`malloc` takes a block** that is large enough. -/
theorem take_spec (ha : Arranged im a F live) (hq : q ∈ im.base :: F) (hnext : a.ptr q = p)
    (hp : p ∈ im.base :: F) (hn : 0 < n) (hle : n ≤ a.size p) (hm : HEADER + m ≤ HEADER * n) :
    (∃ F', Arranged im (take a n q p).2 F' (((take a n q p).1, m) :: live)) ∧
      (take a n q p).2.sz = a.sz := by
  have hpF : p ∈ F := by
    refine (List.mem_cons.mp hp).resolve_left fun h => ?_
    rw [h, ha.ring.base_size] at hle
    omega
  rw [take]
  by_cases heq : a.size p = n
  · rw [if_pos heq]
    obtain ⟨L₁, R, hL⟩ := List.append_of_mem hq
    have hcircle := ha.ring.circle
    rw [hL] at hcircle
    have hhead : R.headD im.base = p := hcircle.next_eq.symm.trans hnext
    cases R with
    | nil => exact absurd hhead (ha.ring.base_lt_of_mem hpF).ne
    | cons c L₂ =>
        cases hhead
        refine ⟨ha.takeAll hL hpF ?_, rfl⟩
        rw [Arena.endOf, heq]
        omega
  · rw [if_neg heq]
    exact ⟨⟨F, ha.takeEnd hq hpF hn (lt_of_le_of_ne hle (Ne.symm heq)) hm⟩, rfl⟩

/-! ### The loop of `malloc` -/

/-- The loop goes through the nodes `M` to `freep`: it takes a block, or comes to `freep`. -/
theorem scan_spec (n : Nat) (room : Bool) (ha : Arranged im a F live) : ∀ (M : List Nat) (turns q : Nat), q ∈ im.base :: F →
    (∀ w ∈ M, w ∈ im.base :: F) → a.ptr q = M.headD a.freep → Follows a.ptr M a.freep → a.freep ∉ M →
    M.length < turns →
    (∃ q' p, q' ∈ im.base :: F ∧ p ∈ im.base :: F ∧ a.ptr q' = p ∧ n ≤ a.size p ∧
      mallocLoop im n room turns a q (a.ptr q) = .ok (some (take a n q' p).1, (take a n q' p).2)) ∨
    ((∀ w, w ∈ M ∨ w = a.freep → a.size w < n) ∧ ∃ t q', turns = t + M.length + 1 ∧
      mallocLoop im n room turns a q (a.ptr q) = mallocLoop im n room (t + 1) a q' a.freep) := by
  intro M
  induction M with
  | nil =>
      intro turns q hq _ hnext _ _ hturns
      obtain ⟨t, rfl⟩ := Nat.exists_eq_succ_of_ne_zero (Nat.ne_zero_of_lt hturns)
      rw [List.headD_nil] at hnext
      rw [hnext]
      by_cases hfit : n ≤ a.size a.freep
      · refine Or.inl ⟨q, a.freep, hq, ha.entry, hnext, hfit, ?_⟩
        rw [mallocLoop, if_pos hfit]
      · refine Or.inr ⟨fun w hw => ?_, t, q, rfl, rfl⟩
        rw [hw.resolve_left List.not_mem_nil]
        exact not_le.mp hfit
  | cons c M ih =>
      intro turns q hq hM hnext hfollows hfreep hturns
      obtain ⟨t, rfl⟩ := Nat.exists_eq_succ_of_ne_zero (Nat.ne_zero_of_lt hturns)
      rw [List.headD_cons] at hnext
      have hc := hM c List.mem_cons_self
      rw [hnext]
      by_cases hfit : n ≤ a.size c
      · refine Or.inl ⟨q, c, hq, hc, hnext, hfit, ?_⟩
        rw [mallocLoop, if_pos hfit]
      · rw [mallocLoop, if_neg hfit, if_neg (List.ne_of_not_mem_cons hfreep).symm]
        have hfreep' : a.freep ∉ M := List.not_mem_of_not_mem_cons hfreep
        rcases ih t c hc (fun w hw => hM w (List.mem_cons_of_mem c hw)) hfollows.1 hfollows.2 hfreep'
          (Nat.lt_of_succ_lt_succ hturns) with h | ⟨hsmall, t', q', ht, hrun⟩
        · exact Or.inl h
        · refine Or.inr ⟨fun w hw => ?_, t', q', by rw [ht, List.length_cons, Nat.add_assoc], hrun⟩
          rcases hw with hw | hw
          · rcases List.mem_cons.mp hw with rfl | hw
            · exact not_le.mp hfit
            · exact hsmall w (Or.inl hw)
          · exact hsmall w (Or.inr hw)

/-- The loop goes round the list once. -/
theorem search_spec (n : Nat) (room : Bool) (ha : Arranged im a F live) (turns : Nat) (hturns : F.length < turns) :
    (∃ q p, q ∈ im.base :: F ∧ p ∈ im.base :: F ∧ a.ptr q = p ∧ n ≤ a.size p ∧
      mallocLoop im n room turns a a.freep (a.ptr a.freep) =
        .ok (some (take a n q p).1, (take a n q p).2)) ∨
    ((∀ w ∈ im.base :: F, a.size w < n) ∧ ∃ t q, turns = t + F.length + 1 ∧
      mallocLoop im n room turns a a.freep (a.ptr a.freep) = mallocLoop im n room (t + 1) a q a.freep) := by
  obtain ⟨M, hperm, hcircle⟩ := ha.ring.rotate ha.entry
  have hlen : M.length = F.length := by simpa using hperm.length_eq
  have hnd : (a.freep :: M).Nodup := hperm.nodup_iff.mpr ha.ring.nodup
  rcases scan_spec n room ha M turns a.freep ha.entry
    (fun w hw => hperm.mem_iff.mp (List.mem_cons_of_mem _ hw)) hcircle.1 hcircle.2
    (List.nodup_cons.mp hnd).1 (by omega) with h | ⟨hsmall, t, q, ht, hrun⟩
  · exact Or.inl h
  · refine Or.inr ⟨fun w hw => hsmall w ?_, t, q, by omega, hrun⟩
    exact (List.mem_cons.mp (hperm.mem_iff.mpr hw)).symm

/-! ### `morecore` -/

/-- The `int` is what is asked for, or one unit, which is refused. -/
def Asked (im : Image) (a : Arena) (nu : Nat) (room : Bool) : Prop :=
  nu * HEADER < 2 ^ 31 ∨ nu * HEADER = 2 ^ 32 + HEADER ∧ (sbrk im a HEADER room).1 = none

/-- What `sbrk` returns depends on the break. -/
theorem Asked.congr (hask : Asked im a n room) (hsz : a'.sz = a.sz) : Asked im a' n room := by
  refine hask.imp_right fun hbig => ⟨hbig.1, ?_⟩
  have hnone := hbig.2
  rw [sbrk] at hnone ⊢
  rw [hsz]
  split at hnone
  · rename_i hbad
    rw [if_pos hbad]
  · exact absurd hnone (Option.some_ne_none _)

theorem toInt_units {nu : Nat} (hnu : nu * HEADER < 2 ^ 31) :
    (BitVec.ofNat 32 (nu * HEADER)).toInt = (nu * HEADER : Nat) := by
  rw [BitVec.toInt_eq_toNat_of_lt, BitVec.toNat_ofNat, Nat.mod_eq_of_lt (by omega)]
  rw [BitVec.toNat_ofNat, Nat.mod_eq_of_lt (by omega)]
  omega

/-- `sbrk` gives the memory at the break, or changes nothing. -/
theorem sbrk_grow (im : Image) (a : Arena) (room : Bool) {x : Nat} (hx : 0 < x) :
    sbrk im a x room = (none, a) ∨
      sbrk im a x room = (some a.sz, { a with sz := a.sz + x }) ∧ a.sz + x ≤ im.start + MEMORY := by
  rw [sbrk]
  by_cases hbad : 0 < (x : Int) ∧ (room = false ∨ a.sz + (x : Int) > Vm.TRAPFRAME ∨
      a.sz + (x : Int) > im.start + MEMORY)
  · exact Or.inl (if_pos hbad)
  · refine Or.inr ⟨?_, ?_⟩
    · rw [if_neg hbad, Vm.newSize, if_pos (by omega)]
      exact congrArg (fun z => (some a.sz, { a with sz := z })) (Int.toNat_natCast (a.sz + x))
    · by_contra hmax
      exact hbad ⟨by omega, Or.inr (Or.inr (by push_cast; omega))⟩

/-- **`morecore`** adds a block that is large enough, or nothing. -/
theorem morecore_spec (him : im.Ok) (ha : Arranged im a F live) (hask : Asked im a n room) :
    morecore im a n room = .ok (none, a) ∨
    ∃ a' F', morecore im a n room = .ok (some a'.freep, a') ∧ Arranged im a' F' live ∧ a.sz ≤ a'.sz ∧
      ∃ p ∈ F', n ≤ a'.size p := by
  obtain ⟨hr, hsp, hentry⟩ := ha
  rw [morecore]
  rcases hask with hlt | ⟨hbig, hnone⟩
  · generalize hnu : (if n < 4096 then 4096 else n) = nu
    have hbounds : n ≤ nu ∧ 0 < nu ∧ nu * HEADER < 2 ^ 31 := by
      simp only [HEADER] at *
      split at hnu
      · omega
      · omega
    obtain ⟨hle, hpos, hint⟩ := hbounds
    simp only [toInt_units hint]
    rcases sbrk_grow im a room (Nat.mul_pos hpos (show 0 < HEADER by decide))
      with hs | ⟨hs, hmax⟩
    · rw [hs]
      exact Or.inl rfl
    · rw [hs]
      refine Or.inr ?_
      generalize ha₁ :
        ({ a with sz := a.sz + nu * HEADER, size := Function.update a.size a.sz nu } : Arena) = a₁
      have hsz : a₁.sz = a.sz + nu * HEADER := ha₁ ▸ rfl
      have hnew : a₁.size a.sz = nu := ha₁ ▸ Function.update_self ..
      have hold : ∀ h, h < a.sz → a₁.size h = a.size h := fun h hh =>
        ha₁ ▸ Function.update_of_ne hh.ne ..
      have hnode : ∀ p ∈ im.base :: F, p < a.sz := by
        intro p hp
        rcases List.mem_cons.mp hp with rfl | hp
        · exact hr.base_lt.trans_le hr.start_le
        · exact (hr.free p hp).lt_endOf.trans_le (hr.free p hp).le_sz
      have hheader : ∀ b ∈ live, b.1 - HEADER < a.sz := fun b hb =>
        (hr.used b hb).2.1.lt_endOf.trans_le (hr.used b hb).2.1.le_sz
      have hr₁ : Ring im a₁ F live := hr.congr (fun _ _ => ha₁ ▸ rfl) (fun p hp => hold p (hnode p hp))
        (fun b hb => hold _ (hheader b hb)) (by omega) (by omega)
      have hsp₁ : Spaced a₁ (im.base :: F) := hsp.imp_of_mem fun hp _ hlt' =>
        (endOf_congr (hold _ (hnode _ hp))).trans_lt hlt'
      have hloose : Loose im a₁ F live a.sz := by
        refine ⟨⟨hr.start_le, hnew ▸ hpos, ?_⟩, fun p hp => Or.inr ?_, fun b hb => Or.inr ?_⟩
        · rw [Arena.endOf, hnew, hsz, Nat.mul_comm]
        · rw [endOf_congr (hold p (hnode p (List.mem_cons_of_mem _ hp)))]
          exact (hr.free p hp).le_sz
        · rw [endOf_congr (hold _ (hheader b hb))]
          exact (hr.used b hb).2.1.le_sz
      obtain ⟨a', F', hrun, hr', hsp', hentry', hsz', p, hp, hsize⟩ :=
        free_spec him hr₁ hsp₁ (ha₁ ▸ hentry) hloose
      simp only [ha₁, hrun, ok_bind]
      exact ⟨a', F', rfl, ⟨hr', hsp', hentry'⟩, by omega, p, hp, by omega⟩
  · have hnot : ¬ n < 4096 := by
      simp only [HEADER] at hbig
      omega
    have hint : (BitVec.ofNat 32 (n * HEADER)).toInt = HEADER := by
      rw [hbig]
      decide
    have hs : sbrk im a HEADER room = (none, a) := by
      rw [sbrk] at hnone ⊢
      split at hnone
      · rename_i hbad
        exact if_pos hbad
      · exact absurd hnone (Option.some_ne_none _)
    refine Or.inl ?_
    simp only [if_neg hnot, hint, hs]

/-! ### `malloc` -/

theorem nunits_pos (nbytes : BitVec 32) : 0 < nunits nbytes := Nat.succ_pos _

/-- The units of a request are enough for its header and its bytes. -/
theorem le_nunits (nbytes : BitVec 32) : HEADER + nbytes.toNat ≤ HEADER * nunits nbytes := by
  simp only [nunits, HEADER]
  omega

/-- **`malloc`** from an arranged list. -/
theorem mallocLoop_spec (him : im.Ok) (ha : Arranged im a F live) (hn : 0 < n)
    (hm : HEADER + m ≤ HEADER * n) (hask : Asked im a n room) :
    ∃ r a' F', mallocLoop im n room TURNS a a.freep (a.ptr a.freep) = .ok (r, a') ∧
      Arranged im a' F' ((r.map fun p => (p, m)).toList ++ live) ∧ a.sz ≤ a'.sz := by
  have hlen := ha.ring.length_lt him
  rcases search_spec n room ha TURNS (by omega) with
    ⟨q, p, hq, hp, hnext, hfit, hrun⟩ | ⟨hsmall, t, q, ht, hrun⟩
  · obtain ⟨⟨F', ha'⟩, hsz⟩ := take_spec ha hq hnext hp hn hfit hm
    exact ⟨_, _, F', hrun, ha', hsz.ge⟩
  · rw [hrun, mallocLoop, if_neg (not_le.mpr (hsmall _ ha.entry)), if_pos rfl]
    rcases morecore_spec him ha hask with hcore | ⟨a₁, F₁, hcore, ha₁, hsz₁, p₁, hp₁, hfit₁⟩
    · rw [hcore]
      exact ⟨none, a, F, rfl, ha, le_rfl⟩
    · rw [hcore]
      have hlen₁ := ha₁.ring.length_lt him
      rcases search_spec n room ha₁ t (by omega) with
        ⟨q', p', hq', hp', hnext', hfit', hrun'⟩ | ⟨hsmall', -⟩
      · obtain ⟨⟨F', ha'⟩, hsz⟩ := take_spec ha₁ hq' hnext' hp' hn hfit' hm
        exact ⟨_, _, F', hrun', ha', hsz₁.trans hsz.ge⟩
      · exact absurd hfit₁ (not_le.mpr (hsmall' p₁ (List.mem_cons_of_mem _ hp₁)))

/-! ### Programs -/

/-- The headers of the allocator. -/
def Header (im : Image) (F : List Nat) (live : List (Nat × Nat)) (h : Nat) : Prop :=
  h = im.base ∨ h ∈ F ∨ ∃ c ∈ live, h = c.1 - HEADER

/-- The free list is circular, in the order of addresses, without free neighbours, and in the memory of
the process. -/
structure FreeList (im : Image) (a : Arena) (F : List Nat) : Prop where
  circle : Follows a.ptr (im.base :: F) im.base
  entry : a.freep ∈ im.base :: F
  sorted : (im.base :: F).Pairwise (· < ·)
  spaced : Spaced a (im.base :: F)
  inHeap : ∀ p ∈ F, im.start ≤ p ∧ a.endOf p ≤ a.sz

/-- What a program has from `malloc` is memory from `sbrk` that the process still owns, disjoint from the
rest and from the headers. -/
structure Usable (im : Image) (s : Heap) : Prop where
  owned : ∀ b ∈ s.live, im.start ≤ b.1 ∧ b.1 + b.2 ≤ s.arena.sz
  disjoint : s.live.Pairwise fun b c => b.1 ≠ c.1 ∧ (b.1 + b.2 ≤ c.1 ∨ c.1 + c.2 ≤ b.1)
  list : s.arena.freep = 0 ∧ s.live = [] ∨ ∃ F, FreeList im s.arena F ∧
    ∀ b ∈ s.live, ∀ h, Header im F s.live h → h + HEADER ≤ b.1 ∨ b.1 + b.2 ≤ h

/-- Before the first request `freep` is null. -/
def Kept (im : Image) (s : Heap) : Prop :=
  s.arena.freep = 0 ∧ s.live = [] ∧ im.start ≤ s.arena.sz ∧ s.arena.sz ≤ im.start + MEMORY ∨
    ∃ F, Arranged im s.arena F s.live

/-- A block that does not overlap one in use has its header outside the bytes in use. -/
theorem header_outside {b : Nat × Nat} (hb : HEADER ≤ b.1 ∧ InHeap im a (b.1 - HEADER) ∧
    b.1 + b.2 ≤ a.endOf (b.1 - HEADER)) (hin : InHeap im a h) (hap : Apart a (b.1 - HEADER) h) :
    h + HEADER ≤ b.1 ∨ b.1 + b.2 ≤ h := by
  have hpos := hin.pos
  rcases hap with hle | hle
  · exact Or.inr (hb.2.2.trans hle)
  · refine Or.inl ?_
    simp only [Arena.endOf, HEADER] at *
    omega

theorem Ring.header_outside (hr : Ring im a F live) (him : im.Ok) {b : Nat × Nat} (hb : b ∈ live)
    (hh : Header im F live h) : h + HEADER ≤ b.1 ∨ b.1 + b.2 ≤ h := by
  have hbu := hr.used b hb
  rcases hh with rfl | hF | ⟨c, hc, rfl⟩
  · have h₁ := him.base_le
    have h₂ := hbu.2.1.start_le
    exact Or.inl (by omega)
  · exact Umalloc.header_outside hbu (hr.free h hF) (hr.apart b hb h hF)
  · by_cases hbc : b = c
    · subst hbc
      exact Or.inl (Nat.sub_add_cancel hbu.1).le
    · have hsymm : Std.Symm fun b c : Nat × Nat => Apart a (b.1 - HEADER) (c.1 - HEADER) :=
        ⟨fun _ _ hap => hap.symm⟩
      exact Umalloc.header_outside hbu (hr.used c hc).2.1 (hr.usedApart.forall hb hc hbc)

/-- What is kept is usable. -/
theorem Kept.usable {s : Heap} (him : im.Ok) (hk : Kept im s) : Usable im s := by
  rcases hk with ⟨hnull, hlive, hle, -⟩ | ⟨F, hr, hsp, hentry⟩
  · refine ⟨fun b hb => ?_, ?_, Or.inl ⟨hnull, hlive⟩⟩
    · rw [hlive] at hb
      exact absurd hb List.not_mem_nil
    · rw [hlive]
      exact .nil
  · refine ⟨fun b hb => ?_, hr.usedApart.imp_of_mem fun hb hc hap => ?_,
      Or.inr ⟨F, ⟨hr.circle, hentry, hr.sorted, hsp, fun p hp => ⟨(hr.free p hp).start_le, (hr.free p hp).le_sz⟩⟩,
        fun b hb h hh => hr.header_outside him hb hh⟩⟩
    · obtain ⟨h16, hin, hle⟩ := hr.used b hb
      exact ⟨hin.start_le.trans (Nat.sub_le ..), hle.trans hin.le_sz⟩
    · obtain ⟨hb16, hbin, hble⟩ := hr.used _ hb
      obtain ⟨hc16, hcin, hcle⟩ := hr.used _ hc
      refine ⟨fun heq => hap.ne hbin hcin (by rw [heq]), ?_⟩
      rcases hap with hle | hle
      · exact Or.inl ((hble.trans hle).trans (Nat.sub_le ..))
      · exact Or.inr ((hcle.trans hle).trans (Nat.sub_le ..))

/-- What `malloc` may ask for. -/
theorem asked_of_inInt {nbytes : BitVec 32} {s : Heap} (hint : (HeapOp.malloc nbytes room).InInt im s) :
    Asked im s.arena (nunits nbytes) room := by
  have hbound := nbytes.isLt
  rcases hint with hlt | ⟨hbig, hnone⟩
  · refine Or.inl ?_
    simp only [nunits, HEADER]
    omega
  · refine Or.inr ⟨?_, hnone⟩
    simp only [nunits, HEADER]
    omega

/-- The list that holds `base` only. -/
theorem arranged_base (him : im.Ok) (hptr : a.ptr im.base = im.base) (hsize : a.size im.base = 0)
    (hfreep : a.freep = im.base) (hle : im.start ≤ a.sz) (hmax : a.sz ≤ im.start + MEMORY) :
    Arranged im a [] [] := by
  have hbase := him.base_le
  refine ⟨⟨⟨hptr, trivial⟩, List.pairwise_singleton .., hsize, ?_, ?_, ?_, ?_, .nil, hle, hmax⟩,
    List.pairwise_singleton .., hfreep ▸ List.mem_cons_self⟩
  · simp only [HEADER] at hbase
    omega
  · exact fun p hp => absurd hp List.not_mem_nil
  · exact fun b hb => absurd hb List.not_mem_nil
  · exact fun b hb => absurd hb List.not_mem_nil

theorem malloc_kept (him : im.Ok) {nbytes : BitVec 32} {s : Heap}
    (hint : (HeapOp.malloc nbytes room).InInt im s) (hk : Kept im s) :
    ∃ r s', heapStep im (.malloc nbytes room) s = .ok (r, s') ∧ Kept im s' ∧ s.arena.sz ≤ s'.arena.sz := by
  have hask := asked_of_inInt hint
  rcases hk with ⟨hnull, hlive, hle, hmax⟩ | ⟨F, ha⟩
  · have ha : Arranged im { s.arena with
        ptr := Function.update s.arena.ptr im.base im.base
        size := Function.update s.arena.size im.base 0
        freep := im.base } [] [] :=
      arranged_base him (Function.update_self ..) (Function.update_self ..) rfl hle hmax
    obtain ⟨r, a', F', hrun, ha', hsz⟩ :=
      mallocLoop_spec him ha (nunits_pos nbytes) (le_nunits nbytes) (hask.congr rfl)
    refine ⟨r, ⟨a', _⟩, ?_, Or.inr ⟨F', ha'⟩, hsz⟩
    rw [heapStep, malloc, if_pos hnull, hlive]
    exact congrArg (fun x => x >>= _) hrun
  · have hne : s.arena.freep ≠ 0 := by
      have hpos := him.base_pos
      rcases List.mem_cons.mp ha.entry with h | h
      · omega
      · have := ha.ring.base_lt_of_mem h
        omega
    obtain ⟨r, a', F', hrun, ha', hsz⟩ :=
      mallocLoop_spec him ha (nunits_pos nbytes) (le_nunits nbytes) hask
    refine ⟨r, ⟨a', _⟩, ?_, Or.inr ⟨F', ha'⟩, hsz⟩
    rw [heapStep, malloc, if_neg hne]
    exact congrArg (fun x => x >>= _) hrun

theorem free_kept (him : im.Ok) {ap : Nat} {s : Heap} (hcall : (HeapOp.free ap).Callable s)
    (hk : Kept im s) :
    ∃ r s', heapStep im (.free ap) s = .ok (r, s') ∧ Kept im s' ∧ s.arena.sz ≤ s'.arena.sz := by
  obtain ⟨b, hb, rfl⟩ := hcall
  rcases hk with ⟨-, hlive, -, -⟩ | ⟨F, hr, hsp, hentry⟩
  · rw [hlive] at hb
    exact absurd hb List.not_mem_nil
  · obtain ⟨h16, hin, hle⟩ := hr.used b hb
    have hsub : (s.live.filter fun c => decide (c.1 ≠ b.1)).Sublist s.live := List.filter_sublist
    have hr' : Ring im s.arena F (s.live.filter fun c => decide (c.1 ≠ b.1)) :=
      ⟨hr.circle, hr.order, hr.base_size, hr.base_lt, hr.free, fun c hc => hr.used c (hsub.subset hc),
        fun c hc => hr.apart c (hsub.subset hc), hr.usedApart.sublist hsub, hr.start_le, hr.sz_le⟩
    have hsymm : Std.Symm fun b c : Nat × Nat => Apart s.arena (b.1 - HEADER) (c.1 - HEADER) :=
      ⟨fun _ _ hap => hap.symm⟩
    have hloose : Loose im s.arena F (s.live.filter fun c => decide (c.1 ≠ b.1)) (b.1 - HEADER) := by
      refine ⟨hin, fun p hp => hr.apart b hb p hp, fun c hc => ?_⟩
      obtain ⟨hc, hne⟩ := List.mem_filter.mp hc
      exact hr.usedApart.forall hb hc fun hbc => of_decide_eq_true hne (hbc ▸ rfl)
    obtain ⟨a', F', hrun, hring, hspaced, hentry', hsz, -⟩ := free_spec him hr' hsp hentry hloose
    rw [Nat.sub_add_cancel h16] at hrun
    refine ⟨none, ⟨a', _⟩, ?_, Or.inr ⟨F', hring, hspaced, hentry'⟩, hsz.ge⟩
    rw [heapStep, hrun]
    rfl

theorem use_kept (him : im.Ok) (words : Nat → Nat × Nat) {s : Heap} (hk : Kept im s) :
    ∃ r s', heapStep im (.use words) s = .ok (r, s') ∧ Kept im s' ∧ s.arena.sz ≤ s'.arena.sz := by
  refine ⟨none, _, rfl, ?_, le_rfl⟩
  rcases hk with hstart | ⟨F, hr, hsp, hentry⟩
  · exact Or.inl hstart
  · have hout : ∀ h, Header im F s.live h → inUser s.live h = false := by
      intro h hh
      rw [inUser, List.any_eq_false]
      intro b hb hin
      have := of_decide_eq_true hin
      rcases hr.header_outside him hb hh with hle | hle
      · omega
      · omega
    have hnode : ∀ p ∈ im.base :: F, inUser s.live p = false := by
      intro p hp
      rcases List.mem_cons.mp hp with rfl | hp
      · exact hout _ (Or.inl rfl)
      · exact hout _ (Or.inr (Or.inl hp))
    have hsize : ∀ h, inUser s.live h = false →
        (if inUser s.live h = true then (words h).2 else s.arena.size h) = s.arena.size h := fun h hh => by
      rw [hh]
      rfl
    have hptr : ∀ h, inUser s.live h = false →
        (if inUser s.live h = true then (words h).1 else s.arena.ptr h) = s.arena.ptr h := fun h hh => by
      rw [hh]
      rfl
    refine Or.inr ⟨F, hr.congr (fun p hp => hptr p (hnode p hp)) (fun p hp => hsize p (hnode p hp))
      (fun b hb => hsize _ (hout _ (Or.inr (Or.inr ⟨b, hb, rfl⟩)))) le_rfl hr.sz_le, ?_, hentry⟩
    exact hsp.imp_of_mem fun hp _ hlt => (endOf_congr (hsize _ (hnode _ hp))).trans_lt hlt

/-- **A step of a program** keeps the list, and the heap does not shrink. -/
theorem heapStep_kept (him : im.Ok) {o : HeapOp} {s : Heap} (hcall : o.Callable s) (hint : o.InInt im s)
    (hk : Kept im s) : ∃ r s', heapStep im o s = .ok (r, s') ∧ Kept im s' ∧ s.arena.sz ≤ s'.arena.sz := by
  cases o with
  | malloc nbytes room => exact malloc_kept him hint hk
  | free ap => exact free_kept him hcall hk
  | use words => exact use_kept him words hk

/-- **`malloc` returns usable, disjoint memory**, in every run of a program in which no request is for
`2 ^ 31` bytes or more. -/
theorem malloc_usable (im : Image) (him : im.Ok) (ptr size : Nat → Nat) (os : List HeapOp)
    (hmeets : Meets (heapStep im) (fun o s => o.Callable s ∧ o.InInt im s) os (initial im ptr size)) :
    ∃ rs s, run (heapStep im) os (initial im ptr size) = .ok (rs, s) ∧ Usable im s ∧
      ∀ o : HeapOp, o.Callable s → o.InInt im s → ∃ r s', heapStep im o s = .ok (r, s') ∧ Usable im s' ∧
        s.arena.sz ≤ s'.arena.sz ∧ ∀ nbytes room, o = .malloc nbytes room →
          s'.live = (r.map fun p => (p, nbytes.toNat)).toList ++ s.live := by
  have hstart : Kept im (initial im ptr size) := Or.inl ⟨rfl, rfl, le_rfl, Nat.le_add_right ..⟩
  obtain ⟨rs, s, u, hrun, -, hk⟩ := run_simulates (R := fun s (_ : Unit) => Kept im s)
    (A := fun _ _ _ _ => True) (fun o s _ hG hR => by
      obtain ⟨r, s', hstep, hk', -⟩ := heapStep_kept him hG.1 hG.2 hR
      exact ⟨r, s', (), hstep, trivial, hk'⟩) os (initial im ptr size) () hmeets hstart
  refine ⟨rs, s, hrun, hk.usable him, fun o hcall hint => ?_⟩
  obtain ⟨r, s', hstep, hk', hsz⟩ := heapStep_kept him hcall hint hk
  refine ⟨r, s', hstep, hk'.usable him, hsz, fun nbytes room ho => ?_⟩
  subst ho
  obtain ⟨⟨p, a⟩, -, hret⟩ := bind_eq_ok.mp hstep
  cases hret
  rfl

/-! ### `sbrk` and the kernel -/

/-- **`sbrk` does what `sys_sbrk` does**, for a process whose size is the break. -/
theorem sbrk_eq_sysSbrk {own : Nat → Vm.Owner} {lim : Nat → Nat} {s : Vm.Kernel} {pr : Vm.ProcId} {r : Nat}
    {x : Int} (hset : Vm.Settled own lim s) (hr : own r = .root pr) (hlo : -2 ^ 31 ≤ x) (hhi : x < 2 ^ 31)
    (hsz : a.sz = (s.procs pr).sz) (hmax : a.sz + x ≤ im.start + MEMORY) :
    ∃ res s', Vm.sysSbrk s pr r x true = .ok (res, s') ∧ (s'.nullAllocs = s.nullAllocs →
      ∃ room, sbrk im a x room = (res, { a with sz := (s'.procs pr).sz })) := by
  rcases lt_trichotomy x 0 with hneg | hzero | hpos
  · obtain ⟨s', own', lim', hrun, -, -, -, -, hres⟩ := Vm.growproc_shrink hset hr hlo hneg
    refine ⟨some (s.procs pr).sz, s', ?_, fun _ => ⟨true, ?_⟩⟩
    · rw [Vm.sysSbrk, if_pos (Or.inl rfl), hrun]
      rfl
    · rw [sbrk, if_neg fun h => absurd h.1 hneg.not_gt, hres.sz, if_pos rfl, hsz]
  · subst hzero
    refine ⟨some (s.procs pr).sz, s, by simp [Vm.sysSbrk, Vm.growproc], fun _ => ⟨true, ?_⟩⟩
    rw [sbrk, if_neg fun h => absurd h.1 (lt_irrefl 0), Vm.newSize, hsz]
    simp
  · obtain ⟨done, s', hrun, -, hpost⟩ := Vm.growproc_grow hset hr hpos hhi
    refine ⟨if done then some (s.procs pr).sz else none, s', ?_, fun hnull => ⟨done, ?_⟩⟩
    · rw [Vm.sysSbrk, if_pos (Or.inl rfl), hrun]
      cases done with
      | false => rfl
      | true => rfl
    · obtain ⟨own', lim', -, hiff, hok, hfail⟩ := hpost hnull
      cases done with
      | false =>
          rw [sbrk, if_pos ⟨hpos, Or.inl rfl⟩, (hfail rfl).procs.sz, ← hsz]
          rfl
      | true =>
          have hle := (hiff.mp rfl).1
          rw [Vm.newSize, if_pos (by omega)] at hle
          have hnot : ¬ (0 < x ∧ (true = false ∨ (a.sz : Int) + x > Vm.TRAPFRAME ∨
              a.sz + x > im.start + MEMORY)) := by
            rintro ⟨-, h | h | h⟩
            · exact absurd h (by decide)
            · omega
            · omega
          have hnew : (s'.procs pr).sz = Vm.newSize (s.procs pr).sz x :=
            ((hok rfl).sz pr).trans (if_pos rfl)
          rw [sbrk, if_neg hnot, hnew, hsz]
          rfl

/-! A program of two pages. -/

def tinyImage : Image := ⟨4096, 8192⟩

def tinyStart : Heap := initial tinyImage (fun _ => 0) fun _ => 0

/-- The request of `2 ^ 32 - 1` bytes gets 16 bytes from `sbrk`, which the header takes. -/
theorem malloc_unusable : ∃ s, heapStep tinyImage (.malloc 0xFFFFFFFF true) tinyStart = .ok (some 8208, s) ∧
    ¬ Usable tinyImage s := by
  have hrun : (heapStep tinyImage (.malloc 0xFFFFFFFF true) tinyStart).toOption.map
      (fun x => (x.1, x.2.live, x.2.arena.sz)) = some (some 8208, [(8208, 0xFFFFFFFF)], 8208) := by
    decide +kernel
  cases hstep : heapStep tinyImage (.malloc 0xFFFFFFFF true) tinyStart with
  | error e =>
      rw [hstep] at hrun
      cases hrun
  | ok x =>
      obtain ⟨r, s⟩ := x
      rw [hstep] at hrun
      simp only [Except.toOption, Option.map_some, Option.some.injEq, Prod.mk.injEq] at hrun
      obtain ⟨rfl, hlive, hsz⟩ := hrun
      refine ⟨s, rfl, fun h => ?_⟩
      have howned := (h.owned (8208, 0xFFFFFFFF) (hlive ▸ List.mem_cons_self)).2
      rw [hsz] at howned
      exact absurd howned (by decide)

/-- Three blocks, the first of which is freed; the last request is more than there is. -/
def tinyOps : List HeapOp :=
  [.malloc 100 true, .malloc 65536 true, .use fun h => (h, 7), .free 73616, .malloc 40 true,
    .malloc 0x7FFFFFE0 true]

theorem malloc_usable_tiny : ∃ s, run (heapStep tinyImage) tinyOps tinyStart =
      .ok ([some 73616, some 73744, none, none, some 73680, none], s) ∧ Usable tinyImage s := by
  obtain ⟨rs, s, hrun, husable, -⟩ := malloc_usable tinyImage ⟨by decide, by decide, by decide⟩ (fun _ => 0)
    (fun _ => 0) tinyOps (by decide +kernel)
  obtain ⟨s', hrun'⟩ : ∃ s', run (heapStep tinyImage) tinyOps tinyStart =
      .ok ([some 73616, some 73744, none, none, some 73680, none], s') :=
    eq_ok_of_result (by decide +kernel)
  cases hrun.symm.trans hrun'
  exact ⟨s, hrun', husable⟩

end Xv6.Umalloc
