import Xv6.Umalloc.Defs

/-!
# Umalloc — Ring

The free list and the blocks in use, and `free`.

* `Ring`: the free list is a circle in the order of addresses; the blocks in use, and those that are
  free, do not overlap.
* `Ring.insert`, `Ring.join`: a block is put in, and two blocks become one.
* `free_spec`: `free` puts a block back, which grows together with those beside it.
-/

namespace Xv6.Umalloc
open Xv6.Lib

variable {im : Image} {a a' : Arena} {F : List Nat} {live : List (Nat × Nat)} {h k p q bp n : Nat}

/-- The address after block `h`. -/
def Arena.endOf (a : Arena) (h : Nat) : Nat := h + HEADER * a.size h

/-- Blocks `h` and `k` do not overlap. -/
def Apart (a : Arena) (h k : Nat) : Prop := a.endOf h ≤ k ∨ a.endOf k ≤ h

/-- Block `h` lies in the memory that `sbrk` has given. -/
structure InHeap (im : Image) (a : Arena) (h : Nat) : Prop where
  start_le : im.start ≤ h
  pos : 0 < a.size h
  le_sz : a.endOf h ≤ a.sz

/-- The free blocks are `F`, and those in use are `live`. -/
structure Ring (im : Image) (a : Arena) (F : List Nat) (live : List (Nat × Nat)) : Prop where
  circle : Follows a.ptr (im.base :: F) im.base
  order : (im.base :: F).Pairwise fun p q => a.endOf p ≤ q
  base_size : a.size im.base = 0
  base_lt : im.base < im.start
  free : ∀ p ∈ F, InHeap im a p
  used : ∀ b ∈ live, HEADER ≤ b.1 ∧ InHeap im a (b.1 - HEADER) ∧ b.1 + b.2 ≤ a.endOf (b.1 - HEADER)
  apart : ∀ b ∈ live, ∀ p ∈ F, Apart a (b.1 - HEADER) p
  usedApart : live.Pairwise fun b c => Apart a (b.1 - HEADER) (c.1 - HEADER)
  start_le : im.start ≤ a.sz
  sz_le : a.sz ≤ im.start + MEMORY

/-- Block `bp` is neither free nor in use. -/
structure Loose (im : Image) (a : Arena) (F : List Nat) (live : List (Nat × Nat)) (bp : Nat) : Prop where
  inHeap : InHeap im a bp
  free : ∀ p ∈ F, Apart a bp p
  used : ∀ b ∈ live, Apart a bp (b.1 - HEADER)

theorem InHeap.lt_endOf (hin : InHeap im a h) : h < a.endOf h := by
  have := hin.pos
  simp only [Arena.endOf, HEADER]
  omega

/-- Blocks depend on their sizes and on the break. -/
theorem InHeap.congr (hin : InHeap im a h) (hs : a'.size h = a.size h) (hsz : a.sz ≤ a'.sz) :
    InHeap im a' h := by
  refine ⟨hin.start_le, hs ▸ hin.pos, ?_⟩
  rw [Arena.endOf, hs]
  exact hin.le_sz.trans hsz

theorem endOf_congr (hs : a'.size h = a.size h) : a'.endOf h = a.endOf h := by
  rw [Arena.endOf, Arena.endOf, hs]

theorem Apart.symm (hap : Apart a h k) : Apart a k h := Or.symm hap

theorem Apart.ne (hap : Apart a h k) (hh : InHeap im a h) (hk : InHeap im a k) : h ≠ k := by
  have h₁ := hh.lt_endOf
  have h₂ := hk.lt_endOf
  rintro rfl
  rcases hap with hle | hle
  · omega
  · omega

/-- The size of a block, and of two together, is a `uint`. -/
theorem InHeap.size_lt (hin : InHeap im a h) (hsz : a.sz ≤ im.start + MEMORY) : a.size h < 2 ^ 31 := by
  have h₁ := hin.start_le
  have h₂ := hin.le_sz
  simp only [Arena.endOf, HEADER, MEMORY, Vm.PHYSTOP, KERNBASE, Raid.MAX_SWAP, Raid.PGSIZE] at *
  omega

theorem Ring.base_lt_of_mem (hr : Ring im a F live) (hp : p ∈ F) : im.base < p :=
  hr.base_lt.trans_le (hr.free p hp).start_le

/-- Addresses in the free list go up. -/
theorem Ring.sorted (hr : Ring im a F live) : (im.base :: F).Pairwise (· < ·) := by
  refine List.pairwise_cons.mpr ⟨fun p hp => hr.base_lt_of_mem hp, ?_⟩
  exact (List.pairwise_cons.mp hr.order).2.imp_of_mem fun hp _ hle =>
    (hr.free _ hp).lt_endOf.trans_le hle

theorem Ring.nodup (hr : Ring im a F live) : (im.base :: F).Nodup :=
  hr.sorted.imp fun hlt => hlt.ne

/-- Nothing depends on what is stored elsewhere, and memory may be added. -/
theorem Ring.congr (hr : Ring im a F live) (hptr : ∀ p ∈ im.base :: F, a'.ptr p = a.ptr p)
    (hsize : ∀ p ∈ im.base :: F, a'.size p = a.size p)
    (hused : ∀ b ∈ live, a'.size (b.1 - HEADER) = a.size (b.1 - HEADER)) (hsz : a.sz ≤ a'.sz)
    (hmax : a'.sz ≤ im.start + MEMORY) : Ring im a' F live := by
  refine ⟨hr.circle.congr hptr, hr.order.imp_of_mem fun hp _ hle => ?_,
    (hsize _ List.mem_cons_self).trans hr.base_size, hr.base_lt,
    fun p hp => (hr.free p hp).congr (hsize p (List.mem_cons_of_mem _ hp)) hsz, fun b hb => ?_,
    fun b hb p hp => ?_, hr.usedApart.imp_of_mem fun hb hc hap => ?_, hr.start_le.trans hsz, hmax⟩
  · rwa [endOf_congr (hsize _ hp)]
  · obtain ⟨h16, hin, hle⟩ := hr.used b hb
    exact ⟨h16, hin.congr (hused b hb) hsz, (endOf_congr (hused b hb)).symm ▸ hle⟩
  · rw [Apart, endOf_congr (hused b hb), endOf_congr (hsize p (List.mem_cons_of_mem _ hp))]
    exact hr.apart b hb p hp
  · rwa [Apart, endOf_congr (hused _ hb), endOf_congr (hused _ hc)]

/-- The list is not longer than the memory. -/
theorem length_le_of_sorted {L : List Nat} {N : Nat} (hs : L.Pairwise (· < ·)) (hN : ∀ p ∈ L, p < N) :
    L.length ≤ N := by
  have hnd : L.Nodup := hs.imp fun hlt => hlt.ne
  have hsub : L.toFinset ⊆ Finset.range N := fun p hp =>
    Finset.mem_range.mpr (hN p (List.mem_toFinset.mp hp))
  have hcard := Finset.card_le_card hsub
  rwa [List.toFinset_card_of_nodup hnd, Finset.card_range] at hcard

theorem Ring.length_lt (him : im.Ok) (hr : Ring im a F live) : 2 * F.length + 4 < TURNS := by
  have hlen := length_le_of_sorted (List.pairwise_cons.mp hr.sorted).2
    fun p hp => (hr.free p hp).lt_endOf.trans_le (hr.free p hp).le_sz
  have h₁ := hr.sz_le
  have h₂ := him.start_le
  rw [TURNS]
  simp only [MEMORY, Vm.PHYSTOP, KERNBASE, Raid.MAX_SWAP, Raid.PGSIZE, Vm.TRAPFRAME, Vm.TRAMPOLINE,
    Vm.MAXVA] at *
  omega

/-- The circle, entered at any of its nodes. -/
theorem Ring.rotate (hr : Ring im a F live) (hp : p ∈ im.base :: F) :
    ∃ R, (p :: R).Perm (im.base :: F) ∧ Follows a.ptr (p :: R) p := by
  obtain ⟨L₁, L₂, hL⟩ := List.append_of_mem hp
  refine ⟨L₂ ++ L₁, ?_, Follows.rotate ?_⟩
  · have hperm : (p :: L₂ ++ L₁).Perm (L₁ ++ p :: L₂) := List.perm_append_comm
    rw [hL]
    exact hperm
  · have hcircle := hr.circle
    rw [hL] at hcircle
    cases L₁ with
    | nil =>
        cases hL
        exact hcircle
    | cons b L₁ =>
        cases hL
        exact hcircle

/-- The place of an address in a list that goes up. -/
theorem exists_place : ∀ {L : List Nat} {x : Nat}, (x :: L).Pairwise (· < ·) → x < bp → bp ∉ L →
    ∃ L₁ p L₂, x :: L = L₁ ++ p :: L₂ ∧ p < bp ∧ (∀ w ∈ L₁, w < p) ∧ ∀ w ∈ L₂, bp < w
  | [], x, _, hx, _ => ⟨[], x, [], rfl, hx, fun w hw => absurd hw List.not_mem_nil,
      fun w hw => absurd hw List.not_mem_nil⟩
  | y :: L, x, hs, hx, hnot => by
      have hy : bp ≠ y := List.ne_of_not_mem_cons hnot
      have hnot : bp ∉ L := List.not_mem_of_not_mem_cons hnot
      obtain ⟨hxall, hs⟩ := List.pairwise_cons.mp hs
      rcases Nat.lt_or_ge y bp with hlt | hge
      · obtain ⟨L₁, p, L₂, hL, hp, h₁, h₂⟩ := exists_place hs hlt hnot
        refine ⟨x :: L₁, p, L₂, by rw [List.cons_append, hL], hp, fun w hw => ?_, h₂⟩
        rcases List.mem_cons.mp hw with rfl | hw
        · exact hxall p (hL ▸ List.mem_append_right _ List.mem_cons_self)
        · exact h₁ w hw
      · refine ⟨[], x, y :: L, rfl, hx, fun w hw => absurd hw List.not_mem_nil, fun w hw => ?_⟩
        have hylt : bp < y := lt_of_le_of_ne hge hy
        rcases List.mem_cons.mp hw with rfl | hw
        · exact hylt
        · exact hylt.trans ((List.pairwise_cons.mp hs).1 w hw)

/-! ### A block is put in -/

variable {L₁ L₂ : List Nat}

/-- Block `bp` is put in after `p`. -/
def insertAfter (a : Arena) (p bp : Nat) : Arena :=
  { a with ptr := Function.update (Function.update a.ptr bp (a.ptr p)) p bp }

/-- A list that starts with `base` and is changed after `p` starts with `base`. -/
theorem exists_tail (hL : im.base :: F = L₁ ++ p :: L₂) (X : List Nat) :
    ∃ F', im.base :: F' = L₁ ++ p :: X ∧ ∀ w ∈ F', w ∈ X ∨ w ∈ F := by
  cases L₁ with
  | nil =>
      cases hL
      exact ⟨X, rfl, fun w hw => Or.inl hw⟩
  | cons b L₁ =>
      cases hL
      refine ⟨L₁ ++ p :: X, rfl, fun w hw => ?_⟩
      rcases List.mem_append.mp hw with hw | hw
      · exact Or.inr (List.mem_append_left _ hw)
      · rcases List.mem_cons.mp hw with rfl | hw
        · exact Or.inr (List.mem_append_right _ List.mem_cons_self)
        · exact Or.inl hw

/-- A loose block does not overlap the nodes below and above it. -/
theorem Loose.order (hl : Loose im a F live bp) (hr : Ring im a F live) {w : Nat} (hw : w ∈ im.base :: F) :
    (w < bp → a.endOf w ≤ bp) ∧ (bp < w → a.endOf bp ≤ w) := by
  rcases List.mem_cons.mp hw with rfl | hw
  · have hend : a.endOf im.base = im.base := by rw [Arena.endOf, hr.base_size, Nat.mul_zero, Nat.add_zero]
    have := hl.inHeap.start_le
    have := hr.base_lt
    exact ⟨fun h => hend.le.trans h.le, fun h => absurd h (by omega)⟩
  · have h₁ := (hr.free w hw).lt_endOf
    have h₂ := hl.inHeap.lt_endOf
    rcases hl.free w hw with hle | hle
    · exact ⟨fun h => absurd h (by omega), fun _ => hle⟩
    · exact ⟨fun _ => hle, fun h => absurd h (by omega)⟩

theorem Ring.insert (hr : Ring im a F live) (hl : Loose im a F live bp)
    (hL : im.base :: F = L₁ ++ p :: L₂) (hp : p < bp) (h₁ : ∀ w ∈ L₁, w < p) (h₂ : ∀ w ∈ L₂, bp < w) :
    ∃ F', im.base :: F' = L₁ ++ p :: bp :: L₂ ∧ Ring im (insertAfter a p bp) F' live := by
  have hcircle := hr.circle
  have horder := hr.order
  rw [hL] at hcircle horder
  obtain ⟨F', hF', hmem⟩ := exists_tail hL (bp :: L₂)
  have hin : ∀ w ∈ L₁ ++ p :: L₂, w ∈ im.base :: F := fun w hw => hL ▸ hw
  have hfree : ∀ w ∈ F', w = bp ∨ w ∈ F := by
    intro w hw
    rcases hmem w hw with hw | hw
    · rcases List.mem_cons.mp hw with rfl | hw
      · exact Or.inl rfl
      · rcases List.mem_cons.mp (hin w (List.mem_append_right _ (List.mem_cons_of_mem p hw))) with rfl | hw'
        · have := h₂ _ hw
          have := hr.base_lt
          have := hl.inHeap.start_le
          omega
        · exact Or.inr hw'
    · exact Or.inr hw
  refine ⟨F', hF', ?_, ?_, hr.base_size, hr.base_lt, fun w hw => ?_, fun b hb => ?_, fun b hb w hw => ?_,
    hr.usedApart, hr.start_le, hr.sz_le⟩
  · rw [hF']
    have hbp : (insertAfter a p bp).ptr bp = a.ptr p := by
      rw [insertAfter]
      exact (Function.update_of_ne hp.ne' ..).trans (Function.update_self ..)
    refine hcircle.splice (fun w hw => ?_) (Function.update_self ..) ⟨hbp.trans hcircle.next_eq, ?_⟩
    · have := h₁ w hw
      exact (Function.update_of_ne (by omega) ..).trans (Function.update_of_ne (by omega) ..)
    · refine (follows_append.mp hcircle).2.2.congr fun w hw => ?_
      have := h₂ w hw
      exact (Function.update_of_ne (by omega) ..).trans (Function.update_of_ne (by omega) ..)
  · rw [hF']
    obtain ⟨ho₁, ho₂, ho₁₂⟩ := List.pairwise_append.mp horder
    obtain ⟨hpL, ho₂⟩ := List.pairwise_cons.mp ho₂
    refine List.pairwise_append.mpr ⟨ho₁, List.pairwise_cons.mpr ⟨fun w hw => ?_,
      List.pairwise_cons.mpr ⟨fun w hw => ?_, ho₂⟩⟩, fun v hv w hw => ?_⟩
    · rcases List.mem_cons.mp hw with rfl | hw
      · exact (hl.order hr (hin p (by simp))).1 hp
      · exact hpL w hw
    · exact (hl.order hr (hin w (by simp [hw]))).2 (h₂ w hw)
    · rcases List.mem_cons.mp hw with rfl | hw
      · exact ho₁₂ v hv w List.mem_cons_self
      · rcases List.mem_cons.mp hw with rfl | hw
        · exact (hl.order hr (hin v (by simp [hv]))).1 ((h₁ v hv).trans hp)
        · exact ho₁₂ v hv w (List.mem_cons_of_mem p hw)
  · rcases hfree w hw with rfl | hw
    · exact hl.inHeap.congr rfl le_rfl
    · exact (hr.free w hw).congr rfl le_rfl
  · obtain ⟨h16, hin, hle⟩ := hr.used b hb
    exact ⟨h16, hin.congr rfl le_rfl, hle⟩
  · rcases hfree w hw with rfl | hw
    · exact (hl.used b hb).symm
    · exact hr.apart b hb w hw

/-! ### Two blocks become one -/

/-- Block `p` takes up the block `q` after it. -/
def join (a : Arena) (p q : Nat) : Arena :=
  { a with
    size := Function.update a.size p ((a.size p + a.size q) % 2 ^ 32)
    ptr := Function.update a.ptr p (a.ptr q) }

theorem join_size (hr : Ring im a F live) (hp : p ∈ F) (hq : q ∈ F) (h : Nat) :
    (join a p q).size h = if h = p then a.size p + a.size q else a.size h := by
  have h₁ := (hr.free p hp).size_lt hr.sz_le
  have h₂ := (hr.free q hq).size_lt hr.sz_le
  by_cases hh : h = p
  · rw [if_pos hh, hh]
    refine (Function.update_self ..).trans (Nat.mod_eq_of_lt ?_)
    omega
  · rw [if_neg hh]
    exact Function.update_of_ne hh ..

theorem join_endOf (hr : Ring im a F live) (hp : p ∈ F) (hq : q ∈ F) (htouch : a.endOf p = q) (h : Nat) :
    (join a p q).endOf h = if h = p then a.endOf q else a.endOf h := by
  rw [Arena.endOf, join_size hr hp hq]
  by_cases hh : h = p
  · rw [if_pos hh, if_pos hh, hh]
    simp only [Arena.endOf, HEADER] at *
    omega
  · rw [if_neg hh, if_neg hh]
    rfl

theorem Ring.join (hr : Ring im a F live) (hL : im.base :: F = L₁ ++ p :: q :: L₂) (hpF : p ∈ F)
    (htouch : a.endOf p = q) :
    ∃ F', im.base :: F' = L₁ ++ p :: L₂ ∧ Ring im (join a p q) F' live := by
  have hcircle := hr.circle
  have horder := hr.order
  have hlt := hr.sorted
  rw [hL] at hcircle horder hlt
  have hqF : q ∈ F := by
    have hqL : q ∈ im.base :: F := hL ▸ by simp
    rcases List.mem_cons.mp hqL with h | h
    · have := (hr.free p hpF).lt_endOf
      have := hr.base_lt_of_mem hpF
      omega
    · exact h
  have hend := join_endOf hr hpF hqF htouch
  have hsize := join_size hr hpF hqF
  have hpq : p < q := htouch ▸ (hr.free p hpF).lt_endOf
  have hused : ∀ b ∈ live, b.1 - HEADER ≠ p := fun b hb =>
    (hr.apart b hb p hpF).ne (hr.used b hb).2.1 (hr.free p hpF)
  obtain ⟨F', hF', hmem⟩ := exists_tail hL L₂
  obtain ⟨hlt₁, hlt₂, hlt₁₂⟩ := List.pairwise_append.mp hlt
  have hqL : ∀ w ∈ L₂, q < w := (List.pairwise_cons.mp (List.pairwise_cons.mp hlt₂).2).1
  have h₁p : ∀ w ∈ L₁, w < p := fun w hw => hlt₁₂ w hw p List.mem_cons_self
  have hfree : ∀ w ∈ F', w ∈ F := by
    intro w hw
    rcases hmem w hw with hw | hw
    · have hwL : w ∈ im.base :: F := hL ▸ by simp [hw]
      rcases List.mem_cons.mp hwL with rfl | hw'
      · have := hqL _ hw
        have := hr.base_lt_of_mem hqF
        omega
      · exact hw'
    · exact hw
  refine ⟨F', hF', ?_, ?_, ?_, hr.base_lt, fun w hw => ?_, fun b hb => ?_, fun b hb w hw => ?_, ?_,
    hr.start_le, hr.sz_le⟩
  · rw [hF']
    obtain ⟨-, -, hq, hcircle₂⟩ := follows_append.mp hcircle
    refine hcircle.splice (fun w hw => Function.update_of_ne (h₁p w hw).ne ..)
      ((Function.update_self ..).trans hq) (hcircle₂.congr fun w hw => ?_)
    exact Function.update_of_ne (hpq.trans (hqL w hw)).ne' ..
  · rw [hF']
    obtain ⟨ho₁, ho₂, ho₁₂⟩ := List.pairwise_append.mp horder
    obtain ⟨-, ho₂⟩ := List.pairwise_cons.mp ho₂
    obtain ⟨hqle, ho₂⟩ := List.pairwise_cons.mp ho₂
    refine List.pairwise_append.mpr ⟨ho₁.imp_of_mem fun hv _ hle => ?_,
      List.pairwise_cons.mpr ⟨fun w hw => ?_, ho₂.imp_of_mem fun hv _ hle => ?_⟩, fun v hv w hw => ?_⟩
    · rwa [hend, if_neg (h₁p _ hv).ne]
    · rw [hend, if_pos rfl]
      exact hqle w hw
    · rwa [hend, if_neg (hpq.trans (hqL _ hv)).ne']
    · rw [hend, if_neg (h₁p _ hv).ne]
      rcases List.mem_cons.mp hw with rfl | hw
      · exact ho₁₂ v hv w List.mem_cons_self
      · exact ho₁₂ v hv w (by simp [hw])
  · rw [hsize, if_neg (hr.base_lt_of_mem hpF).ne]
    exact hr.base_size
  · by_cases hw' : w = p
    · refine ⟨(hr.free w (hfree w hw)).start_le, ?_, ?_⟩
      · rw [hsize, if_pos hw']
        exact Nat.add_pos_left (hr.free p hpF).pos _
      · rw [hend, if_pos hw']
        exact (hr.free q hqF).le_sz
    · exact (hr.free w (hfree w hw)).congr ((hsize w).trans (if_neg hw')) le_rfl
  · obtain ⟨h16, hin, hle⟩ := hr.used b hb
    refine ⟨h16, hin.congr ((hsize _).trans (if_neg (hused b hb))) le_rfl, ?_⟩
    rwa [hend, if_neg (hused b hb)]
  · rw [Apart, hend, hend, if_neg (hused b hb)]
    by_cases hw' : w = p
    · have hbin := (hr.used b hb).2.1.lt_endOf
      rw [if_pos hw', hw']
      rcases hr.apart b hb p hpF with hle | hle
      · exact Or.inl hle
      · rcases hr.apart b hb q hqF with hle' | hle'
        · omega
        · exact Or.inr hle'
    · rw [if_neg hw']
      exact hr.apart b hb w (hfree w hw)
  · refine hr.usedApart.imp_of_mem fun hb hc hap => ?_
    rwa [Apart, hend, hend, if_neg (hused _ hb), if_neg (hused _ hc)]

/-! ### `free` -/

/-- The list has gaps between its blocks. -/
def Spaced (a : Arena) (L : List Nat) : Prop := L.Pairwise fun p q => a.endOf p < q

/-- The loop of `free` ends at the node below the block, and at no other. -/
theorem between_iff (hr : Ring im a F live) (hL : im.base :: F = L₁ ++ p :: L₂) (hp : p < bp)
    (h₂ : ∀ w ∈ L₂, bp < w) {w : Nat} (hw : w ∈ im.base :: F) : between a bp w = true ↔ w = p := by
  have hcircle := hr.circle
  have hlt := hr.sorted
  have hbase : im.base ≤ p := by
    have hpL : p ∈ im.base :: F := hL ▸ by simp
    rcases List.mem_cons.mp hpL with h | h
    · exact h.ge
    · exact (hr.base_lt_of_mem h).le
  rw [hL] at hcircle hlt hw
  obtain ⟨hlt₁, hlt₂, hlt₁₂⟩ := List.pairwise_append.mp hlt
  simp only [between, Bool.or_eq_true, decide_eq_true_eq]
  rcases List.mem_append.mp hw with hw | hw
  · -- below `p` the next node is not above `p`
    obtain ⟨A, B, rfl⟩ := List.append_of_mem hw
    have hnext : a.ptr w = (B ++ p :: L₂).headD im.base := by
      have hcircle' : Follows a.ptr (A ++ w :: (B ++ p :: L₂)) im.base := by simpa using hcircle
      exact hcircle'.next_eq
    have hwp : w < p := hlt₁₂ w hw p List.mem_cons_self
    have hle : w < a.ptr w ∧ a.ptr w ≤ p := by
      rw [hnext]
      cases B with
      | nil => exact ⟨hwp, le_rfl⟩
      | cons c B =>
          refine ⟨?_, (hlt₁₂ c (by simp) p List.mem_cons_self).le⟩
          exact (List.pairwise_cons.mp (List.pairwise_append.mp hlt₁).2.1).1 c List.mem_cons_self
    omega
  · rcases List.mem_cons.mp hw with rfl | hw
    · rw [hcircle.next_eq]
      refine iff_of_true ?_ rfl
      cases L₂ with
      | nil =>
          rw [List.headD_nil]
          omega
      | cons c L₂ =>
          have := h₂ c List.mem_cons_self
          rw [List.headD_cons]
          omega
    · -- above the block the next node is above it, or `base`
      have hbw := h₂ w hw
      obtain ⟨A, B, rfl⟩ := List.append_of_mem hw
      have hnext : a.ptr w = B.headD im.base := by
        have hcircle' : Follows a.ptr ((L₁ ++ p :: A) ++ w :: B) im.base := by simpa using hcircle
        exact hcircle'.next_eq
      refine iff_of_false ?_ (hp.trans hbw).ne'
      rw [hnext]
      cases B with
      | nil =>
          rw [List.headD_nil]
          omega
      | cons c B =>
          have := (List.pairwise_cons.mp (List.pairwise_append.mp
            (List.pairwise_cons.mp hlt₂).2).2.1).1 c List.mem_cons_self
          rw [List.headD_cons]
          omega

/-- The block with the one above it. -/
def above (a : Arena) (bp p : Nat) : Arena :=
  if a.endOf bp = a.ptr p then join (insertAfter a p bp) bp (a.ptr p) else insertAfter a p bp

/-- `joinAbove` stores what is in the block, and leaves the pointer of `p` to `joinBelow`. -/
theorem above_eq (hp : p ≠ bp) (hq : a.endOf bp = a.ptr p → a.ptr p ≠ p ∧ a.ptr p ≠ bp) :
    above a bp p = { joinAbove a bp p with ptr := Function.update (joinAbove a bp p).ptr p bp } := by
  by_cases htouch : bp + HEADER * a.size bp = a.ptr p
  · obtain ⟨hqp, hqb⟩ := hq htouch
    have hptr : Function.update (Function.update a.ptr bp (a.ptr p)) p bp (a.ptr p) = a.ptr (a.ptr p) :=
      (Function.update_of_ne hqp ..).trans (Function.update_of_ne hqb ..)
    rw [above, Arena.endOf, if_pos htouch, joinAbove, if_pos htouch, join, insertAfter]
    simp only [hptr]
    rw [Function.update_comm hp.symm, Function.update_idem, Function.update_comm hp]
  · rw [above, Arena.endOf, if_neg htouch, joinAbove, if_neg htouch, insertAfter]

/-- What `free` stores is a block put in, and joined with those beside it. -/
theorem joinBelow_joinAbove (hp : p ≠ bp) (hq : a.endOf bp = a.ptr p → a.ptr p ≠ p ∧ a.ptr p ≠ bp) :
    joinBelow (joinAbove a bp p) bp p =
      if a.endOf p = bp then join (above a bp p) p bp else above a bp p := by
  have hsize : (joinAbove a bp p).size p = a.size p := by
    rw [joinAbove]
    split
    · exact Function.update_of_ne hp ..
    · rfl
  rw [joinBelow, hsize, above_eq hp hq, join, Arena.endOf]
  by_cases htouch : p + HEADER * a.size p = bp
  · have hptr : Function.update (joinAbove a bp p).ptr p bp bp = (joinAbove a bp p).ptr bp :=
      Function.update_of_ne hp.symm ..
    rw [if_pos htouch, if_pos htouch]
    simp only [hptr, hsize, Function.update_idem]
  · rw [if_neg htouch, if_neg htouch]

/-- The block put in, with the one above it: it ends before the next one. -/
theorem above_spec (hr : Ring im a F live) (hsp : Spaced a (im.base :: F)) (hl : Loose im a F live bp)
    (hL : im.base :: F = L₁ ++ p :: L₂) (hp : p < bp) (h₁ : ∀ w ∈ L₁, w < p) (h₂ : ∀ w ∈ L₂, bp < w) :
    ∃ F' M, im.base :: F' = L₁ ++ p :: bp :: M ∧ Ring im (above a bp p) F' live ∧
      Spaced (above a bp p) (bp :: M) ∧ a.size bp ≤ (above a bp p).size bp ∧
      (∀ h, h ≠ bp → (above a bp p).size h = a.size h) ∧ (above a bp p).sz = a.sz := by
  obtain ⟨F₁, hF₁, hr₁⟩ := hr.insert hl hL hp h₁ h₂
  have hcircle := hr.circle
  rw [hL] at hcircle
  rw [hL] at hsp
  have hnext := hcircle.next_eq
  have hsp₂ : Spaced a L₂ := (List.pairwise_cons.mp (List.pairwise_append.mp hsp).2.1).2
  have hends : ∀ w ∈ L₂, a.endOf bp ≤ w := fun w hw => (hl.order hr (hL ▸ by simp [hw])).2 (h₂ w hw)
  by_cases htouch : a.endOf bp = a.ptr p
  · rw [above, if_pos htouch]
    cases L₂ with
    | nil =>
        -- `base` is not above the block
        exfalso
        have := hl.inHeap.lt_endOf
        have := hl.inHeap.start_le
        have := hr.base_lt
        rw [hnext, List.headD_nil] at htouch
        omega
    | cons q M =>
        rw [List.headD_cons] at hnext
        rw [hnext] at htouch ⊢
        have hmem : ∀ w, w = bp ∨ w = q → w ∈ F₁ := by
          intro w hw
          have hwL : w ∈ im.base :: F₁ := hF₁ ▸ by rcases hw with rfl | rfl <;> simp
          rcases List.mem_cons.mp hwL with h | h
          · have := hl.inHeap.start_le
            have := hr.base_lt
            have := h₂ q List.mem_cons_self
            omega
          · exact h
        have hbp := hmem bp (Or.inl rfl)
        have hq := hmem q (Or.inr rfl)
        have hF₁' : im.base :: F₁ = (L₁ ++ [p]) ++ bp :: q :: M := by simpa using hF₁
        obtain ⟨F', hF', hr'⟩ := hr₁.join hF₁' hbp htouch
        have hend := join_endOf hr₁ hbp hq htouch
        have hsize := join_size hr₁ hbp hq
        obtain ⟨hqM, hM⟩ := List.pairwise_cons.mp hsp₂
        refine ⟨F', M, by simpa using hF', hr', List.pairwise_cons.mpr ⟨fun w hw => ?_, ?_⟩, ?_,
          fun h hh => (hsize h).trans (if_neg hh), rfl⟩
        · rw [hend, if_pos rfl]
          exact hqM w hw
        · refine hM.imp_of_mem fun hv _ hlt => ?_
          rw [hend, if_neg (h₂ _ (List.mem_cons_of_mem q hv)).ne']
          exact hlt
        · rw [hsize, if_pos rfl]
          exact Nat.le_add_right ..
  · rw [above, if_neg htouch]
    refine ⟨F₁, L₂, hF₁, hr₁, List.pairwise_cons.mpr ⟨fun w hw => ?_, hsp₂⟩, le_rfl, fun _ _ => rfl, rfl⟩
    cases L₂ with
    | nil => exact absurd hw List.not_mem_nil
    | cons q M =>
        rw [hnext, List.headD_cons] at htouch
        have hq : a.endOf bp < q := lt_of_le_of_ne (hends q List.mem_cons_self) htouch
        rcases List.mem_cons.mp hw with rfl | hw
        · exact hq
        · have hqF : q < w := by
            have hlt := hr.sorted
            rw [hL] at hlt
            exact (List.pairwise_cons.mp (List.pairwise_cons.mp (List.pairwise_append.mp hlt).2.1).2).1 w hw
          exact hq.trans hqF

/-- The part of the list after `p` is replaced. -/
theorem Spaced.splice {X : List Nat} (hsp : Spaced a (L₁ ++ p :: L₂))
    (hsame : ∀ w ∈ L₁, a'.endOf w = a.endOf w) (hX : Spaced a' (p :: X)) (hup : ∀ x ∈ X, p < x) :
    Spaced a' (L₁ ++ p :: X) := by
  obtain ⟨h₁, -, h₁₂⟩ := List.pairwise_append.mp hsp
  refine List.pairwise_append.mpr ⟨h₁.imp_of_mem fun hv _ hlt => (hsame _ hv).trans_lt hlt, hX,
    fun v hv w hw => ?_⟩
  have hvp : a'.endOf v < p := (hsame v hv).trans_lt (h₁₂ v hv p List.mem_cons_self)
  rcases List.mem_cons.mp hw with rfl | hw
  · exact hvp
  · exact hvp.trans (hup w hw)

/-- **`free`** puts a loose block back. -/
theorem free_spec (him : im.Ok) (hr : Ring im a F live) (hsp : Spaced a (im.base :: F))
    (hentry : a.freep ∈ im.base :: F) (hl : Loose im a F live bp) :
    ∃ a' F', free a (bp + HEADER) = .ok a' ∧ Ring im a' F' live ∧ Spaced a' (im.base :: F') ∧
      a'.freep ∈ im.base :: F' ∧ a'.sz = a.sz ∧ ∃ p ∈ F', a.size bp ≤ a'.size p := by
  have hnot : bp ∉ F := fun hmem => (hl.free bp hmem).ne hl.inHeap hl.inHeap rfl
  have hbase : im.base < bp := hr.base_lt.trans_le hl.inHeap.start_le
  obtain ⟨L₁, p, L₂, hL, hp, h₁, h₂⟩ := exists_place hr.sorted hbase hnot
  have hiff := fun w hw => between_iff (w := w) hr hL hp h₂ hw
  obtain ⟨R, hperm, hcircle⟩ := hr.rotate hentry
  have hfound : seek a.ptr (between a bp) TURNS a.freep = some p := by
    have hlen : R.length = F.length := by simpa using hperm.length_eq
    refine seek_eq hcircle (hperm.mem_iff.mpr (hL ▸ by simp)) ((hiff p (hL ▸ by simp)).mpr rfl)
      (fun w hw hstop => (hiff w (hperm.mem_iff.mp hw)).mp hstop) ?_
    have := hr.length_lt him
    omega
  have hnext : a.endOf bp = a.ptr p → a.ptr p ≠ p ∧ a.ptr p ≠ bp := by
    intro htouch
    have := hl.inHeap.lt_endOf
    omega
  rw [free, Nat.add_sub_cancel, hfound]
  simp only [joinBelow_joinAbove hp.ne hnext]
  obtain ⟨F₁, M, hF₁, hr₁, hsp₁, hgrow, hother, hsz⟩ := above_spec hr hsp hl hL hp h₁ h₂
  have hpend : (above a bp p).endOf p = a.endOf p := endOf_congr (hother p hp.ne)
  have hL₁ : ∀ w ∈ L₁, (above a bp p).endOf w = a.endOf w := fun w hw =>
    endOf_congr (hother w ((h₁ w hw).trans hp).ne)
  have hmem : ∀ w, w ∈ im.base :: F₁ → im.base < w → w ∈ F₁ := fun w hw hlt =>
    (List.mem_cons.mp hw).resolve_left hlt.ne'
  have hbpF : bp ∈ F₁ := hmem bp (hF₁ ▸ by simp) hbase
  have hbpM : ∀ m ∈ M, bp < m := fun m hm =>
    ((hr₁.free bp hbpF).lt_endOf).trans ((List.pairwise_cons.mp hsp₁).1 m hm)
  rw [hL] at hsp
  by_cases htouch : a.endOf p = bp
  · rw [if_pos htouch]
    have hpF : p ∈ F₁ := by
      refine (List.mem_cons.mp (hF₁ ▸ by simp : p ∈ im.base :: F₁)).resolve_left fun h => ?_
      rw [h, Arena.endOf, hr.base_size] at htouch
      omega
    obtain ⟨F', hF', hr'⟩ := hr₁.join hF₁ hpF (hpend.trans htouch)
    have hend := join_endOf hr₁ hpF hbpF (hpend.trans htouch)
    refine ⟨_, F', rfl, hr'.congr (fun _ _ => rfl) (fun _ _ => rfl) (fun _ _ => rfl) le_rfl hr'.sz_le, ?_, hF' ▸ by simp, hsz, p, ?_, ?_⟩
    · rw [hF']
      refine hsp.splice (fun w hw => ?_) (List.pairwise_cons.mpr ⟨fun m hm => ?_, ?_⟩)
        fun m hm => hp.trans (hbpM m hm)
      · exact (hend w).trans ((if_neg (h₁ w hw).ne).trans (hL₁ w hw))
      · have hlt := (List.pairwise_cons.mp hsp₁).1 m hm
        exact ((hend p).trans (if_pos rfl)).trans_lt hlt
      · refine (List.pairwise_cons.mp hsp₁).2.imp_of_mem fun hv _ hlt => ?_
        exact ((hend _).trans (if_neg (hp.trans (hbpM _ hv)).ne')).trans_lt hlt
    · exact (List.mem_cons.mp (hF' ▸ by simp : p ∈ im.base :: F')).resolve_left
        (hr₁.base_lt_of_mem hpF).ne'
    · exact (hgrow.trans (Nat.le_add_left ..)).trans
        ((join_size hr₁ hpF hbpF p).trans (if_pos rfl)).ge
  · rw [if_neg htouch]
    refine ⟨_, F₁, rfl, hr₁.congr (fun _ _ => rfl) (fun _ _ => rfl) (fun _ _ => rfl) le_rfl hr₁.sz_le, ?_, hF₁ ▸ by simp, hsz, bp, hbpF, hgrow⟩
    rw [hF₁]
    refine hsp.splice hL₁ (List.pairwise_cons.mpr ⟨fun m hm => ?_, hsp₁⟩) fun m hm => ?_
    · have hlt : a.endOf p < bp :=
        lt_of_le_of_ne ((hl.order hr (hL ▸ by simp)).1 hp) htouch
      rcases List.mem_cons.mp hm with rfl | hm
      · exact hpend.trans_lt hlt
      · exact (hpend.trans_lt hlt).trans (hbpM m hm)
    · rcases List.mem_cons.mp hm with rfl | hm
      · exact hp
      · exact hp.trans (hbpM m hm)

end Xv6.Umalloc
