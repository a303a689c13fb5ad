import Xv6.Raid.Pages

/-!
# Vm — Pte

Page-table entries: 64-bit words with ten flag bits and, above them, either the number of a
physical page (`PTE_V`) or the number of a swap slot (`PTE_SWAPPED`).

* `swapOutPte`, `swapInPte`, `mapPte`: the words `kalloc_user`, `vmfault` and `mappages` store.
* Each of the three is described by four facts: the two kind bits, what stands above the flags,
  and the permission bits.
-/

namespace Xv6.Vm
open Xv6.Raid (PGSIZE)

abbrev Pte := BitVec 64

def PTE_V : Pte := 1 <<< 0
def PTE_R : Pte := 1 <<< 1
def PTE_W : Pte := 1 <<< 2
def PTE_X : Pte := 1 <<< 3
def PTE_U : Pte := 1 <<< 4
def PTE_SWAPPED : Pte := 1 <<< 8
abbrev PTE_SWAP_SHIFT : Nat := 10

/-- `PA2PTE`. -/
def pa2Pte (pa : Nat) : Pte := (BitVec.ofNat 64 pa >>> 12) <<< 10

/-- `PTE2PA`. -/
def pte2Pa (e : Pte) : Nat := ((e >>> 10) <<< 12).toNat

/-- `PTE_FLAGS`. -/
def pteFlags (e : Pte) : Pte := e &&& 0x3FF

/-- `*pte & bit`, as a condition. -/
def Pte.has (e bit : Pte) : Bool := e &&& bit != 0

/-- `(*pte >> PTE_SWAP_SHIFT) & 0xFF`. -/
def swapIdx (e : Pte) : Nat := ((e >>> PTE_SWAP_SHIFT) &&& 0xFF).toNat

/-- The entry `kalloc_user` leaves for an evicted page. -/
def swapOutPte (slot : Nat) (e : Pte) : Pte :=
  ((BitVec.ofNat 64 slot <<< PTE_SWAP_SHIFT) ||| PTE_SWAPPED ||| (pteFlags e &&& 0x3FF)) &&&
    ~~~PTE_V

/-- The entry `vmfault` leaves for a page it has read back. -/
def swapInPte (pa : Nat) (e : Pte) : Pte :=
  (pa2Pte pa ||| PTE_V ||| (pteFlags e &&& 0x3FF)) &&& ~~~PTE_SWAPPED

/-- The entry `uvmcopy` gives the child for a swapped page of the parent. -/
def swapCopyPte (slot : Nat) (e : Pte) : Pte :=
  (BitVec.ofNat 64 slot <<< PTE_SWAP_SHIFT) ||| PTE_SWAPPED ||| (pteFlags e &&& 0x3FF)

/-- The entry `mappages` stores. -/
def mapPte (pa : Nat) (perm : Pte) : Pte := pa2Pte pa ||| perm ||| PTE_V

/-- The permission bits: read, write, execute, user. -/
def Pte.perm (e : Pte) : Pte := e &&& (PTE_R ||| PTE_W ||| PTE_X ||| PTE_U)

/-! ### Bits -/

theorem getLsbD_flagMask (i : Nat) : (0x3FF : Pte).getLsbD i = decide (i < 10) := by
  by_cases h : i < 64
  · interval_cases i <;> rfl
  · rw [BitVec.getLsbD_of_ge _ _ (by omega)]
    simp
    omega

/-- Testing a single bit of an entry reads that bit. -/
theorem has_twoPow (e : Pte) (n : Nat) (hn : n < 64) : e.has (BitVec.twoPow 64 n) = e.getLsbD n := by
  rw [Pte.has, BitVec.and_twoPow]
  cases e.getLsbD n with
  | false => simp
  | true =>
      have hbit : (BitVec.twoPow 64 n).getLsbD n = true := by simp [hn]
      have hne : BitVec.twoPow 64 n ≠ 0 := fun h => by simp [h] at hbit
      simpa using hne

theorem has_V (e : Pte) : e.has PTE_V = e.getLsbD 0 := has_twoPow e 0 (by decide)
theorem has_R (e : Pte) : e.has PTE_R = e.getLsbD 1 := has_twoPow e 1 (by decide)
theorem has_W (e : Pte) : e.has PTE_W = e.getLsbD 2 := has_twoPow e 2 (by decide)
theorem has_U (e : Pte) : e.has PTE_U = e.getLsbD 4 := has_twoPow e 4 (by decide)
theorem has_SWAPPED (e : Pte) : e.has PTE_SWAPPED = e.getLsbD 8 := has_twoPow e 8 (by decide)

theorem getLsbD_V (i : Nat) : PTE_V.getLsbD i = decide (i = 0) := by
  rw [show PTE_V = BitVec.twoPow 64 0 from rfl, BitVec.getLsbD_twoPow]
  simp [eq_comm]

theorem getLsbD_SWAPPED (i : Nat) : PTE_SWAPPED.getLsbD i = decide (i = 8) := by
  rw [show PTE_SWAPPED = BitVec.twoPow 64 8 from rfl, BitVec.getLsbD_twoPow]
  simp [eq_comm]

/-! ### What stands above the flags -/

/-- The entry without its ten flag bits. -/
def Pte.above (e : Pte) : Pte := e >>> 10

theorem pte2Pa_eq (e : Pte) : pte2Pa e = (e.above <<< 12).toNat := rfl

theorem swapIdx_eq (e : Pte) : swapIdx e = (e.above &&& 0xFF).toNat := rfl

theorem above_or (a b : Pte) : Pte.above (a ||| b) = a.above ||| b.above :=
  BitVec.ushiftRight_or_distrib ..

theorem above_and_not (a b : Pte) (h : b.above = 0) : Pte.above (a &&& ~~~b) = a.above := by
  refine BitVec.eq_of_getLsbD_eq fun i hi => ?_
  have hb : b.getLsbD (10 + i) = false := by
    have := congrArg (·.getLsbD i) h
    simpa [Pte.above] using this
  simp only [Pte.above, BitVec.getLsbD_ushiftRight, BitVec.getLsbD_and, BitVec.getLsbD_not, hb]
  by_cases h64 : 10 + i < 64
  · simp [h64]
  · simp [h64, BitVec.getLsbD_of_ge a (10 + i) (by omega)]

theorem above_flags (e : Pte) : Pte.above (pteFlags e &&& 0x3FF) = 0 := by
  refine BitVec.eq_of_getLsbD_eq fun i hi => ?_
  simp only [Pte.above, pteFlags, BitVec.getLsbD_ushiftRight, BitVec.getLsbD_and,
    getLsbD_flagMask]
  simp

theorem above_shiftLeft (a : Pte) (h : a.toNat < 2 ^ 54) : Pte.above (a <<< 10) = a := by
  apply BitVec.eq_of_toNat_eq
  have h64 : a.toNat * 2 ^ 10 < 2 ^ 64 := by omega
  simp only [Pte.above, BitVec.toNat_ushiftRight, BitVec.toNat_shiftLeft, Nat.shiftLeft_eq,
    Nat.shiftRight_eq_div_pow, Nat.mod_eq_of_lt h64]
  omega

/-- A physical page: aligned, and low enough for an entry. -/
def PhysOk (pa : Nat) : Prop := pa % PGSIZE = 0 ∧ pa < 2 ^ 56

theorem above_pa2Pte {pa : Nat} (h : PhysOk pa) : (pa2Pte pa).above = BitVec.ofNat 64 pa >>> 12 := by
  refine above_shiftLeft _ ?_
  have := h.2
  rw [BitVec.toNat_ushiftRight, BitVec.toNat_ofNat, Nat.mod_eq_of_lt (by omega),
    Nat.shiftRight_eq_div_pow]
  omega

theorem pte2Pa_of_above {pa : Nat} (h : PhysOk pa) {e : Pte}
    (he : e.above = BitVec.ofNat 64 pa >>> 12) : pte2Pa e = pa := by
  have h1 := h.1
  have h2 := h.2
  simp only [PGSIZE] at h1
  have h64 : pa / 2 ^ 12 * 2 ^ 12 < 2 ^ 64 := by omega
  rw [pte2Pa_eq, he, BitVec.toNat_shiftLeft, BitVec.toNat_ushiftRight, BitVec.toNat_ofNat,
    Nat.mod_eq_of_lt (by omega : pa < 2 ^ 64), Nat.shiftRight_eq_div_pow, Nat.shiftLeft_eq,
    Nat.mod_eq_of_lt h64]
  omega

theorem swapIdx_of_above {slot : Nat} (h : slot < 256) {e : Pte}
    (he : e.above = BitVec.ofNat 64 slot) : swapIdx e = slot := by
  rw [swapIdx_eq, he, BitVec.toNat_and, BitVec.toNat_ofNat, Nat.mod_eq_of_lt (by omega)]
  rw [show (0xFF : Pte).toNat = 2 ^ 8 - 1 from rfl, Nat.and_two_pow_sub_one_eq_mod]
  omega

/-! ### The words stored -/

section Words

variable {slot pa : Nat} (e perm : Pte)

theorem swapOutPte_above (h : slot < 256) : (swapOutPte slot e).above = BitVec.ofNat 64 slot := by
  rw [swapOutPte, above_and_not _ _ (by decide), above_or, above_or, above_flags,
    above_shiftLeft _ (by rw [BitVec.toNat_ofNat]; omega), show PTE_SWAPPED.above = 0 by decide]
  simp

theorem swapCopyPte_above (h : slot < 256) : (swapCopyPte slot e).above = BitVec.ofNat 64 slot := by
  rw [swapCopyPte, above_or, above_or, above_flags,
    above_shiftLeft _ (by rw [BitVec.toNat_ofNat]; omega), show PTE_SWAPPED.above = 0 by decide]
  simp

theorem swapInPte_above (h : PhysOk pa) :
    (swapInPte pa e).above = BitVec.ofNat 64 pa >>> 12 := by
  rw [swapInPte, above_and_not _ _ (by decide), above_or, above_or, above_flags, above_pa2Pte h,
    show PTE_V.above = 0 by decide]
  simp

theorem mapPte_above (h : PhysOk pa) (hp : perm.above = 0) :
    (mapPte pa perm).above = BitVec.ofNat 64 pa >>> 12 := by
  rw [mapPte, above_or, above_or, hp, above_pa2Pte h, show PTE_V.above = 0 by decide]
  simp

/-! The flag bits of the words: those of the old entry, with the kind bits set or cleared. -/

theorem flag_shiftLeft (a : Pte) {i : Nat} (hi : i < 10) : (a <<< 10).getLsbD i = false := by
  simp [BitVec.getLsbD_shiftLeft, hi]

theorem flag_flags {i : Nat} (hi : i < 10) :
    (pteFlags e &&& 0x3FF).getLsbD i = e.getLsbD i := by
  rw [pteFlags, BitVec.getLsbD_and, BitVec.getLsbD_and, getLsbD_flagMask]
  simp [hi]

theorem swapOutPte_flag {i : Nat} (hi : i < 10) :
    (swapOutPte slot e).getLsbD i = ((decide (i = 8) || e.getLsbD i) && decide (i ≠ 0)) := by
  have h64 : i < 64 := by omega
  rw [swapOutPte, BitVec.getLsbD_and, BitVec.getLsbD_or, BitVec.getLsbD_or, flag_shiftLeft _ hi,
    flag_flags e hi, BitVec.getLsbD_not, getLsbD_V, getLsbD_SWAPPED]
  simp only [Bool.false_or, h64, decide_true, Bool.true_and, ne_eq, decide_not]

theorem swapCopyPte_flag {i : Nat} (hi : i < 10) :
    (swapCopyPte slot e).getLsbD i = (decide (i = 8) || e.getLsbD i) := by
  rw [swapCopyPte, BitVec.getLsbD_or, BitVec.getLsbD_or, flag_shiftLeft _ hi, flag_flags e hi,
    getLsbD_SWAPPED, Bool.false_or]

theorem swapInPte_flag {i : Nat} (hi : i < 10) :
    (swapInPte pa e).getLsbD i = ((decide (i = 0) || e.getLsbD i) && decide (i ≠ 8)) := by
  have h64 : i < 64 := by omega
  rw [swapInPte, pa2Pte, BitVec.getLsbD_and, BitVec.getLsbD_or, BitVec.getLsbD_or,
    flag_shiftLeft _ hi, flag_flags e hi, BitVec.getLsbD_not, getLsbD_V, getLsbD_SWAPPED]
  simp only [Bool.false_or, h64, decide_true, Bool.true_and, ne_eq, decide_not]

theorem mapPte_flag {i : Nat} (hi : i < 10) :
    (mapPte pa perm).getLsbD i = (perm.getLsbD i || decide (i = 0)) := by
  rw [mapPte, pa2Pte, BitVec.getLsbD_or, BitVec.getLsbD_or, flag_shiftLeft _ hi, getLsbD_V,
    Bool.false_or]

end Words

theorem perm_congr {a b : Pte} (h : ∀ i, 1 ≤ i → i ≤ 4 → a.getLsbD i = b.getLsbD i) :
    a.perm = b.perm := by
  have hmask : ∀ i, (PTE_R ||| PTE_W ||| PTE_X ||| PTE_U).getLsbD i = decide (1 ≤ i ∧ i ≤ 4) := by
    intro i
    by_cases hi : i < 64
    · interval_cases i <;> rfl
    · rw [BitVec.getLsbD_of_ge _ _ (by omega)]
      simp
      omega
  refine BitVec.eq_of_getLsbD_eq fun i _ => ?_
  rw [Pte.perm, Pte.perm, BitVec.getLsbD_and, BitVec.getLsbD_and, hmask]
  by_cases hi : 1 ≤ i ∧ i ≤ 4
  · rw [h i hi.1 hi.2]
  · simp [hi]

/-! ### Resident and swapped entries -/

/-- The entry maps physical page `pa`. -/
structure Resident (e : Pte) (pa : Nat) : Prop where
  valid : e.has PTE_V = true
  not_swapped : e.has PTE_SWAPPED = false
  pa_eq : pte2Pa e = pa

/-- The entry names swap slot `slot`. -/
structure Swapped (e : Pte) (slot : Nat) : Prop where
  not_valid : e.has PTE_V = false
  swapped : e.has PTE_SWAPPED = true
  slot_eq : swapIdx e = slot

theorem Resident.not_zero {e : Pte} {pa : Nat} (h : Resident e pa) : e ≠ 0 := by
  rintro rfl
  cases h.valid

theorem Swapped.not_zero {e : Pte} {slot : Nat} (h : Swapped e slot) : e ≠ 0 := by
  rintro rfl
  cases h.swapped

theorem Resident.not_Swapped {e : Pte} {pa slot : Nat} (h : Resident e pa) : ¬ Swapped e slot :=
  fun h' => by cases h.valid.symm.trans h'.not_valid

theorem swapOutPte_swapped {slot : Nat} (h : slot < 256) (e : Pte) :
    Swapped (swapOutPte slot e) slot := by
  refine ⟨?_, ?_, swapIdx_of_above h (swapOutPte_above e h)⟩
  · rw [has_V, swapOutPte_flag e (by decide)]
    simp
  · rw [has_SWAPPED, swapOutPte_flag e (by decide)]
    simp

theorem swapCopyPte_swapped {slot slot' : Nat} (h : slot < 256) {e : Pte} (he : Swapped e slot') :
    Swapped (swapCopyPte slot e) slot := by
  refine ⟨?_, ?_, swapIdx_of_above h (swapCopyPte_above e h)⟩
  · rw [has_V, swapCopyPte_flag e (by decide), ← has_V, he.not_valid]
    rfl
  · rw [has_SWAPPED, swapCopyPte_flag e (by decide)]
    rfl

theorem swapInPte_resident {pa : Nat} (h : PhysOk pa) (e : Pte) : Resident (swapInPte pa e) pa := by
  refine ⟨?_, ?_, pte2Pa_of_above h (swapInPte_above e h)⟩
  · rw [has_V, swapInPte_flag e (by decide)]
    simp
  · rw [has_SWAPPED, swapInPte_flag e (by decide)]
    simp

/-- Flag words that `mappages` may be given for a user page. -/
structure PermOk (perm : Pte) : Prop where
  above : perm.above = 0
  not_swapped : perm.has PTE_SWAPPED = false

theorem mapPte_resident {pa : Nat} (h : PhysOk pa) {perm : Pte} (hp : PermOk perm) :
    Resident (mapPte pa perm) pa := by
  refine ⟨?_, ?_, pte2Pa_of_above h (mapPte_above perm h hp.above)⟩
  · rw [has_V, mapPte_flag perm (by decide)]
    simp
  · rw [has_SWAPPED, mapPte_flag perm (by decide), ← has_SWAPPED, hp.not_swapped]
    rfl

theorem permOk_flags {e : Pte} (h : e.has PTE_SWAPPED = false) : PermOk (pteFlags e) := by
  have hand : pteFlags e &&& 0x3FF = pteFlags e := by
    rw [pteFlags, BitVec.and_assoc, BitVec.and_self]
  refine ⟨hand ▸ above_flags e, ?_⟩
  rw [has_SWAPPED, ← hand, flag_flags e (by decide), ← has_SWAPPED, h]

/-! An eviction and a swap-in keep the permission bits. -/

@[simp] theorem swapOutPte_perm (slot : Nat) (e : Pte) : (swapOutPte slot e).perm = e.perm := by
  refine perm_congr fun i h1 h4 => ?_
  rw [swapOutPte_flag e (by omega)]
  simp [show i ≠ 8 by omega, show i ≠ 0 by omega]

@[simp] theorem swapCopyPte_perm (slot : Nat) (e : Pte) : (swapCopyPte slot e).perm = e.perm := by
  refine perm_congr fun i h1 h4 => ?_
  rw [swapCopyPte_flag e (by omega)]
  simp [show i ≠ 8 by omega]

@[simp] theorem swapInPte_perm (pa : Nat) (e : Pte) : (swapInPte pa e).perm = e.perm := by
  refine perm_congr fun i h1 h4 => ?_
  rw [swapInPte_flag e (by omega)]
  simp [show i ≠ 8 by omega, show i ≠ 0 by omega]

@[simp] theorem mapPte_perm (pa : Nat) (perm : Pte) : (mapPte pa perm).perm = perm.perm := by
  refine perm_congr fun i h1 h4 => ?_
  rw [mapPte_flag perm (by omega)]
  simp [show i ≠ 0 by omega]

end Xv6.Vm
