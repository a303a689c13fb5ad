import Mathlib.Tactic

/-!
# Lib — Ring

A ring of `c` cells that holds the end of a stream.

The stream is the list `xs` of everything that has ever been put in, and the first `d` elements of
it have been taken out.  Element `k` of the stream lies in cell `k % c`.

* `Holds`: the ring holds the elements of `xs` from `d` on.
* `Holds.push`, `Holds.front`, `Holds.pop`: putting an element in, looking at the oldest one, and
  taking it out.
* `Holds.back`, `Holds.erase`: looking at the youngest one, and taking it back.
* `cell_wrap`: the counters may wrap.
-/

namespace Xv6.Lib.Ring

variable {α : Type} {c d : Nat} {data : Fin c → α} {xs : List α}

/-- The cell of element `k` of the stream. -/
def cell [NeZero c] (k : Nat) : Fin c := Fin.ofNat c k

theorem cell_ne [NeZero c] {j k : Nat} (hlt : j < k) (hk : k < j + c) :
    (cell j : Fin c) ≠ cell k := by
  intro h
  have h' : j % c = k % c := congrArg Fin.val h
  have hdvd : c ∣ k - j := (Nat.modEq_iff_dvd' hlt.le).mp h'
  exact absurd (Nat.le_of_dvd (by omega) hdvd) (by omega)

/-- The ring holds the elements of the stream from `d` on. -/
structure Holds [NeZero c] (data : Fin c → α) (d : Nat) (xs : List α) : Prop where
  le : d ≤ xs.length
  room : xs.length ≤ d + c
  cells : ∀ k (hk : k < xs.length), d ≤ k → data (cell k) = xs[k]

variable [NeZero c]

theorem Holds.nil (data : Fin c → α) : Holds data 0 [] :=
  ⟨le_rfl, Nat.zero_le _, fun k hk => absurd hk (Nat.not_lt_zero k)⟩

/-- The oldest element. -/
theorem Holds.front (h : Holds data d xs) (hd : d < xs.length) : data (cell d) = xs[d] :=
  h.cells d hd le_rfl

theorem Holds.pop (h : Holds data d xs) (hd : d < xs.length) : Holds data (d + 1) xs :=
  ⟨hd, by have := h.room; omega, fun k hk hdk => h.cells k hk (by omega)⟩

theorem Holds.push (h : Holds data d xs) (hroom : xs.length < d + c) (x : α) :
    Holds (Function.update data (cell xs.length) x) d (xs ++ [x]) := by
  have hle := h.le
  refine ⟨by simp; omega, by simp; omega, fun k hk hdk => ?_⟩
  rw [List.length_append, List.length_singleton] at hk
  by_cases hkl : k < xs.length
  · rw [Function.update_of_ne (cell_ne hkl (by omega)), List.getElem_append_left hkl]
    exact h.cells k hkl hdk
  · have hk' : k = xs.length := by omega
    subst hk'
    rw [Function.update_self, List.getElem_concat_length rfl]

/-- The youngest element. -/
theorem Holds.back {x : α} (h : Holds data d (xs ++ [x])) (hd : d ≤ xs.length) :
    data (cell xs.length) = x := by
  rw [h.cells xs.length (by simp) hd, List.getElem_concat_length rfl]

/-- The youngest element is taken back. -/
theorem Holds.erase {x : α} (h : Holds data d (xs ++ [x])) (hd : d ≤ xs.length) : Holds data d xs := by
  have hroom := h.room
  rw [List.length_append, List.length_singleton] at hroom
  refine ⟨hd, by omega, fun k hk hdk => ?_⟩
  rw [h.cells k (by rw [List.length_append, List.length_singleton]; omega) hdk, List.getElem_append_left hk]

/-- A counter that wraps at a multiple of the number of cells is as good as one that does not. -/
theorem cell_wrap {w : Nat} (hdvd : c ∣ 2 ^ w) (k : Nat) :
    (cell (BitVec.ofNat w k).toNat : Fin c) = cell k := by
  apply Fin.ext
  show (BitVec.ofNat w k).toNat % c = k % c
  rw [BitVec.toNat_ofNat, Nat.mod_mod_of_dvd k hdvd]

end Xv6.Lib.Ring
