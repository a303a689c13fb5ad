import Mathlib.Data.Nat.Count
import Mathlib.Tactic

/-!
# Lib — Count

How `Nat.count P n`, the number of the places below `n` where `P` holds, changes with `P`.
-/

namespace Xv6.Lib

variable {P Q : Nat → Prop} [DecidablePred P] [DecidablePred Q] {v : Nat}

/-- Nothing is counted where nothing holds. -/
theorem count_eq_of_false {m n : Nat} (hmn : m ≤ n) (h : ∀ v, m ≤ v → v < n → ¬ P v) :
    Nat.count P n = Nat.count P m := by
  induction n, hmn using Nat.le_induction with
  | base => rfl
  | succ n hmn ih =>
      rw [Nat.count_succ, if_neg (h n hmn (Nat.lt_succ_self n)), Nat.add_zero]
      exact ih fun v hv hlt => h v hv (hlt.trans (Nat.lt_succ_self n))

theorem count_congr {n : Nat} (h : ∀ v, v < n → (P v ↔ Q v)) : Nat.count P n = Nat.count Q n := by
  induction n with
  | zero => rfl
  | succ n ih =>
      rw [Nat.count_succ, Nat.count_succ, ih fun v hv => h v (hv.trans (Nat.lt_succ_self n)),
        if_congr (h n (Nat.lt_succ_self n)) rfl rfl]

/-- One place more. -/
theorem count_add_one {n : Nat} (hv : v < n) (hP : ¬ P v) (hQ : Q v)
    (h : ∀ w, w ≠ v → (Q w ↔ P w)) : Nat.count Q n = Nat.count P n + 1 := by
  induction n with
  | zero => exact absurd hv (Nat.not_lt_zero v)
  | succ n ih =>
      rw [Nat.count_succ, Nat.count_succ]
      rcases Nat.lt_succ_iff_lt_or_eq.mp hv with hlt | rfl
      · rw [ih hlt, if_congr (h n (Nat.ne_of_gt hlt)) rfl rfl]
        omega
      · rw [if_neg hP, if_pos hQ, count_congr fun w hw => h w (Nat.ne_of_lt hw)]

/-- A range of places is cleared. -/
theorem count_clear {m k n : Nat} (hmk : m ≤ k) (hkn : k ≤ n)
    (hin : ∀ v, m ≤ v → v < k → ¬ Q v) (hout : ∀ v, ¬ (m ≤ v ∧ v < k) → (Q v ↔ P v)) :
    Nat.count Q n + Nat.count P k = Nat.count P n + Nat.count P m := by
  induction n, hkn using Nat.le_induction with
  | base =>
      rw [count_eq_of_false hmk hin, count_congr fun v hv => hout v fun h => by omega]
      omega
  | succ n hkn ih =>
      rw [Nat.count_succ, Nat.count_succ, if_congr (hout n fun h => by omega) rfl rfl]
      omega

end Xv6.Lib
