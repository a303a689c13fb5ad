import Mathlib.Tactic

/-!
# Lib — Writes

A store `κ → α` and a list of writes to it, oldest first.

* `applyWrites d ws`: the store after the writes.
* `applyWrites_of_notMem`: a place that is not written keeps its value.
* `applyWrites_of_forall`: a place to which every write writes `x` holds `x`, once it is written.
* `take_append_cases`: a list of writes that is cut short ends in one part of it or in the other.
-/

namespace Xv6.Lib

variable {κ α : Type} [DecidableEq κ] {d : κ → α} {ws ws' : List (κ × α)} {k : κ} {x : α}

/-- The store after the writes `ws`. -/
def applyWrites (d : κ → α) (ws : List (κ × α)) : κ → α :=
  ws.foldl (fun d w => Function.update d w.1 w.2) d

@[simp] theorem applyWrites_nil (d : κ → α) : applyWrites d [] = d := rfl

@[simp] theorem applyWrites_cons (d : κ → α) (w : κ × α) (ws : List (κ × α)) :
    applyWrites d (w :: ws) = applyWrites (Function.update d w.1 w.2) ws := rfl

theorem applyWrites_append (d : κ → α) (ws ws' : List (κ × α)) :
    applyWrites d (ws ++ ws') = applyWrites (applyWrites d ws) ws' :=
  List.foldl_append ..

theorem applyWrites_of_notMem (h : ∀ w ∈ ws, w.1 ≠ k) : applyWrites d ws k = d k := by
  induction ws generalizing d with
  | nil => rfl
  | cons w ws ih =>
      rw [applyWrites_cons, ih fun w' hw' => h w' (List.mem_cons_of_mem w hw'),
        Function.update_of_ne (h w List.mem_cons_self).symm]

/-- If all writes to `k` write `x`, then `k` holds `x` or has not been written. -/
theorem applyWrites_eq_or (h : ∀ w ∈ ws, w.1 = k → w.2 = x) :
    applyWrites d ws k = x ∨ (applyWrites d ws k = d k ∧ ∀ w ∈ ws, w.1 ≠ k) := by
  induction ws generalizing d with
  | nil => exact Or.inr ⟨rfl, fun w hw => by cases hw⟩
  | cons w ws ih =>
      rw [applyWrites_cons]
      rcases ih (d := Function.update d w.1 w.2) fun w' hw' => h w' (List.mem_cons_of_mem w hw') with
        h₁ | ⟨h₁, hno⟩
      · exact Or.inl h₁
      · by_cases hk : w.1 = k
        · left
          rw [h₁, hk, Function.update_self]
          exact h w List.mem_cons_self hk
        · right
          rw [h₁, Function.update_of_ne (Ne.symm hk)]
          refine ⟨rfl, fun w' hw' => ?_⟩
          rcases List.mem_cons.mp hw' with rfl | hw'
          · exact hk
          · exact hno w' hw'

theorem applyWrites_of_forall (h : ∀ w ∈ ws, w.1 = k → w.2 = x) (hk : ∃ w ∈ ws, w.1 = k) :
    applyWrites d ws k = x := by
  rcases applyWrites_eq_or (d := d) h with h₁ | ⟨-, hno⟩
  · exact h₁
  · obtain ⟨w, hw, hwk⟩ := hk
    exact absurd hwk (hno w hw)

/-- A cut in `ws ++ ws'` lies in `ws`, or after it. -/
theorem take_append_cases {β : Type} (us vs : List β) (n : Nat) :
    (∃ m, (us ++ vs).take n = us.take m ∧ n ≤ us.length) ∨
      ∃ m, (us ++ vs).take n = us ++ vs.take m ∧ us.length < n := by
  by_cases hn : n ≤ us.length
  · exact Or.inl ⟨n, List.take_append_of_le_length hn, hn⟩
  · exact Or.inr ⟨n - us.length, by rw [List.take_append, List.take_of_length_le (by omega)],
      by omega⟩

end Xv6.Lib
