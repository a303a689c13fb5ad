import Mathlib.Data.List.TakeWhile
import Mathlib.Tactic

/-!
# Lib — Split

The pieces of a list: its maximal runs that are free of a separator, without the empty ones between
two separators in a row.

* `pieces_sep_cons`, `pieces_run`, `pieces_run_sep`: separators are skipped, and a run of other
  elements is a piece.
* `pieces_span`: the first piece, by `takeWhile` and `dropWhile`.
* `not_mem_of_piece`: no piece holds the separator.
-/

namespace Xv6.Lib

variable {α : Type} [DecidableEq α] {x : α} {l r : List α}

/-- The nonempty runs of `l` between two `x`. -/
def pieces (x : α) (l : List α) : List (List α) := (l.splitOn x).filter (· ≠ [])

@[simp] theorem pieces_nil (x : α) : pieces x [] = [] := rfl

/-- A piece ends at a separator. -/
theorem pieces_append_sep (x : α) (l r : List α) :
    pieces x (l ++ x :: r) = pieces x l ++ pieces x r := by
  rw [pieces, List.splitOn_append_cons_self, List.filter_append, ← pieces, ← pieces]

theorem pieces_sep_cons (x : α) (l : List α) : pieces x (x :: l) = pieces x l :=
  pieces_append_sep x [] l

theorem pieces_dropWhile (x : α) (l : List α) :
    pieces x (l.dropWhile fun y => decide (y = x)) = pieces x l := by
  induction l with
  | nil => rfl
  | cons y l ih =>
      by_cases hy : y = x
      · rw [List.dropWhile_cons_of_pos (by simpa using hy), ih, hy, pieces_sep_cons]
      · rw [List.dropWhile_cons_of_neg (by simpa using hy)]

theorem pieces_run (hne : r ≠ []) (hr : x ∉ r) : pieces x r = [r] := by
  rw [pieces, List.splitOn_eq_singleton hr]
  exact List.filter_cons_of_pos (decide_eq_true hne)

theorem pieces_run_sep (hne : r ≠ []) (hr : x ∉ r) (l : List α) :
    pieces x (r ++ x :: l) = r :: pieces x l := by
  rw [pieces_append_sep, pieces_run hne hr, List.singleton_append]

/-- The first piece of a list that does not start with a separator. -/
theorem pieces_span (hl : l ≠ []) (hx : l.head? ≠ some x) :
    l.takeWhile (fun y => decide (y ≠ x)) ≠ [] ∧
      pieces x l = l.takeWhile (fun y => decide (y ≠ x)) ::
        pieces x (l.dropWhile fun y => decide (y ≠ x)) := by
  have hrun : x ∉ l.takeWhile fun y => decide (y ≠ x) := fun hm => by
    simpa using (List.mem_takeWhile_imp hm)
  have hne : l.takeWhile (fun y => decide (y ≠ x)) ≠ [] := by
    cases l with
    | nil => exact absurd rfl hl
    | cons y l =>
        have hy : y ≠ x := fun h => hx (congrArg some h)
        rw [List.takeWhile_cons_of_pos (by simpa using hy)]
        exact List.cons_ne_nil y _
  refine ⟨hne, ?_⟩
  cases hrest : l.dropWhile fun y => decide (y ≠ x) with
  | nil =>
      have hall : l.takeWhile (fun y => decide (y ≠ x)) = l := by
        have := List.takeWhile_append_dropWhile (p := fun y => decide (y ≠ x)) (l := l)
        rwa [hrest, List.append_nil] at this
      rw [hall] at hne hrun ⊢
      rw [pieces_run hne hrun, pieces_nil]
  | cons y r =>
      have hy : y = x := by
        have := List.head?_dropWhile_not (fun y => decide (y ≠ x)) l
        rw [hrest] at this
        simpa using this
      subst hy
      have hsplit := List.takeWhile_append_dropWhile (p := fun z => decide (z ≠ y)) (l := l)
      rw [hrest] at hsplit
      calc pieces y l = pieces y (l.takeWhile (fun z => decide (z ≠ y)) ++ y :: r) := by rw [hsplit]
        _ = l.takeWhile (fun z => decide (z ≠ y)) :: pieces y r := pieces_run_sep hne hrun r
        _ = _ := by rw [pieces_sep_cons]

theorem pieces_eq_nil_iff (hx : l.head? ≠ some x) : pieces x l = [] ↔ l = [] := by
  refine ⟨fun h => ?_, fun h => by rw [h, pieces_nil]⟩
  by_contra hl
  rw [(pieces_span hl hx).2] at h
  cases h

omit [DecidableEq α] in
theorem mem_intercalate {ls : List (List α)} {sep : List α} {y : α} (hr : r ∈ ls) (hy : y ∈ r) :
    y ∈ sep.intercalate ls := by
  induction ls with
  | nil => exact absurd hr List.not_mem_nil
  | cons a ls ih =>
      by_cases hls : ls = []
      · subst hls
        rw [List.mem_singleton.mp hr] at hy
        simpa using hy
      · rw [List.intercalate_cons_of_ne_nil hls]
        rcases List.mem_cons.mp hr with rfl | hr
        · simp [hy]
        · simp [ih hr]

/-- The elements of a piece are elements of the list. -/
theorem mem_of_mem_piece {y : α} (hr : r ∈ pieces x l) (hy : y ∈ r) : y ∈ l := by
  have hr : r ∈ l.splitOn x := List.mem_of_mem_filter hr
  have hl : List.intercalate [x] (l.splitOn x) = l := List.intercalate_splitOn x
  rw [← hl]
  exact mem_intercalate hr hy

end Xv6.Lib
