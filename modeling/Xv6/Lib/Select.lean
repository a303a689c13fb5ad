import Mathlib.Tactic

/-!
# Lib — Selection by a fold

A loop that keeps the best element seen so far and replaces it only by a strictly better one
selects the *first* of the least elements, or nothing when no element is below the start value.
-/

namespace Xv6.Lib

variable {α κ : Type*} [LinearOrder κ] {key : α → κ} {x y : α} {l : List α}

/-- One turn of the loop: `x` replaces the choice so far when its key is smaller. -/
def keepLess (key : α → κ) (acc : Option α × κ) (x : α) : Option α × κ :=
  if key x < acc.2 then (some x, key x) else acc

/-- `x` is the first of the elements of `l` with the least key. -/
def FirstLeast (key : α → κ) (l : List α) (x : α) : Prop :=
  ∃ pre post, l = pre ++ x :: post ∧ (∀ y ∈ pre, key x < key y) ∧ ∀ y ∈ post, key x ≤ key y

theorem FirstLeast.mem (h : FirstLeast key l x) : x ∈ l := by
  obtain ⟨pre, post, rfl, -, -⟩ := h
  exact List.mem_append_right pre List.mem_cons_self

/-- In a list that is sorted by `r`, ties go to the smaller element in `r`. -/
theorem FirstLeast.lt_or_eq {r : α → α → Prop} (h : FirstLeast key l x) (hl : l.Pairwise r)
    (hy : y ∈ l) (hne : y ≠ x) : key x < key y ∨ (key x = key y ∧ r x y) := by
  obtain ⟨pre, post, rfl, hpre, hpost⟩ := h
  rcases List.mem_append.mp hy with hy | hy
  · exact Or.inl (hpre y hy)
  · have hy : y ∈ post := (List.mem_cons.mp hy).resolve_left hne
    have hr := (List.pairwise_cons.mp (List.pairwise_append.mp hl).2.1).1 y hy
    rcases (hpost y hy).lt_or_eq with hlt | heq
    · exact Or.inl hlt
    · exact Or.inr ⟨heq, hr⟩

/-- **The fold.**  Either no element is below the start value and nothing is selected, or the
first of the least is. -/
theorem foldl_keepLess : ∀ (l : List α) (acc : Option α × κ),
    (l.foldl (keepLess key) acc = acc ∧ ∀ x ∈ l, acc.2 ≤ key x) ∨
      ∃ x, l.foldl (keepLess key) acc = (some x, key x) ∧ key x < acc.2 ∧ FirstLeast key l x
  | [], _ => Or.inl ⟨rfl, by simp⟩
  | x :: l, acc => by
      rw [List.foldl_cons]
      by_cases hx : key x < acc.2
      · have hturn : keepLess key acc x = (some x, key x) := if_pos hx
        rw [hturn]
        right
        rcases foldl_keepLess l (some x, key x) with ⟨hfold, hall⟩ |
          ⟨y, hfold, hlt, pre, post, rfl, hpre, hpost⟩
        · exact ⟨x, hfold, hx, [], l, rfl, by simp, hall⟩
        · refine ⟨y, hfold, hlt.trans hx, x :: pre, post, rfl, ?_, hpost⟩
          exact List.forall_mem_cons.mpr ⟨hlt, hpre⟩
      · have hturn : keepLess key acc x = acc := if_neg hx
        rw [hturn]
        rcases foldl_keepLess l acc with ⟨hfold, hall⟩ |
          ⟨y, hfold, hlt, pre, post, rfl, hpre, hpost⟩
        · exact Or.inl ⟨hfold, List.forall_mem_cons.mpr ⟨not_lt.mp hx, hall⟩⟩
        · refine Or.inr ⟨y, hfold, hlt, x :: pre, post, rfl, ?_, hpost⟩
          exact List.forall_mem_cons.mpr ⟨hlt.trans_le (not_lt.mp hx), hpre⟩

/-- A loop that starts above every key selects the first of the least of a list that has one. -/
theorem foldl_keepLess_some (acc : Option α × κ) (hl : l ≠ []) (hacc : ∀ x ∈ l, key x < acc.2) :
    ∃ x, (l.foldl (keepLess key) acc).1 = some x ∧ FirstLeast key l x := by
  rcases foldl_keepLess l acc with ⟨-, hall⟩ | ⟨x, hfold, -, hx⟩
  · obtain ⟨x, hx⟩ := List.exists_mem_of_ne_nil l hl
    exact absurd (hacc x hx) (not_lt.mpr (hall x hx))
  · exact ⟨x, by rw [hfold], hx⟩

/-- A loop over other data that skips some elements is this one, seen through `g`. -/
theorem foldl_through {β : Type*} (g : β → Option α × κ) {turn : β → α → β} {p : α → Bool}
    (hturn : ∀ acc x, g (turn acc x) = if p x then keepLess key (g acc) x else g acc) (acc : β)
    (l : List α) : g (l.foldl turn acc) = (l.filter p).foldl (keepLess key) (g acc) := by
  rw [List.foldl_filter]
  exact (List.foldl_hom g fun acc x => (hturn acc x).symm).symm

end Xv6.Lib
