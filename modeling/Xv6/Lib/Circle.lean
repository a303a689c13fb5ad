import Mathlib.Tactic

/-!
# Lib — Circle

A circular singly linked list without a head, and a search along its pointers.

* `Follows next L y`: the pointer of each element of `L` leads to the one after it, the last one's to `y`.
* `Follows.rotate`: a circle may be entered at any of its nodes.
* `Follows.splice`: the part of a circle after a node is replaced.
* `seek_eq`: a search round the circle finds the only node that it stops at.
-/

namespace Xv6.Lib

variable {α : Type} {next next' : α → α} {L L₁ L₂ : List α} {x y p b : α}

/-- Each element's pointer leads to the one after it, the last one's to `y`. -/
def Follows (next : α → α) : List α → α → Prop
  | [], _ => True
  | a :: L, y => next a = L.headD y ∧ Follows next L y

/-- A loop that follows `next` from `x` until it stops, for at most `n` nodes. -/
def seek (next : α → α) (stop : α → Bool) : Nat → α → Option α
  | 0, _ => none
  | n + 1, x => if stop x then some x else seek next stop n (next x)

theorem follows_append : Follows next (L₁ ++ L₂) y ↔ Follows next L₁ (L₂.headD y) ∧ Follows next L₂ y := by
  induction L₁ with
  | nil => exact ⟨fun h => ⟨trivial, h⟩, And.right⟩
  | cons a L₁ ih =>
      have hhead : (L₁ ++ L₂).headD y = L₁.headD (L₂.headD y) := by
        cases L₁ with
        | nil => rfl
        | cons c L₁ => rfl
      rw [List.cons_append, Follows, Follows, ih, hhead, and_assoc]

theorem Follows.congr (h : Follows next L y) (heq : ∀ a ∈ L, next' a = next a) : Follows next' L y := by
  induction L with
  | nil => trivial
  | cons a L ih =>
      exact ⟨(heq a List.mem_cons_self).trans h.1, ih h.2 fun c hc => heq c (List.mem_cons_of_mem a hc)⟩

/-- A circle may be entered at any of its nodes. -/
theorem Follows.rotate (h : Follows next (L₁ ++ p :: L₂) ((L₁ ++ [p]).headD p)) :
    Follows next (p :: (L₂ ++ L₁)) p := by
  obtain ⟨h₁, h₂⟩ := follows_append.mp h
  rw [← List.cons_append]
  refine follows_append.mpr ⟨?_, h₁⟩
  cases L₁ with
  | nil => exact h₂
  | cons a L₁ => exact h₂

/-- The part of a circle after `p` is replaced. -/
theorem Follows.splice (h : Follows next (L₁ ++ p :: L₂) y) (heq : ∀ a ∈ L₁, next' a = next a)
    (hp : next' p = L.headD y) (hL : Follows next' L y) : Follows next' (L₁ ++ p :: L) y :=
  follows_append.mpr ⟨(follows_append.mp h).1.congr heq, hp, hL⟩

/-- The pointer of a node leads to the node after it. -/
theorem Follows.next_eq (h : Follows next (L₁ ++ p :: L₂) y) : next p = L₂.headD y :=
  (follows_append.mp h).2.1

/-- A search along the pointers finds the only node that it stops at. -/
theorem seek_eq {stop : α → Bool} {n : Nat} (h : Follows next (x :: L) y) (hp : p ∈ x :: L)
    (hstop : stop p = true) (honly : ∀ a ∈ x :: L, stop a = true → a = p) (hn : L.length < n) :
    seek next stop n x = some p := by
  induction L generalizing x n with
  | nil =>
      obtain ⟨n, rfl⟩ := Nat.exists_eq_succ_of_ne_zero (Nat.ne_zero_of_lt hn)
      rw [List.mem_singleton.mp hp] at hstop ⊢
      rw [seek, if_pos hstop]
  | cons a L ih =>
      obtain ⟨n, rfl⟩ := Nat.exists_eq_succ_of_ne_zero (Nat.ne_zero_of_lt hn)
      rw [seek]
      by_cases hx : stop x = true
      · rw [if_pos hx, honly x List.mem_cons_self hx]
      · have hp' : p ∈ a :: L := by
          rcases List.mem_cons.mp hp with rfl | hp
          · exact absurd hstop hx
          · exact hp
        have hnext : next x = a := h.1
        rw [if_neg hx, hnext]
        exact ih h.2 hp' (fun c hc => honly c (List.mem_cons_of_mem x hc)) (Nat.lt_of_succ_lt_succ hn)

end Xv6.Lib
