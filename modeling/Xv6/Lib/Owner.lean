import Mathlib.Tactic

/-!
# Lib — Owner

Resources with exactly one owner.  `own x` is the owner of resource `x`; `k : κ → β` is one kind
of owner, by key; `Lists own k P` says that the relation `P` names exactly the resources owned by
each owner of that kind.  Since `own` is a function, two kinds that are each listed exactly cannot
share a resource.

The three rules say what becomes of a kind when one resource changes hands: a kind that neither
gives nor takes it keeps its list (`Lists.keep`), the kind that takes it gains one entry
(`Lists.add`), the kind that gives it loses one (`Lists.drop`).
-/

namespace Xv6.Lib

variable {α β κ : Type} {own : α → β} {k : κ → β} {P P' : κ → α → Prop} {x : α} {b : β}

/-- `P` names exactly the resources of the owners of kind `k`. -/
def Lists (own : α → β) (k : κ → β) (P : κ → α → Prop) : Prop := ∀ key y, own y = k key ↔ P key y

theorem Lists.congr (h : Lists own k P) (hP : ∀ key y, P' key y ↔ P key y) : Lists own k P' :=
  fun key y => (h key y).trans (hP key y).symm

variable [DecidableEq α]

theorem Lists.keep (h : Lists own k P) (hold : ∀ key, own x ≠ k key) (hnew : ∀ key, b ≠ k key)
    (hP : ∀ key y, P' key y ↔ P key y) : Lists (Function.update own x b) k P' := by
  intro key y
  rw [hP]
  by_cases hy : y = x
  · subst hy
    rw [Function.update_self]
    exact iff_of_false (hnew key) fun hp => hold key ((h key y).mpr hp)
  · rw [Function.update_of_ne hy]
    exact h key y

theorem Lists.add (h : Lists own k P) (hk : Function.Injective k) (key₀ : κ)
    (hold : ∀ key, own x ≠ k key) (hP : ∀ key y, P' key y ↔ P key y ∨ (key = key₀ ∧ y = x)) :
    Lists (Function.update own x (k key₀)) k P' := by
  intro key y
  rw [hP]
  by_cases hy : y = x
  · subst hy
    rw [Function.update_self]
    constructor
    · exact fun he => Or.inr ⟨(hk he).symm, rfl⟩
    · rintro (hp | ⟨rfl, -⟩)
      · exact absurd ((h key y).mpr hp) (hold key)
      · rfl
  · rw [Function.update_of_ne hy]
    exact (h key y).trans ⟨Or.inl, fun hp => hp.resolve_right fun h => hy h.2⟩

theorem Lists.drop (h : Lists own k P) (hnew : ∀ key, b ≠ k key)
    (hP : ∀ key y, P' key y ↔ P key y ∧ y ≠ x) : Lists (Function.update own x b) k P' := by
  intro key y
  rw [hP]
  by_cases hy : y = x
  · subst hy
    rw [Function.update_self]
    exact iff_of_false (hnew key) fun hp => hp.2 rfl
  · rw [Function.update_of_ne hy]
    exact (h key y).trans ⟨fun hp => ⟨hp, hy⟩, And.left⟩

end Xv6.Lib
