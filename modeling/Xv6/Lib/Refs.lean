import Mathlib.Tactic

/-!
# Lib — Refs

Reference counts of the objects that a table of slots points to.

`holders o a` is the number of slots of `o` that point to `a`.  `Counts ref o e` says that the count
of every object is the number of its holders, up to `e`: the references that are on their way, taken
and not stored yet, or stored and not taken yet.  A count and a slot are changed one at a time, by
the four rules `take`, `drop`, `store` and `clear`.
-/

namespace Xv6.Lib

variable {ι α : Type} [Fintype ι] [DecidableEq α]

/-- The number of slots that point to `a`. -/
def holders (o : ι → Option α) (a : α) : Nat := (Finset.univ.filter fun i => o i = some a).card

variable {o : ι → Option α} {ref : α → Nat} {e : α → Int} {i : ι} {a b : α}

theorem holders_pos (h : o i = some a) : 0 < holders o a :=
  Finset.card_pos.mpr ⟨i, Finset.mem_filter.mpr ⟨Finset.mem_univ i, h⟩⟩

theorem exists_of_holders (h : 0 < holders o a) : ∃ i, o i = some a := by
  obtain ⟨i, hi⟩ := Finset.card_pos.mp h
  exact ⟨i, (Finset.mem_filter.mp hi).2⟩

theorem holders_store [DecidableEq ι] (h : o i = none) (b : α) :
    holders (Function.update o i (some a)) b = holders o b + if b = a then 1 else 0 := by
  unfold holders
  by_cases hb : b = a
  · subst hb
    have hset : (Finset.univ.filter fun j => Function.update o i (some b) j = some b) =
        insert i (Finset.univ.filter fun j => o j = some b) := by
      ext j
      by_cases hj : j = i
      · simp [hj]
      · simp [hj]
    rw [hset, Finset.card_insert_of_notMem (by simp [h]), if_pos rfl]
  · rw [if_neg hb, Nat.add_zero]
    congr 1
    ext j
    by_cases hj : j = i
    · simp [hj, h, Ne.symm hb]
    · simp [hj]

theorem holders_clear [DecidableEq ι] (h : o i = some a) (b : α) :
    holders (Function.update o i none) b + (if b = a then 1 else 0) = holders o b := by
  have hself : Function.update (Function.update o i none) i (some a) = o := by
    rw [Function.update_idem, ← h, Function.update_eq_self]
  have hstore := holders_store (o := Function.update o i none) (a := a) (Function.update_self ..) b
  rw [hself] at hstore
  exact hstore.symm

/-- The counts are right, up to the references on their way. -/
def Counts (ref : α → Nat) (o : ι → Option α) (e : α → Int) : Prop :=
  ∀ a, (ref a : Int) = holders o a + e a

namespace Counts

/-- A reference is counted. -/
theorem take (h : Counts ref o e) (a : α) :
    Counts (Function.update ref a (ref a + 1)) o (e + Pi.single a 1) := by
  intro b
  have hb := h b
  by_cases he : b = a
  · subst he
    rw [Function.update_self, Pi.add_apply, Pi.single_eq_same]
    push_cast
    omega
  · rw [Function.update_of_ne he, Pi.add_apply, Pi.single_eq_of_ne he]
    omega

/-- A reference is no longer counted. -/
theorem drop (h : Counts ref o e) (hpos : 0 < ref a) :
    Counts (Function.update ref a (ref a - 1)) o (e - Pi.single a 1) := by
  intro b
  have hb := h b
  by_cases he : b = a
  · subst he
    rw [Function.update_self, Pi.sub_apply, Pi.single_eq_same]
    omega
  · rw [Function.update_of_ne he, Pi.sub_apply, Pi.single_eq_of_ne he]
    omega

/-- A slot is set. -/
theorem store [DecidableEq ι] (h : Counts ref o e) (hi : o i = none) (a : α) :
    Counts ref (Function.update o i (some a)) (e - Pi.single a 1) := by
  intro b
  have hb := h b
  rw [holders_store hi, Pi.sub_apply]
  by_cases he : b = a
  · subst he
    rw [if_pos rfl, Pi.single_eq_same]
    push_cast
    omega
  · rw [if_neg he, Pi.single_eq_of_ne he]
    omega

/-- A slot is cleared. -/
theorem clear [DecidableEq ι] (h : Counts ref o e) (hi : o i = some a) :
    Counts ref (Function.update o i none) (e + Pi.single a 1) := by
  intro b
  have hb := h b
  have hclear := holders_clear hi b
  rw [Pi.add_apply]
  by_cases he : b = a
  · subst he
    rw [if_pos rfl] at hclear
    rw [Pi.single_eq_same]
    omega
  · rw [if_neg he] at hclear
    rw [Pi.single_eq_of_ne he]
    omega

end Counts

end Xv6.Lib
