import Mathlib.Tactic

/-!
# Lib — Slots

A list of records, some of them dead, as a finite map.

A record that is `live` stands for its key.  A new record takes the place of the first dead one, or goes
to the end; a record that is removed becomes a dead one in its place.

* `find_put`, `find_clear`: the map after each of them.
* `Distinct.put`, `Distinct.clear`: no key comes twice.
-/

namespace Xv6.Lib.Slots

variable {α κ : Type}

/-- The list with `x` at place `i`, which may be its end. -/
def replace (l : List α) (i : Nat) (x : α) : List α := l.take i ++ x :: l.drop (i + 1)

variable [DecidableEq κ] (live : α → Bool) (key : α → κ)

/-- The first live record with a key. -/
def find (l : List α) (k : κ) : Option α := l.find? fun x => live x && decide (key x = k)

/-- Where it is. -/
def place (l : List α) (k : κ) : Nat := l.findIdx fun x => live x && decide (key x = k)

/-- The first dead record, or the end. -/
def hole (l : List α) : Nat := l.findIdx fun x => !live x

/-- No two live records have the same key. -/
def Distinct (l : List α) : Prop :=
  l.Pairwise fun x y => live x = true → live y = true → key x ≠ key y

variable {live key} {l : List α} {x y : α} {k : κ} {i : Nat}

/-! ### A place of the list -/

theorem getElem?_replace (h : i ≤ l.length) (x : α) (j : Nat) :
    (replace l i x)[j]? = if j = i then some x else l[j]? := by
  have hlen : (l.take i).length = i := List.length_take_of_le h
  rw [replace]
  rcases Nat.lt_trichotomy j i with hj | hj | hj
  · rw [List.getElem?_append_left (by omega), if_neg hj.ne, List.getElem?_take_of_lt hj]
  · rw [List.getElem?_append_right (by omega), if_pos hj, hj, hlen, Nat.sub_self]
    rfl
  · obtain ⟨m, rfl⟩ : ∃ m, j = i + 1 + m := ⟨j - (i + 1), by omega⟩
    rw [List.getElem?_append_right (by omega), if_neg hj.ne', hlen,
      show i + 1 + m - i = m + 1 by omega, List.getElem?_cons_succ, List.getElem?_drop]

/-- What the place held before. -/
theorem split_at (h : i ≤ l.length) : (i = l.length ∧ l = l.take i ∧ l.drop (i + 1) = []) ∨
    ∃ y, l[i]? = some y ∧ l = l.take i ++ y :: l.drop (i + 1) := by
  rcases Nat.lt_or_eq_of_le h with hlt | heq
  · refine Or.inr ⟨l[i], List.getElem?_eq_getElem hlt, ?_⟩
    rw [← List.drop_eq_getElem_cons hlt, List.take_append_drop]
  · exact Or.inl ⟨heq, by rw [heq, List.take_length], List.drop_eq_nil_of_le (by omega)⟩

theorem find_append (l₁ l₂ : List α) (k : κ) :
    find live key (l₁ ++ l₂) k = (find live key l₁ k).or (find live key l₂ k) := List.find?_append ..

theorem find_cons (x : α) (l : List α) (k : κ) : find live key (x :: l) k =
    if live x = true ∧ key x = k then some x else find live key l k := by
  rw [find, List.find?_cons]
  by_cases h : live x = true ∧ key x = k
  · simp [h.1, h.2]
  · rw [if_neg h]
    have : (live x && decide (key x = k)) = false := by simpa using h
    rw [this]
    rfl

theorem find_eq_none : find live key l k = none ↔ ∀ y ∈ l, live y = true → key y ≠ k := by
  rw [find, List.find?_eq_none]
  simp

/-- A key that neither the old nor the new record has. -/
theorem find_replace_ne (h : i ≤ l.length) (hx : live x = true → key x ≠ k)
    (hold : ∀ y, l[i]? = some y → live y = true → key y ≠ k) :
    find live key (replace l i x) k = find live key l k := by
  have hskip : ∀ z l', (live z = true → key z ≠ k) → find live key (z :: l') k = find live key l' k :=
    fun z l' hz => by rw [find_cons, if_neg fun hb => hz hb.1 hb.2]
  rw [replace, find_append, hskip x _ hx]
  rcases split_at h with ⟨-, htake, hdrop⟩ | ⟨y, hy, hl⟩
  · rw [hdrop, ← htake]
    exact Option.or_none
  · conv => rhs; rw [hl]
    rw [find_append, hskip y _ (hold y hy)]

theorem find_replace_self (hx : live x = true) (hnew : find live key (l.take i) (key x) = none) :
    find live key (replace l i x) (key x) = some x := by
  rw [replace, find_append, hnew, find_cons, if_pos ⟨hx, rfl⟩]
  rfl

omit [DecidableEq κ] in
theorem Distinct.replace (hd : Distinct live key l) (h : i ≤ l.length)
    (hx : live x = true → ∀ j y, j ≠ i → l[j]? = some y → live y = true → key y ≠ key x) :
    Distinct live key (replace l i x) := by
  rw [Distinct, List.pairwise_iff_getElem] at hd ⊢
  intro a b ha hb hab hla hlb
  have ha' := getElem?_replace h x a
  have hb' := getElem?_replace h x b
  rw [List.getElem?_eq_getElem ha] at ha'
  rw [List.getElem?_eq_getElem hb] at hb'
  by_cases hai : a = i
  · rw [if_pos hai] at ha'
    rw [if_neg (by omega)] at hb'
    have hxa := Option.some.inj ha'
    rw [hxa] at hla ⊢
    exact (hx hla b _ (by omega) hb'.symm hlb).symm
  · rw [if_neg hai] at ha'
    by_cases hbi : b = i
    · rw [if_pos hbi] at hb'
      have hxb := Option.some.inj hb'
      rw [hxb] at hlb ⊢
      exact hx hlb a _ hai ha'.symm hla
    · rw [if_neg hbi] at hb'
      obtain ⟨ha₁, ha₂⟩ := List.getElem?_eq_some_iff.mp ha'.symm
      obtain ⟨hb₁, hb₂⟩ := List.getElem?_eq_some_iff.mp hb'.symm
      have := hd a b ha₁ hb₁ hab
      rw [ha₂, hb₂] at this
      exact this hla hlb

/-! ### A new record -/

theorem hole_le (live : α → Bool) (l : List α) : hole live l ≤ l.length := List.findIdx_le_length

/-- What is at the place is dead. -/
theorem dead_hole (h : l[hole live l]? = some y) : live y = false := by
  obtain ⟨hlt, rfl⟩ := List.getElem?_eq_some_iff.mp h
  have hdead : (!live (l[hole live l])) = true := List.findIdx_getElem (w := hlt)
  simpa using hdead

/-- **The map after a new record**. -/
theorem find_put (hx : live x = true) (hnew : find live key l (key x) = none) :
    find live key (replace l (hole live l) x) =
      Function.update (find live key l) (key x) (some x) := by
  funext k
  by_cases hk : k = key x
  · subst hk
    rw [Function.update_self]
    exact find_replace_self hx (find_eq_none.mpr fun y hy =>
      find_eq_none.mp hnew y (List.mem_of_mem_take hy))
  · rw [Function.update_of_ne hk]
    refine find_replace_ne (hole_le live l) (fun _ => Ne.symm hk) fun y hy hlive => ?_
    rw [dead_hole hy] at hlive
    cases hlive

theorem Distinct.put (h : Distinct live key l) (hnew : find live key l (key x) = none) :
    Distinct live key (Slots.replace l (hole live l) x) :=
  h.replace (hole_le live l) fun _ _ y _ hy => find_eq_none.mp hnew y (List.mem_of_getElem? hy)

/-! ### A record less -/

theorem find_eq_getElem? (l : List α) (k : κ) : find live key l k = l[place live key l k]? := by
  rw [find, List.find?_eq_getElem?_findIdx]
  rfl

theorem place_lt (h : find live key l k = some y) : place live key l k < l.length := by
  rw [find_eq_getElem?] at h
  exact (List.getElem?_eq_some_iff.mp h).1

theorem find_some (h : find live key l k = some y) : live y = true ∧ key y = k := by
  simpa using List.find?_some h

/-- **The map after a record is removed**. -/
theorem find_clear (hd : Distinct live key l) (h : find live key l k = some y)
    (hx : live x = false) :
    find live key (replace l (place live key l k) x) = Function.update (find live key l) k none := by
  have hlt := place_lt h
  have hat : l[place live key l k]? = some y := by rw [← find_eq_getElem?, h]
  obtain ⟨hy, hky⟩ := find_some h
  funext k'
  by_cases hk : k' = k
  · subst hk
    rw [Function.update_self, find_eq_none]
    intro z hz hlz
    obtain ⟨j, hj⟩ := List.mem_iff_getElem?.mp hz
    rw [getElem?_replace hlt.le] at hj
    by_cases hjp : j = place live key l k'
    · rw [if_pos hjp] at hj
      rw [← Option.some.inj hj, hx] at hlz
      cases hlz
    · rw [if_neg hjp] at hj
      obtain ⟨hj₁, hj₂⟩ := List.getElem?_eq_some_iff.mp hj
      obtain ⟨hp₁, hp₂⟩ := List.getElem?_eq_some_iff.mp hat
      rw [Distinct, List.pairwise_iff_getElem] at hd
      rcases Nat.lt_or_gt_of_ne hjp with hlt' | hgt
      · have := hd j _ hj₁ hp₁ hlt'
        rw [hj₂, hp₂, hky] at this
        exact this hlz hy
      · have := hd _ j hp₁ hj₁ hgt
        rw [hj₂, hp₂, hky] at this
        exact (this hy hlz).symm
  · rw [Function.update_of_ne hk]
    refine find_replace_ne hlt.le (fun hl => ?_) fun z hz _ => ?_
    · rw [hx] at hl
      cases hl
    · rw [← Option.some.inj (hat.symm.trans hz), hky]
      exact Ne.symm hk

theorem Distinct.clear (hd : Distinct live key l) (h : find live key l k = some y)
    (hx : live x = false) : Distinct live key (Slots.replace l (place live key l k) x) :=
  hd.replace (place_lt h).le fun hl => by
    rw [hx] at hl
    cases hl

end Xv6.Lib.Slots
