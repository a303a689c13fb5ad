import Mathlib.Tactic

/-!
# Lib — Seek

A head on a line visits points.  `tour c l` is the way it goes from `c` through the points of `l`;
in a `Nearest` order it always goes to a point that is nearest.

* `le_tour`: any order has to go as far as from one point to any other.
* `Nearest.one_sided`: the nearest-first order is as good as that when the points lie on one side.
* `Nearest.tour_le`: it never goes more than twice as far.  The covered stretch grows at both ends; the
  way back over it is paid by the gap that waits on the other side, which is at least as long.
-/

namespace Xv6.Lib

variable {R : Type} [CommRing R] [LinearOrder R] [IsStrictOrderedRing R]

def tour : R → List R → R
  | _, [] => 0
  | c, x :: l => |x - c| + tour x l

def Nearest : R → List R → Prop
  | _, [] => True
  | c, x :: l => (∀ y ∈ l, |x - c| ≤ |y - c|) ∧ Nearest x l

variable {c x y lo hi : R} {l : List R}

theorem tour_nonneg : ∀ (l : List R) (c : R), 0 ≤ tour c l := by
  intro l
  induction l with
  | nil => exact fun _ => le_refl 0
  | cons x l ih => exact fun c => add_nonneg (abs_nonneg _) (ih x)

/-! ### Any order -/

theorem dist_le_tour : ∀ (l : List R) (c : R), x ∈ l → |x - c| ≤ tour c l := by
  intro l
  induction l with
  | nil => exact fun _ hx => absurd hx List.not_mem_nil
  | cons y l ih =>
      intro c hx
      rcases List.mem_cons.mp hx with rfl | hx
      · exact le_add_of_nonneg_right (tour_nonneg l x)
      · have hrest := ih y hx
        have htri := abs_sub_le x y c
        rw [tour]
        linarith

/-- A tour goes at least from any of its points to any other. -/
theorem le_tour : ∀ (l : List R) (c : R), x ∈ c :: l → y ∈ c :: l → |x - y| ≤ tour c l := by
  intro l
  induction l with
  | nil =>
      intro c hx hy
      rw [List.mem_singleton.mp hx, List.mem_singleton.mp hy, sub_self, abs_zero]
      exact tour_nonneg [] c
  | cons z l ih =>
      intro c hx hy
      rcases List.mem_cons.mp hx with hxc | hxl
      · rcases List.mem_cons.mp hy with hyc | hyl
        · rw [hxc, hyc, sub_self, abs_zero]
          exact tour_nonneg _ _
        · rw [hxc, abs_sub_comm]
          exact dist_le_tour _ _ hyl
      · rcases List.mem_cons.mp hy with hyc | hyl
        · rw [hyc]
          exact dist_le_tour _ _ hxl
        · exact (ih z hxl hyl).trans (le_add_of_nonneg_left (abs_nonneg _))

/-! ### Nearest first -/

omit [IsStrictOrderedRing R] in
theorem tour_neg : ∀ (l : List R) (c : R), tour (-c) (l.map Neg.neg) = tour c l := by
  intro l
  induction l with
  | nil => exact fun _ => rfl
  | cons x l ih =>
      intro c
      rw [List.map_cons, tour, tour, ih x, neg_sub_neg, abs_sub_comm]

omit [IsStrictOrderedRing R] in
theorem Nearest.neg : ∀ (l : List R) (c : R), Nearest c l → Nearest (-c) (l.map Neg.neg) := by
  intro l
  induction l with
  | nil => exact fun _ _ => trivial
  | cons x l ih =>
      rintro c ⟨hx, hl⟩
      refine ⟨fun y hy => ?_, ih x hl⟩
      obtain ⟨z, hz, rfl⟩ := List.mem_map.mp hy
      rw [neg_sub_neg, neg_sub_neg, abs_sub_comm c x, abs_sub_comm c z]
      exact hx z hz

/-- All points lie below the head. -/
theorem Nearest.one_sided : ∀ (l : List R) (c : R), Nearest c l → (∀ x ∈ l, x ≤ c) → lo ≤ c →
    (∀ x ∈ l, lo ≤ x) → tour c l ≤ c - lo := by
  intro l
  induction l with
  | nil => exact fun c _ _ hlo _ => sub_nonneg.mpr hlo
  | cons x l ih =>
      rintro c ⟨hx, hl⟩ hle hlo hge
      have hxc := hle x (List.mem_cons_self ..)
      have hbelow : ∀ y ∈ l, y ≤ x := by
        intro y hy
        have hyc := hle y (List.mem_cons_of_mem x hy)
        have hxy := hx y hy
        rw [abs_of_nonpos (sub_nonpos.mpr hxc), abs_of_nonpos (sub_nonpos.mpr hyc)] at hxy
        linarith
      have hrest := ih x hl hbelow (hge x (List.mem_cons_self ..))
        fun y hy => hge y (List.mem_cons_of_mem x hy)
      rw [tour, abs_of_nonpos (sub_nonpos.mpr hxc)]
      linarith

/-- The stretch from `a` to `c` is covered and the head is at `c`; no point below it is nearer to it
than `g`. -/
theorem Nearest.tour_covered : ∀ (n : Nat) (l : List R) (a c lo hi g : R), l.length = n →
    Nearest c l → a ≤ c → (∀ x ∈ l, x ≤ a - g ∨ c ≤ x) → 0 ≤ g → lo ≤ a - g → c ≤ hi →
    (∀ x ∈ l, lo ≤ x ∧ x ≤ hi) → tour c l ≤ 2 * (hi - lo) - (c - a) - g := by
  intro n
  induction n with
  | zero =>
      intro l a c lo hi g hlen hl hac hout hg hlo hhi hin
      rw [List.length_eq_zero_iff.mp hlen, tour]
      linarith
  | succ n ih =>
      intro l a c lo hi g hlen hl hac hout hg hlo hhi hin
      cases l with
      | nil => cases hlen
      | cons x l =>
          obtain ⟨hx, hl⟩ := hl
          have hlen : l.length = n := Nat.succ_injective hlen
          have hin' : ∀ y ∈ l, lo ≤ y ∧ y ≤ hi := fun y hy => hin y (List.mem_cons_of_mem x hy)
          have hout' : ∀ y ∈ l, y ≤ a - g ∨ c ≤ y := fun y hy => hout y (List.mem_cons_of_mem x hy)
          obtain ⟨hlox, hxhi⟩ := hin x (List.mem_cons_self ..)
          rcases hout x (List.mem_cons_self ..) with hxa | hcx
          · -- the head goes back over the stretch
            have hxc : x ≤ c := by linarith
            have hd : |x - c| = c - x := by rw [abs_of_nonpos (sub_nonpos.mpr hxc), neg_sub]
            have hfar : ∀ y ∈ l, c ≤ y → c - x ≤ y - c := fun y hy hcy => by
              have hxy := hx y hy
              rwa [hd, abs_of_nonneg (sub_nonneg.mpr hcy)] at hxy
            have hnear : ∀ y ∈ l, y ≤ a - g → y ≤ x := fun y hy hya => by
              have hxy := hx y hy
              have hyc : y ≤ c := by linarith
              rw [hd, abs_of_nonpos (sub_nonpos.mpr hyc)] at hxy
              linarith
            by_cases hright : ∃ y ∈ l, c ≤ y
            · obtain ⟨y, hy, hcy⟩ := hright
              have hgap := hfar y hy hcy
              have hyhi := (hin' y hy).2
              have hrest := ih (l.map Neg.neg) (-c) (-x) (-hi) (-lo) (c - x)
                (by rw [List.length_map, hlen]) (Nearest.neg l x hl) (by linarith) (by
                  intro z hz
                  obtain ⟨w, hw, rfl⟩ := List.mem_map.mp hz
                  rcases hout' w hw with hwa | hcw
                  · exact Or.inr (neg_le_neg (hnear w hw hwa))
                  · have := hfar w hw hcw
                    exact Or.inl (by linarith)) (by linarith) (by linarith) (by linarith) (by
                  intro z hz
                  obtain ⟨w, hw, rfl⟩ := List.mem_map.mp hz
                  exact ⟨neg_le_neg (hin' w hw).2, neg_le_neg (hin' w hw).1⟩)
              rw [tour_neg] at hrest
              rw [tour, hd]
              linarith
            · have hbelow : ∀ y ∈ l, y ≤ x := fun y hy =>
                (hout' y hy).elim (hnear y hy) fun hcy => absurd ⟨y, hy, hcy⟩ hright
              have hrest := Nearest.one_sided l x hl hbelow hlox fun y hy => (hin' y hy).1
              rw [tour, hd]
              linarith
          · -- the head goes on
            have hd : |x - c| = x - c := abs_of_nonneg (sub_nonneg.mpr hcx)
            have hrest := ih l a x lo hi g hlen hl (by linarith) (by
              intro y hy
              rcases hout' y hy with hya | hcy
              · exact Or.inl hya
              · have hxy := hx y hy
                rw [hd, abs_of_nonneg (sub_nonneg.mpr hcy)] at hxy
                exact Or.inr (by linarith)) hg hlo hxhi hin'
            rw [tour, hd]
            linarith

/-- **Nearest first** goes at most twice as far as from the lowest point to the highest. -/
theorem Nearest.tour_le (hl : Nearest c l) (hc : lo ≤ c ∧ c ≤ hi) (hin : ∀ x ∈ l, lo ≤ x ∧ x ≤ hi) :
    tour c l ≤ 2 * (hi - lo) := by
  have h := Nearest.tour_covered l.length l c c lo hi 0 rfl hl (le_refl c) (fun x _ => by
    rw [sub_zero]
    exact le_total x c) (le_refl 0) (by linarith [hc.1]) hc.2 hin
  linarith

end Xv6.Lib
