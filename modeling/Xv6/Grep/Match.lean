import Mathlib.Computability.Language
import Mathlib.Tactic
import Xv6.Lib.Cstring

/-!
# Grep — Match

The matcher of `grep`: `match`, `matchhere`, `matchstar`.

A string is the list of its bytes from a pointer on, without the NUL.  The loop of `matchstar` calls
`matchhere` on a shorter pattern, which is an argument of the loop here.

* `pieces`: a pattern is a list of pieces, each a byte or a starred one, with `$` or without.
* `matchhere_iff`: `matchhere` finds the language of the pieces at the start of the text.
* `grepMatch_spec`: `match` finds it anywhere, between the anchors.
-/

namespace Xv6.Grep
open Xv6.Lib

/-- The loop of `matchstar`, where `here` is `matchhere(re, _)`. -/
def starLoop (here : List Byte → Bool) (c : Byte) : List Byte → Bool
  | [] => here []
  | b :: text => here (b :: text) || (decide (b = c ∨ c = chr '.') && starLoop here c text)

/-- `*text!='\0' && (c=='.' || c==*text)` -/
def fitsNext (c : Byte) (text : List Byte) : Bool :=
  decide (text ≠ []) && decide (c = chr '.' ∨ c = deref text)

def matchhere : List Byte → List Byte → Bool
  | [], _ => true
  | [c], text => if c = chr '$' then decide (text = []) else fitsNext c text
  | c :: d :: re, text =>
    if d = chr '*' then starLoop (matchhere re) c text
    else fitsNext c text && matchhere (d :: re) text.tail

def matchstar (c : Byte) (re text : List Byte) : Bool := starLoop (matchhere re) c text

/-- The loop of `match`. -/
def matchLoop (re : List Byte) : List Byte → Bool
  | [] => matchhere re []
  | b :: text => matchhere re (b :: text) || matchLoop re text

/-- `match` -/
def grepMatch (re text : List Byte) : Bool :=
  if deref re = chr '^' then matchhere re.tail text else matchLoop re text

/-! ### Patterns -/

inductive Piece where
  | one (c : Byte)
  | star (c : Byte)
  deriving DecidableEq

/-- The pieces of a pattern, and whether a `$` follows them. -/
def pieces : List Byte → List Piece × Bool
  | [] => ([], false)
  | [c] => if c = chr '$' then ([], true) else ([.one c], false)
  | c :: d :: re =>
    if d = chr '*' then (.star c :: (pieces re).1, (pieces re).2)
    else (.one c :: (pieces (d :: re)).1, (pieces (d :: re)).2)

/-- `c` in a pattern is for the byte `b`. -/
def Fits (c b : Byte) : Prop := c = chr '.' ∨ c = b

instance (c b : Byte) : Decidable (Fits c b) := inferInstanceAs (Decidable (_ ∨ _))

/-- The texts of a byte of a pattern. -/
def byteLang (c : Byte) : Language Byte := {w | ∃ b, Fits c b ∧ w = [b]}

def Piece.lang : Piece → Language Byte
  | .one c => byteLang c
  | .star c => KStar.kstar (byteLang c)

/-- The texts of a list of pieces. -/
def lang (ps : List Piece) : Language Byte := (ps.map Piece.lang).prod

variable {c : Byte} {re text w : List Byte} {p : Piece} {ps : List Piece}

theorem mem_lang_cons : w ∈ lang (p :: ps) ↔ ∃ a ∈ p.lang, ∃ b ∈ lang ps, a ++ b = w := by
  rw [lang, List.map_cons, List.prod_cons]
  exact Language.mem_mul

theorem mem_lang_nil : w ∈ lang [] ↔ w = [] := Iff.rfl

theorem mem_star : w ∈ (Piece.star c).lang ↔ ∀ b ∈ w, Fits c b := by
  refine Language.mem_kstar.trans ⟨?_, fun h => ?_⟩
  · rintro ⟨L, rfl, hL⟩ b hb
    obtain ⟨x, hx, hbx⟩ := List.mem_flatten.mp hb
    obtain ⟨b', hfits, rfl⟩ := hL x hx
    rwa [List.mem_singleton.mp hbx]
  · refine ⟨w.map fun b => [b], ?_, fun x hx => ?_⟩
    · rw [← List.flatMap_def]
      exact (List.flatMap_singleton' w).symm
    · obtain ⟨b, hb, rfl⟩ := List.mem_map.mp hx
      exact ⟨b, h b hb, rfl⟩

/-- The pieces match at the start of the text, and to its end when a `$` follows. -/
def MatchesHere (ps : List Piece × Bool) (text : List Byte) : Prop :=
  ∃ mid post, text = mid ++ post ∧ mid ∈ lang ps.1 ∧ (ps.2 = true → post = [])

theorem matchesHere_one {stop : Bool} :
    MatchesHere (.one c :: ps, stop) text ↔
      ∃ b rest, text = b :: rest ∧ Fits c b ∧ MatchesHere (ps, stop) rest := by
  constructor
  · rintro ⟨mid, post, rfl, hmid, hstop⟩
    obtain ⟨a, ⟨b, hfits, rfl⟩, m, hm, rfl⟩ := mem_lang_cons.mp hmid
    exact ⟨b, m ++ post, rfl, hfits, m, post, rfl, hm, hstop⟩
  · rintro ⟨b, rest, rfl, hfits, m, post, rfl, hm, hstop⟩
    exact ⟨b :: m, post, rfl, mem_lang_cons.mpr ⟨[b], ⟨b, hfits, rfl⟩, m, hm, rfl⟩, hstop⟩

theorem matchesHere_star {stop : Bool} :
    MatchesHere (.star c :: ps, stop) text ↔
      ∃ run rest, text = run ++ rest ∧ (∀ b ∈ run, Fits c b) ∧ MatchesHere (ps, stop) rest := by
  constructor
  · rintro ⟨mid, post, rfl, hmid, hstop⟩
    obtain ⟨a, ha, m, hm, rfl⟩ := mem_lang_cons.mp hmid
    exact ⟨a, m ++ post, List.append_assoc .., mem_star.mp ha, m, post, rfl, hm, hstop⟩
  · rintro ⟨run, rest, rfl, hrun, m, post, rfl, hm, hstop⟩
    exact ⟨run ++ m, post, (List.append_assoc ..).symm,
      mem_lang_cons.mpr ⟨run, mem_star.mpr hrun, m, hm, rfl⟩, hstop⟩

/-- **`matchstar`** tries every number of bytes. -/
theorem starLoop_iff {here : List Byte → Bool} : starLoop here c text = true ↔
    ∃ run rest, text = run ++ rest ∧ (∀ b ∈ run, Fits c b) ∧ here rest = true := by
  induction text with
  | nil =>
      refine ⟨fun h => ⟨[], [], rfl, by simp, h⟩, ?_⟩
      rintro ⟨run, rest, heq, -, h⟩
      obtain ⟨rfl, rfl⟩ := List.append_eq_nil_iff.mp heq.symm
      exact h
  | cons b text ih =>
      have hfits : (b = c ∨ c = chr '.') ↔ Fits c b := by rw [Fits, eq_comm, or_comm]
      rw [starLoop, Bool.or_eq_true, Bool.and_eq_true, decide_eq_true_iff, ih, hfits]
      constructor
      · rintro (h | ⟨hb, run, rest, rfl, hrun, h⟩)
        · exact ⟨[], b :: text, rfl, by simp, h⟩
        · refine ⟨b :: run, rest, rfl, fun b' hb' => ?_, h⟩
          rcases List.mem_cons.mp hb' with rfl | hb'
          · exact hb
          · exact hrun b' hb'
      · rintro ⟨run, rest, heq, hrun, h⟩
        cases run with
        | nil =>
            rw [heq]
            exact Or.inl h
        | cons b' run =>
            obtain ⟨rfl, rfl⟩ := List.cons.inj heq
            exact Or.inr ⟨hrun b (List.mem_cons_self ..), run, rest, rfl,
              fun b' hb' => hrun b' (List.mem_cons_of_mem b hb'), h⟩

theorem fitsNext_iff : fitsNext c text = true ↔ ∃ b rest, text = b :: rest ∧ Fits c b := by
  cases text with
  | nil => simp [fitsNext]
  | cons b rest =>
      rw [fitsNext, Bool.and_eq_true, decide_eq_true_iff, decide_eq_true_iff]
      constructor
      · exact fun h => ⟨b, rest, rfl, h.2⟩
      · rintro ⟨b', rest', heq, h⟩
        obtain ⟨rfl, rfl⟩ := List.cons.inj heq
        exact ⟨List.cons_ne_nil _ _, h⟩

/-- **`matchhere`** finds the pieces of the pattern at the start of the text. -/
theorem matchhere_iff : ∀ (re text : List Byte),
    matchhere re text = true ↔ MatchesHere (pieces re) text := by
  intro re
  induction re using pieces.induct with
  | case1 => exact fun text => ⟨fun _ => ⟨[], text, rfl, rfl, fun h => by cases h⟩, fun _ => by rw [matchhere]⟩
  | case2 =>
      intro text
      rw [matchhere, pieces, if_pos rfl, if_pos rfl, decide_eq_true_iff]
      constructor
      · rintro rfl
        exact ⟨[], [], rfl, rfl, fun _ => rfl⟩
      · rintro ⟨mid, post, rfl, hmid, hstop⟩
        rw [mem_lang_nil.mp hmid, hstop rfl]
        rfl
  | case3 c hc =>
      intro text
      have hend : ∀ {rest : List Byte}, MatchesHere ([], false) rest := fun {rest} =>
        ⟨[], rest, rfl, rfl, fun h => by cases h⟩
      rw [matchhere, pieces, if_neg hc, if_neg hc, matchesHere_one, fitsNext_iff]
      exact ⟨fun ⟨b, rest, heq, h⟩ => ⟨b, rest, heq, h, hend⟩, fun ⟨b, rest, heq, h, _⟩ => ⟨b, rest, heq, h⟩⟩
  | case4 c re ih =>
      intro text
      rw [matchhere, pieces, if_pos rfl, if_pos rfl, starLoop_iff, matchesHere_star]
      simp only [ih]
  | case5 c d re hd ih =>
      intro text
      rw [matchhere, pieces, if_neg hd, if_neg hd, matchesHere_one, Bool.and_eq_true, fitsNext_iff, ih]
      constructor
      · rintro ⟨⟨b, rest, rfl, h⟩, h'⟩
        exact ⟨b, rest, rfl, h, h'⟩
      · rintro ⟨b, rest, rfl, h, h'⟩
        exact ⟨⟨b, rest, rfl, h⟩, h'⟩

theorem matchLoop_iff : matchLoop re text = true ↔
    ∃ pre rest, text = pre ++ rest ∧ matchhere re rest = true := by
  induction text with
  | nil =>
      refine ⟨fun h => ⟨[], [], rfl, h⟩, ?_⟩
      rintro ⟨pre, rest, heq, h⟩
      obtain ⟨rfl, rfl⟩ := List.append_eq_nil_iff.mp heq.symm
      exact h
  | cons b text ih =>
      rw [matchLoop, Bool.or_eq_true, ih]
      constructor
      · rintro (h | ⟨pre, rest, rfl, h⟩)
        · exact ⟨[], b :: text, rfl, h⟩
        · exact ⟨b :: pre, rest, rfl, h⟩
      · rintro ⟨pre, rest, heq, h⟩
        cases pre with
        | nil =>
            rw [heq]
            exact Or.inl h
        | cons b' pre =>
            obtain ⟨rfl, rfl⟩ := List.cons.inj heq
            exact Or.inr ⟨pre, rest, rfl, h⟩

/-- A pattern: whether a `^` comes first, and the rest. -/
def anchored (re : List Byte) : Bool × List Byte :=
  if deref re = chr '^' then (true, re.tail) else (false, re)

/-- The text has a part that the pattern is for: at the start after a `^`, at the end before a `$`. -/
def Holds (re text : List Byte) : Prop :=
  ∃ pre mid post, text = pre ++ mid ++ post ∧ mid ∈ lang (pieces (anchored re).2).1 ∧
    ((anchored re).1 = true → pre = []) ∧ ((pieces (anchored re).2).2 = true → post = [])

/-- **`match`** finds the language of the pattern. -/
theorem grepMatch_spec (re text : List Byte) : grepMatch re text = true ↔ Holds re text := by
  rw [grepMatch, Holds, anchored]
  by_cases hc : deref re = chr '^'
  · simp only [if_pos hc, matchhere_iff, true_implies]
    constructor
    · rintro ⟨mid, post, rfl, hmid, hstop⟩
      exact ⟨[], mid, post, rfl, hmid, rfl, hstop⟩
    · rintro ⟨pre, mid, post, rfl, hmid, rfl, hstop⟩
      exact ⟨mid, post, rfl, hmid, hstop⟩
  · simp only [if_neg hc, matchLoop_iff, matchhere_iff, Bool.false_eq_true, false_implies, true_and]
    constructor
    · rintro ⟨pre, rest, rfl, mid, post, rfl, hmid, hstop⟩
      exact ⟨pre, mid, post, (List.append_assoc ..).symm, hmid, hstop⟩
    · rintro ⟨pre, mid, post, rfl, hmid, hstop⟩
      exact ⟨pre, mid ++ post, List.append_assoc .., mid, post, rfl, hmid, hstop⟩

instance (re text : List Byte) : Decidable (Holds re text) :=
  decidable_of_iff _ (grepMatch_spec re text)

end Xv6.Grep
