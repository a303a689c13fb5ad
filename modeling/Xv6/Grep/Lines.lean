import Xv6.Grep.Match

/-!
# Grep — Lines

The loop of `grep` over what `read` finds, line after line, in a buffer of `BUFSZ` bytes.

A `read` finds some of the bytes that are left, how many is not known (`chunk`), none only at the end.

* `grepLines_spec`: the inner loop prints the lines of the buffer and leaves the part of a line.
* `grep_prints`: what `grep` prints does not depend on the reads.
-/

namespace Xv6.Grep
open Xv6.Lib

/-- `sizeof(buf)` -/
abbrev BUFSZ : Nat := 1024

def strchr (c : Byte) : List Byte → Option Nat
  | [] => none
  | b :: s => if b = 0 then none else if b = c then some 0 else (strchr c s).map (· + 1)

/-- The inner loop of `grep`: what is written, and the bytes of the buffer from `p` on. -/
def grepLines (pattern : List Byte) : Nat → List Byte → List Byte × List Byte
  | 0, p => ([], p)
  | turns + 1, p =>
    match strchr (chr '\n') p with
    | none => ([], p)
    | some q =>
      let next := grepLines pattern turns (p.drop (q + 1))
      (if grepMatch pattern (p.take q) then p.take (q + 1) ++ next.1 else next.1, next.2)

/-- What the `i`th `read` of `want` bytes finds of `rest`, and what it leaves. -/
def read (chunk : Nat → Nat) (i want : Nat) (rest : List Byte) : List Byte × List Byte :=
  (rest.take (min want (chunk i + 1)), rest.drop (min want (chunk i + 1)))

/-- The loop of `grep`, with `buf[0..m)` and what is left of the file. -/
def grepLoop (pattern : List Byte) (chunk : Nat → Nat) : Nat → Nat → List Byte → List Byte →
    Except String (List Byte)
  | 0, _, _, _ => .error "no turn is left"
  | turns + 1, i, buf, rest =>
    let got := read chunk i (BUFSZ - buf.length - 1) rest
    if got.1 = [] then .ok []
    else
      let out := grepLines pattern (buf ++ got.1).length (buf ++ got.1)
      (grepLoop pattern chunk turns (i + 1) out.2 got.2).map (out.1 ++ ·)

def grep (pattern : List Byte) (chunk : Nat → Nat) (input : List Byte) : Except String (List Byte) :=
  grepLoop pattern chunk (input.length + 1) 0 [] input

/-! ### Lines -/

/-- The lines that a newline ends. -/
def linesOf (input : List Byte) : List (List Byte) := (input.splitOn (chr '\n')).dropLast

/-- The line and its newline are in the buffer at once, and the line is a string. -/
def Fitting (line : List Byte) : Prop := line.length + 1 < BUFSZ ∧ 0 ∉ line

instance (line : List Byte) : Decidable (Fitting line) := inferInstanceAs (Decidable (_ ∧ _))

/-- The lines that `grep` comes to. -/
def seen (input : List Byte) : List (List Byte) := (linesOf input).takeWhile fun l => decide (Fitting l)

/-- What `grep` prints of the lines. -/
def shown (pattern : List Byte) (lines : List (List Byte)) : List Byte :=
  (lines.filter (grepMatch pattern)).flatMap (· ++ [chr '\n'])

variable {pattern line p rest input : List Byte} {chunk : Nat → Nat} {c : Byte}

/-- Either a line is found, or the string ends before one does. -/
theorem strchr_cases (hne : c ≠ 0) (p : List Byte) :
    (∃ line rest, p = line ++ c :: rest ∧ c ∉ line ∧ 0 ∉ line ∧ strchr c p = some line.length) ∨
    (strchr c p = none ∧ ∃ line rest, p = line ++ rest ∧ c ∉ line ∧ (rest = [] ∨ 0 ∈ line)) := by
  induction p with
  | nil => exact Or.inr ⟨rfl, [], [], rfl, List.not_mem_nil, Or.inl rfl⟩
  | cons b p ih =>
      by_cases hb0 : b = 0
      · subst hb0
        exact Or.inr ⟨if_pos rfl, [0], p, rfl, by simpa using hne, Or.inr (List.mem_singleton_self _)⟩
      · by_cases hbc : b = c
        · subst hbc
          refine Or.inl ⟨[], p, rfl, List.not_mem_nil, List.not_mem_nil, ?_⟩
          rw [strchr, if_neg hb0, if_pos rfl, List.length_nil]
        · rcases ih with ⟨line, rest, rfl, hc, h0, hs⟩ | ⟨hs, line, rest, rfl, hc, hend⟩
          · refine Or.inl ⟨b :: line, rest, rfl, ?_, ?_, ?_⟩
            · exact List.not_mem_cons_of_ne_of_not_mem (Ne.symm hbc) hc
            · exact List.not_mem_cons_of_ne_of_not_mem (Ne.symm hb0) h0
            · rw [strchr, if_neg hb0, if_neg hbc, hs, Option.map_some, List.length_cons]
          · refine Or.inr ⟨?_, b :: line, rest, rfl,
              List.not_mem_cons_of_ne_of_not_mem (Ne.symm hbc) hc, ?_⟩
            · rw [strchr, if_neg hb0, if_neg hbc, hs, Option.map_none]
            · exact hend.imp id (List.mem_cons_of_mem b)

theorem linesOf_cons (h : chr '\n' ∉ line) : linesOf (line ++ chr '\n' :: rest) = line :: linesOf rest := by
  rw [linesOf, List.splitOn_append_cons_self_of_not_mem h,
    List.dropLast_cons_of_ne_nil (List.splitOn_ne_nil _ _), linesOf]

/-- The first line starts with what comes before any newline. -/
theorem splitOn_append (h : c ∉ line) (rest : List Byte) :
    ∃ more lines, (line ++ rest).splitOn c = (line ++ more) :: lines := by
  induction line with
  | nil =>
      obtain ⟨more, lines, heq⟩ := List.exists_cons_of_ne_nil (List.splitOn_ne_nil c rest)
      exact ⟨more, lines, heq⟩
  | cons b line ih =>
      obtain ⟨more, lines, heq⟩ := ih (List.not_mem_of_not_mem_cons h)
      have hbc := List.ne_of_not_mem_cons h
      refine ⟨more, lines, ?_⟩
      rw [List.cons_append, List.splitOn_cons_eq_if_modifyHead, if_neg (by simpa using Ne.symm hbc), heq]
      rfl

theorem seen_cons (h : chr '\n' ∉ line) (hfit : Fitting line) :
    seen (line ++ chr '\n' :: rest) = line :: seen rest := by
  rw [seen, linesOf_cons h]
  exact List.takeWhile_cons_of_pos (decide_eq_true hfit)

/-- `grep` comes to no line after the start of one that does not fit. -/
theorem seen_bad (h : chr '\n' ∉ line) (hbad : 0 ∈ line ∨ BUFSZ ≤ line.length + 1) :
    seen (line ++ rest) = [] := by
  obtain ⟨more, lines, heq⟩ := splitOn_append h rest
  have hfit : ¬ Fitting (line ++ more) := by
    rintro ⟨hlen, h0⟩
    rcases hbad with hbad | hbad
    · exact h0 (List.mem_append_left _ hbad)
    · rw [List.length_append] at hlen
      omega
  rw [seen, linesOf, heq]
  cases lines with
  | nil => rfl
  | cons l lines => exact List.takeWhile_cons_of_neg (by simpa using hfit)

theorem seen_last (h : chr '\n' ∉ line) : seen line = [] := by
  rw [seen, linesOf, List.splitOn_eq_singleton h]
  rfl

theorem shown_cons (pattern line : List Byte) (lines : List (List Byte)) :
    shown pattern (line :: lines) =
      if grepMatch pattern line then line ++ [chr '\n'] ++ shown pattern lines else shown pattern lines := by
  rw [shown, List.filter_cons]
  split
  · rw [List.flatMap_cons, shown]
  · rfl

/-! ### The loops -/

theorem newline_ne_zero : chr '\n' ≠ 0 := by decide

/-- **The inner loop** prints the lines of the buffer, and leaves a part of a line. -/
theorem grepLines_spec (pattern rest : List Byte) : ∀ (turns : Nat) (p : List Byte), p.length ≤ turns →
    p.length < BUFSZ → ∃ out left, grepLines pattern turns p = (out, left) ∧
      shown pattern (seen (p ++ rest)) = out ++ shown pattern (seen (left ++ rest)) ∧
      left.length ≤ p.length ∧ strchr (chr '\n') left = none := by
  intro turns
  induction turns with
  | zero =>
      intro p hle hlt
      obtain rfl := List.length_eq_zero_iff.mp (Nat.le_zero.mp hle)
      exact ⟨[], [], rfl, rfl, le_refl _, rfl⟩
  | succ turns ih =>
      intro p hle hlt
      rcases strchr_cases newline_ne_zero p with ⟨line, after, rfl, hnl, h0, hs⟩ | ⟨hs, -⟩
      · rw [List.length_append, List.length_cons] at hle hlt
        obtain ⟨out, left, hrun, hshown, hleft, hnone⟩ := ih after (by omega) (by omega)
        have htake : (line ++ chr '\n' :: after).take line.length = line := List.take_left ..
        have htake' : (line ++ chr '\n' :: after).take (line.length + 1) = line ++ [chr '\n'] := by
          rw [List.take_append, List.take_of_length_le (Nat.le_succ _), Nat.add_sub_cancel_left,
            List.take_succ_cons, List.take_zero]
        have hdrop : (line ++ chr '\n' :: after).drop (line.length + 1) = after := by
          rw [List.drop_append, List.drop_of_length_le (Nat.le_succ _), Nat.add_sub_cancel_left,
            List.drop_succ_cons, List.drop_zero, List.nil_append]
        refine ⟨_, left, by rw [grepLines, hs]; simp only [htake, htake', hdrop, hrun]; rfl, ?_, ?_, hnone⟩
        · rw [List.append_assoc, List.cons_append, seen_cons hnl ⟨by omega, h0⟩, shown_cons, hshown]
          split
          · simp only [List.append_assoc]
          · rfl
        · rw [List.length_append, List.length_cons]
          omega
      · exact ⟨[], p, by rw [grepLines, hs], rfl, le_refl _, hs⟩

/-- A buffer that no line is in, and that `read` adds nothing to, has no more lines. -/
theorem seen_stop {buf : List Byte} (hnone : strchr (chr '\n') buf = none)
    (hstop : buf.length + 1 = BUFSZ ∨ rest = []) : seen (buf ++ rest) = [] := by
  rcases strchr_cases newline_ne_zero buf with ⟨_, _, _, _, _, hs⟩ | ⟨-, line, after, rfl, hnl, hend⟩
  · rw [hs] at hnone
    cases hnone
  · rw [List.append_assoc]
    rcases hend with rfl | h0
    · rw [List.append_nil] at hstop
      rw [List.nil_append]
      rcases hstop with hlen | rfl
      · exact seen_bad hnl (Or.inr hlen.ge)
      · rw [List.append_nil]
        exact seen_last hnl
    · exact seen_bad hnl (Or.inl h0)

/-- **The loop of `grep`** prints what is to come of the lines in the buffer and in the file. -/
theorem grepLoop_spec (pattern : List Byte) (chunk : Nat → Nat) : ∀ (turns i : Nat) (buf rest : List Byte),
    rest.length < turns → buf.length < BUFSZ → strchr (chr '\n') buf = none →
    grepLoop pattern chunk turns i buf rest = .ok (shown pattern (seen (buf ++ rest))) := by
  intro turns
  induction turns with
  | zero => exact fun _ _ _ hlt => absurd hlt (Nat.not_lt_zero _)
  | succ turns ih =>
      intro i buf rest hlt hbuf hnone
      have hsplit : (read chunk i (BUFSZ - buf.length - 1) rest).1 ++
          (read chunk i (BUFSZ - buf.length - 1) rest).2 = rest := List.take_append_drop _ _
      have hlen : (read chunk i (BUFSZ - buf.length - 1) rest).1.length ≤ BUFSZ - buf.length - 1 := by
        rw [read, List.length_take]
        omega
      rw [grepLoop]
      by_cases hgot : (read chunk i (BUFSZ - buf.length - 1) rest).1 = []
      · have hstop : buf.length + 1 = BUFSZ ∨ rest = [] := by
          rcases List.take_eq_nil_iff.mp hgot with hzero | hnil
          · simp only [BUFSZ] at *
            omega
          · exact Or.inr hnil
        rw [seen_stop hnone hstop]
        exact if_pos hgot
      · have hpos := List.length_pos_of_ne_nil hgot
        generalize read chunk i (BUFSZ - buf.length - 1) rest = got at *
        obtain ⟨got, left⟩ := got
        subst hsplit
        simp only [List.length_append] at hlen hpos hlt
        have hfull : (buf ++ got).length < BUFSZ := by
          rw [List.length_append]
          omega
        obtain ⟨out, buf', hrun, hshown, hle, hnone'⟩ :=
          grepLines_spec pattern left (buf ++ got).length (buf ++ got) (le_refl _) hfull
        simp only [if_neg hgot, hrun]
        rw [ih (i + 1) buf' left (by omega) (by omega) hnone', ← List.append_assoc, hshown]
        rfl

/-- **`grep`** prints the lines that have a part in the pattern's language, whatever the reads find at
a time, up to the first line that does not fit in the buffer or is not a string.  What follows the last
newline is not a line. -/
theorem grep_prints (pattern : List Byte) (chunk : Nat → Nat) (input : List Byte) :
    grep pattern chunk input = .ok
      ((((input.splitOn (chr '\n')).dropLast.takeWhile fun line => decide (Fitting line)).filter
        fun line => decide (Holds pattern line)).flatMap (· ++ [chr '\n'])) := by
  have hholds : (fun line => decide (Holds pattern line)) = grepMatch pattern :=
    funext fun line => by rw [Bool.eq_iff_iff, decide_eq_true_iff, grepMatch_spec]
  rw [grep, grepLoop_spec pattern chunk _ 0 [] input (Nat.lt_succ_self _) (by decide) rfl, hholds]
  rfl

end Xv6.Grep
