import Mathlib.Data.List.TakeWhile
import Mathlib.Tactic
import Xv6.Sh.Defs

/-!
# Sh — Grammar

The language of the shell: the tokens of a line, and the commands that they derive.

```
line  ::=  pipe &*  |  pipe &* ; line
pipe  ::=  exec  |  exec | pipe
exec  ::=  (word | redir)*  |  ( line ) redir*
redir ::=  < word  |  > word  |  >> word
```

* `Lexes`: a line is cut into tokens, each as long as can be.
* `Derives`: what a list of tokens stands for.
-/

namespace Xv6.Sh
open Xv6.Lib

inductive Tok where
  | bar
  | lparen
  | rparen
  | semi
  | amp
  | lt
  | gt
  | append
  | word (w : List Byte)
  deriving DecidableEq

/-- What `gettoken` returns for a token. -/
def Tok.code : Tok → Byte
  | .bar => chr '|'
  | .lparen => chr '('
  | .rparen => chr ')'
  | .semi => chr ';'
  | .amp => chr '&'
  | .lt => chr '<'
  | .gt => chr '>'
  | .append => chr '+'
  | .word _ => chr 'a'

/-- The tokens of one byte that nothing can make longer. -/
inductive Single : Byte → Tok → Prop where
  | bar : Single (chr '|') .bar
  | lparen : Single (chr '(') .lparen
  | rparen : Single (chr ')') .rparen
  | semi : Single (chr ';') .semi
  | amp : Single (chr '&') .amp
  | lt : Single (chr '<') .lt

/-- **The tokens of a line.** -/
inductive Lexes : List Byte → List Tok → Prop where
  | nil : Lexes [] []
  | space {c : Byte} {l : List Byte} {ts : List Tok} (hc : strchr whitespace c = true)
      (h : Lexes l ts) : Lexes (c :: l) ts
  | single {c : Byte} {tok : Tok} {l : List Byte} {ts : List Tok} (hc : Single c tok)
      (h : Lexes l ts) : Lexes (c :: l) (tok :: ts)
  | append {l : List Byte} {ts : List Tok} (h : Lexes l ts) :
      Lexes (chr '>' :: chr '>' :: l) (.append :: ts)
  | gt {l : List Byte} {ts : List Tok} (hl : l.head? ≠ some (chr '>')) (h : Lexes l ts) :
      Lexes (chr '>' :: l) (.gt :: ts)
  | word {w l : List Byte} {ts : List Tok} (hne : w ≠ []) (hw : ∀ c ∈ w, wordByte c = true)
      (hl : ∀ c, l.head? = some c → wordByte c = false) (h : Lexes l ts) :
      Lexes (w ++ l) (.word w :: ts)

/-- A command with its strings. -/
inductive Tree where
  | exec (args : List (List Byte))
  | redir (cmd : Tree) (file : List Byte) (mode fd : Nat)
  | pipe (left right : Tree)
  | list (left right : Tree)
  | back (cmd : Tree)
  deriving DecidableEq

inductive Dir where
  | input
  | output
  | append
  deriving DecidableEq

def Dir.tok : Dir → Tok
  | .input => .lt
  | .output => .gt
  | .append => .append

def Dir.mode : Dir → Nat
  | .input => O_RDONLY
  | .output => O_WRONLY ||| O_CREATE ||| O_TRUNC
  | .append => O_WRONLY ||| O_CREATE

def Dir.fd : Dir → Nat
  | .input => 0
  | .output => 1
  | .append => 1

/-- A redirection. -/
structure Redir where
  dir : Dir
  file : List Byte

def Redir.toks (r : Redir) : List Tok := [r.dir.tok, .word r.file]

/-- Redirections around a command, the first one innermost. -/
def Tree.redirs (t : Tree) (rs : List Redir) : Tree :=
  rs.foldl (fun t r => .redir t r.file r.dir.mode r.dir.fd) t

/-- A part of a simple command. -/
inductive Item where
  | arg (w : List Byte)
  | redir (r : Redir)

def Item.toks : Item → List Tok
  | .arg w => [.word w]
  | .redir r => r.toks

def Item.arg? : Item → Option (List Byte)
  | .arg w => some w
  | .redir _ => none

def Item.redir? : Item → Option Redir
  | .arg _ => none
  | .redir r => some r

def itemArgs (items : List Item) : List (List Byte) := items.filterMap Item.arg?

/-- The command of a list of words and redirections. -/
def simple (items : List Item) : Tree :=
  (Tree.exec (itemArgs items)).redirs (items.filterMap Item.redir?)

/-- A command with `n` times `&`. -/
def Tree.backs (t : Tree) (n : Nat) : Tree := Tree.back^[n] t

inductive Level where
  | line
  | pipe
  | exec
  deriving DecidableEq

/-- **The commands.** -/
inductive Derives : Level → Tree → List Tok → Prop where
  | simple (items : List Item) (h : (itemArgs items).length < MAXARGS) :
      Derives .exec (simple items) (items.flatMap Item.toks)
  | block {t : Tree} {ts : List Tok} (h : Derives .line t ts) (rs : List Redir) :
      Derives .exec (t.redirs rs) (.lparen :: ts ++ .rparen :: rs.flatMap Redir.toks)
  | single {t : Tree} {ts : List Tok} (h : Derives .exec t ts) : Derives .pipe t ts
  | pipe {l r : Tree} {ts ts' : List Tok} (hl : Derives .exec l ts) (hr : Derives .pipe r ts') :
      Derives .pipe (.pipe l r) (ts ++ .bar :: ts')
  | line {t : Tree} {ts : List Tok} (h : Derives .pipe t ts) (n : Nat) :
      Derives .line (t.backs n) (ts ++ List.replicate n .amp)
  | list {l r : Tree} {ts ts' : List Tok} (hl : Derives .pipe l ts) (n : Nat)
      (hr : Derives .line r ts') :
      Derives .line (.list (l.backs n) r) (ts ++ List.replicate n .amp ++ .semi :: ts')

/-! ### Tokens of a line -/

variable {c : Byte} {l : List Byte} {tok : Tok} {ts : List Tok}

/-- A line has tokens when it has no NUL. -/
theorem exists_lexes : ∀ (n : Nat) (l : List Byte), l.length ≤ n → (0 : Byte) ∉ l →
    ∃ ts, Lexes l ts := by
  intro n
  induction n with
  | zero =>
      intro l hl _
      rw [List.eq_nil_of_length_eq_zero (Nat.le_zero.mp hl)]
      exact ⟨[], .nil⟩
  | succ n ih =>
      intro l hl h0
      cases l with
      | nil => exact ⟨[], .nil⟩
      | cons c l =>
          have hlen : l.length ≤ n := Nat.le_of_succ_le_succ hl
          have h0' : (0 : Byte) ∉ l := fun h => h0 (List.mem_cons_of_mem c h)
          obtain ⟨ts, hts⟩ := ih l hlen h0'
          by_cases hs : strchr whitespace c = true
          · exact ⟨ts, .space hs hts⟩
          · by_cases hw : wordByte c = true
            · -- a word, as long as it goes
              have hsplit := List.takeWhile_append_dropWhile (p := wordByte) (l := c :: l)
              have hcons : (c :: l).takeWhile wordByte = c :: l.takeWhile wordByte :=
                List.takeWhile_cons_of_pos hw
              have hdrop : (c :: l).dropWhile wordByte = l.dropWhile wordByte :=
                List.dropWhile_cons_of_pos hw
              obtain ⟨ts', hts'⟩ := ih (l.dropWhile wordByte)
                ((List.dropWhile_sublist _).length_le.trans hlen)
                fun h => h0' ((List.dropWhile_sublist _).subset h)
              rw [hdrop] at hsplit
              rw [← hsplit]
              refine ⟨_, .word (by rw [hcons]; exact List.cons_ne_nil _ _)
                (fun c' hc' => List.mem_takeWhile_imp hc') (fun c' hc' => ?_) hts'⟩
              have := List.head?_dropWhile_not wordByte l
              rw [hc'] at this
              simpa using this
            · have hsym : c ∈ symbols := by
                simp only [wordByte, strchr, Bool.not_eq_true, Bool.and_eq_false_iff] at hw hs
                simpa [hs] using hw
              by_cases hgt : c = chr '>'
              · subst hgt
                cases l with
                | nil => exact ⟨_, .gt (by simp) .nil⟩
                | cons c' l' =>
                    by_cases hc' : c' = chr '>'
                    · subst hc'
                      obtain ⟨ts', hts'⟩ := ih l' (by simp only [List.length_cons] at hlen; omega)
                        fun h => h0' (List.mem_cons_of_mem _ h)
                      exact ⟨_, .append hts'⟩
                    · exact ⟨_, .gt (by simpa using hc') hts⟩
              · have hsingle : ∃ tok, Single c tok := by
                  simp only [symbols, List.mem_cons, List.not_mem_nil, or_false] at hsym
                  rcases hsym with rfl | rfl | rfl | rfl | rfl | rfl | rfl
                  · exact ⟨_, .lt⟩
                  · exact ⟨_, .bar⟩
                  · exact absurd rfl hgt
                  · exact ⟨_, .amp⟩
                  · exact ⟨_, .semi⟩
                  · exact ⟨_, .lparen⟩
                  · exact ⟨_, .rparen⟩
                obtain ⟨tok, htok⟩ := hsingle
                exact ⟨_, .single htok hts⟩

/-- Blanks in front do not matter. -/
theorem Lexes.skip (h : Lexes l ts) : Lexes (l.dropWhile (strchr whitespace)) ts := by
  induction h with
  | nil => exact .nil
  | space hc _ ih =>
      rw [List.dropWhile_cons_of_pos hc]
      exact ih
  | single hc h _ =>
      rw [List.dropWhile_cons_of_neg]
      · exact .single hc h
      · cases hc <;> decide
  | append h _ =>
      rw [List.dropWhile_cons_of_neg (by decide)]
      exact .append h
  | gt hl h _ =>
      rw [List.dropWhile_cons_of_neg (by decide)]
      exact .gt hl h
  | @word w l ts hne hw hl h _ =>
      obtain ⟨c, w, rfl⟩ := List.exists_cons_of_ne_nil hne
      have hc := hw c (List.mem_cons_self ..)
      have hnot : ¬ strchr whitespace c = true := fun hs => by simp [wordByte, hs] at hc
      rw [List.cons_append, List.dropWhile_cons_of_neg hnot]
      exact .word hne hw hl h

/-- A line has at least a byte for each token. -/
theorem Lexes.length_le (h : Lexes l ts) : ts.length ≤ l.length := by
  induction h with
  | nil => exact le_rfl
  | space _ _ ih => exact ih.trans (Nat.le_succ _)
  | single _ _ ih => exact Nat.succ_le_succ ih
  | append _ ih => exact (Nat.succ_le_succ ih).trans (Nat.le_succ _)
  | gt _ _ ih => exact Nat.succ_le_succ ih
  | word hne _ _ _ ih =>
      have := List.length_pos_of_ne_nil hne
      rw [List.length_cons, List.length_append]
      omega

end Xv6.Sh
