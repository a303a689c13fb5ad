import Xv6.Sh.Grammar

/-!
# Sh — Parse

Tokens, redirections and arguments.

What is left of the line from a pointer on is read as tokens (`Reads`); `peek` and `gettoken` look at the
first of them.

* `gettoken_spec`, `peek_spec`: one token.
* `parseredirs_outcome`, `parseargs_outcome`: what a loop that returns has read; a panic is one of four.
* `parseredirs_complete`, `parseargs_complete`: what is there is read.
-/

namespace Xv6.Sh
open Xv6.Lib

variable {buf : List Byte} {ps q eq turns calls : Nat} {ts rest : List Tok} {tok : Tok}
  {w : List Byte} {toks : List Byte} {cmd : Cmd} {t : Tree} {p : Byte → Bool} {e : String}

/-! ### Pointers -/

theorem drop_length_takeWhile (p : Byte → Bool) (l : List Byte) :
    l.drop (l.takeWhile p).length = l.dropWhile p :=
  calc l.drop (l.takeWhile p).length
      = (l.takeWhile p ++ l.dropWhile p).drop (l.takeWhile p).length := by
        rw [List.takeWhile_append_dropWhile]
    _ = l.dropWhile p := List.drop_left

theorem drop_skip (buf : List Byte) (p : Byte → Bool) (ps : Nat) :
    buf.drop (skip buf p ps) = (buf.drop ps).dropWhile p := by
  rw [skip, ← List.drop_drop, drop_length_takeWhile]

theorem skip_le (p : Byte → Bool) (h : ps ≤ buf.length) : skip buf p ps ≤ buf.length := by
  have := (List.takeWhile_sublist p (l := buf.drop ps)).length_le
  rw [List.length_drop] at this
  rw [skip]
  omega

theorem deref_eq (h : buf.drop ps = w) : deref buf ps = w.headD 0 := by
  rw [deref, ← h, List.headD_eq_head?_getD, List.head?_drop, List.getD_eq_getElem?_getD]

/-- What is left of the line is the tokens `ts`. -/
structure Reads (buf : List Byte) (ps : Nat) (ts : List Tok) : Prop where
  le : ps ≤ buf.length
  lexes : Lexes (buf.drop ps) ts

theorem Reads.skip (h : Reads buf ps ts) : Reads buf (skip buf (strchr whitespace) ps) ts :=
  ⟨skip_le _ h.le, by rw [drop_skip]; exact h.lexes.skip⟩

theorem head_skip (buf : List Byte) (ps : Nat) : ∀ c,
    (buf.drop (skip buf (strchr whitespace) ps)).head? = some c → strchr whitespace c = false := by
  intro c hc
  rw [drop_skip] at hc
  have := List.head?_dropWhile_not (strchr whitespace) (buf.drop ps)
  rw [hc] at this
  simpa using this

/-- A step over what is known to be next. -/
theorem Reads.step {l : List Byte} (hle : ps ≤ buf.length) (hdrop : buf.drop ps = w ++ l)
    (h : Lexes l ts) : Reads buf (ps + w.length) ts := by
  refine ⟨?_, ?_⟩
  · have := congrArg List.length hdrop
    rw [List.length_drop, List.length_append] at this
    omega
  · rw [← List.drop_drop, hdrop, List.drop_left]
    exact h

/-- The string `w` lies from `q` to `eq`, and could not be longer. -/
structure IsWord (buf : List Byte) (q eq : Nat) (w : List Byte) : Prop where
  end_eq : eq = q + w.length
  le : eq ≤ buf.length
  split : buf.drop q = w ++ buf.drop eq
  word : ∀ c ∈ w, wordByte c = true
  stop : ∀ c, (buf.drop eq).head? = some c → wordByte c = false

/-! ### Tokens -/

/-- What `gettoken` does with the tokens that are left. -/
inductive GotToken (buf : List Byte) : List Tok → (Byte × Nat × Nat) × Nat → Prop where
  | done (q eq ps : Nat) (h : ps = buf.length) : GotToken buf [] ((0, q, eq), ps)
  | tok (tok : Tok) (ts : List Tok) (q eq ps : Nat) (hrest : Reads buf ps ts)
      (hword : ∀ w, tok = .word w → IsWord buf q eq w) :
      GotToken buf (tok :: ts) ((tok.code, q, eq), ps)

theorem single_code {c : Byte} (h : Single c tok) : tok.code = c ∧ c ≠ 0 ∧
    strchr [chr '|', chr '(', chr ')', chr ';', chr '&', chr '<'] c = true ∧ ∀ w, tok ≠ .word w := by
  cases h <;> exact ⟨rfl, by decide, by decide, fun w => by simp⟩

/-- A word does not start with a symbol or a NUL. -/
theorem wordByte_ne {c : Byte} (h : wordByte c = true) {s : Byte} (hs : s ∈ symbols) : c ≠ s := by
  rintro rfl
  simp [wordByte, strchr, hs] at h

theorem not_symbol_of_wordByte {c : Byte} (h : wordByte c = true) (hsub : ∀ s ∈ toks, s ∈ symbols) :
    strchr toks c = false := by
  refine decide_eq_false fun hc => ?_
  exact wordByte_ne h (hsub c hc) rfl

/-- **`gettoken`** takes the first token. -/
theorem gettoken_spec (h0 : (0 : Byte) ∉ buf) (h : Reads buf ps ts) : GotToken buf ts (gettoken buf ps) := by
  have hq := h.skip
  have hns := head_skip buf ps
  rw [gettoken]
  generalize skip buf (strchr whitespace) ps = q at hq hns
  obtain ⟨l, hl⟩ : ∃ l, buf.drop q = l := ⟨_, rfl⟩
  have hderef := deref_eq hl
  have hlex := hq.lexes
  rw [hl] at hlex hns
  cases hlex with
  | nil =>
      have hd : deref buf q = 0 := hderef
      simp only [hd, if_true]
      refine .done _ _ _ ?_
      have hlen := List.drop_eq_nil_iff.mp hl
      rw [skip, hl]
      exact le_antisymm hq.le hlen
  | space hc _ =>
      rw [hns _ rfl] at hc
      cases hc
  | @single c tok l ts hc hrest =>
      obtain ⟨hcode, hne, hsym, hword⟩ := single_code hc
      have hd : deref buf q = c := hderef
      simp only [hd, if_neg hne, hsym, if_true]
      rw [← hcode]
      exact .tok tok ts _ _ _ (Reads.step (w := [c]) hq.le hl hrest).skip fun w hw => absurd hw (hword w)
  | @append l ts hrest =>
      have hd : deref buf q = chr '>' := hderef
      have hd' : deref buf (q + 1) = chr '>' := deref_eq (w := chr '>' :: l) (by
        rw [← List.drop_drop, hl]
        rfl)
      simp only [hd, hd', if_neg (show ¬ chr '>' = 0 by decide), show strchr [chr '|', chr '(', chr ')',
        chr ';', chr '&', chr '<'] (chr '>') = false by decide, Bool.false_eq_true, if_false, if_true]
      exact .tok .append ts _ _ _ (Reads.step (w := [chr '>', chr '>']) hq.le hl hrest).skip
        fun w hw => by cases hw
  | @gt l ts hhead hrest =>
      have hd : deref buf q = chr '>' := hderef
      have hd' : ¬ deref buf (q + 1) = chr '>' := by
        have hnext : buf.drop (q + 1) = l := by
          rw [← List.drop_drop, hl]
          rfl
        rw [deref_eq hnext]
        cases l with
        | nil => decide
        | cons c l => exact fun hc => hhead (congrArg some hc)
      simp only [hd, if_neg hd', if_neg (show ¬ chr '>' = 0 by decide), show strchr [chr '|', chr '(',
        chr ')', chr ';', chr '&', chr '<'] (chr '>') = false by decide, Bool.false_eq_true, if_false,
        if_true]
      exact .tok .gt ts _ _ _ (Reads.step (w := [chr '>']) hq.le hl hrest).skip fun w hw => by cases hw
  | @word w l ts hne hw hstop hrest =>
      have hlen : ((w ++ l).takeWhile wordByte).length = w.length := by
        rw [List.takeWhile_append_of_pos hw]
        cases l with
        | nil => simp
        | cons c l => rw [List.takeWhile_cons_of_neg (by simp [hstop c rfl]), List.append_nil]
      have heq : skip buf wordByte q = q + w.length := by rw [skip, hl, hlen]
      have hreads := Reads.step hq.le hl hrest
      have hdrop : buf.drop (q + w.length) = l := by rw [← List.drop_drop, hl, List.drop_left]
      have hisword : IsWord buf q (q + w.length) w :=
        ⟨rfl, hreads.le, by rw [hl, hdrop], hw, by rw [hdrop]; exact hstop⟩
      obtain ⟨c, w', rfl⟩ := List.exists_cons_of_ne_nil hne
      have hc := hw c (List.mem_cons_self ..)
      have hd : deref buf q = c := hderef
      have hc0 : c ≠ 0 := fun hc0 => h0 (by
        have : c ∈ buf.drop q := by
          rw [hl]
          exact List.mem_cons_self ..
        exact hc0 ▸ List.mem_of_mem_drop this)
      have hsym : strchr [chr '|', chr '(', chr ')', chr ';', chr '&', chr '<'] c = false :=
        not_symbol_of_wordByte hc (by decide)
      simp only [hd, if_neg hc0, hsym, Bool.false_eq_true, if_false,
        if_neg (wordByte_ne hc (show chr '>' ∈ symbols by decide)), heq]
      exact .tok (.word (c :: w')) ts _ _ _ hreads.skip fun w hw => by
        cases hw
        exact hisword

/-- The token starts with one of the symbols `toks`. -/
def Tok.starts (toks : List Byte) : Tok → Bool
  | .word _ => false
  | .append => strchr toks (chr '>')
  | tok => strchr toks tok.code

/-- The next token does. -/
def next (toks : List Byte) (ts : List Tok) : Bool := ts.head?.any (Tok.starts toks)

/-- **`peek`** looks at the next token. -/
theorem peek_spec (toks : List Byte) (hsub : ∀ s ∈ toks, s ∈ symbols) (h : Reads buf ps ts) :
    ∃ ps', peek buf ps toks = (next toks ts, ps') ∧ Reads buf ps' ts := by
  refine ⟨_, Prod.ext ?_ rfl, h.skip⟩
  have hq := h.skip
  have hns := head_skip buf ps
  rw [peek]
  generalize skip buf (strchr whitespace) ps = q at hq hns
  obtain ⟨l, hl⟩ : ∃ l, buf.drop q = l := ⟨_, rfl⟩
  have hderef := deref_eq hl
  have hlex := hq.lexes
  rw [hl] at hlex hns
  cases hlex with
  | nil =>
      have hd : deref buf q = 0 := hderef
      simp [hd, next]
  | space hc _ =>
      rw [hns _ rfl] at hc
      cases hc
  | @single c tok l ts hc hrest =>
      obtain ⟨hcode, hne, -, -⟩ := single_code hc
      have hd : deref buf q = c := hderef
      have hstarts : Tok.starts toks tok = strchr toks c := by
        rw [← hcode]
        cases hc <;> rfl
      simp only [hd, decide_eq_true hne, Bool.true_and]
      exact hstarts.symm
  | append _ =>
      have hd : deref buf q = chr '>' := hderef
      have hne : chr '>' ≠ 0 := by decide
      simp only [hd, decide_eq_true hne, Bool.true_and]
      rfl
  | gt _ _ =>
      have hd : deref buf q = chr '>' := hderef
      have hne : chr '>' ≠ 0 := by decide
      simp only [hd, decide_eq_true hne, Bool.true_and]
      rfl
  | @word w l ts hne hw hstop hrest =>
      obtain ⟨c, w', rfl⟩ := List.exists_cons_of_ne_nil hne
      have hd : deref buf q = c := hderef
      simp [hd, next, Tok.starts, not_symbol_of_wordByte (hw c (List.mem_cons_self ..)) hsub]

/-! ### Commands -/

/-- What a parsed command stands for, with the strings where they lie. -/
inductive Denotes (buf : List Byte) : Cmd → Tree → Prop where
  | exec {argv : List (Nat × Nat)} {args : List (List Byte)}
      (h : List.Forall₂ (fun arg w => IsWord buf arg.1 arg.2 w) argv args) :
      Denotes buf (.exec argv) (.exec args)
  | redir {cmd : Cmd} {t : Tree} {file efile : Nat} {w : List Byte} (h : Denotes buf cmd t)
      (hw : IsWord buf file efile w) (mode fd : Nat) :
      Denotes buf (.redir cmd file efile mode fd) (.redir t w mode fd)
  | pipe {left right : Cmd} {l r : Tree} (hl : Denotes buf left l) (hr : Denotes buf right r) :
      Denotes buf (.pipe left right) (.pipe l r)
  | list {left right : Cmd} {l r : Tree} (hl : Denotes buf left l) (hr : Denotes buf right r) :
      Denotes buf (.list left right) (.list l r)
  | back {cmd : Cmd} {t : Tree} (h : Denotes buf cmd t) : Denotes buf (.back cmd) (.back t)

/-- One argument more, inside of the redirections. -/
def Tree.addArg : Tree → List Byte → Tree
  | .exec args, w => .exec (args ++ [w])
  | .redir t file mode fd, w => .redir (t.addArg w) file mode fd
  | t, _ => t

def Tree.addRedir (t : Tree) (r : Redir) : Tree := .redir t r.file r.dir.mode r.dir.fd

def Tree.addItem (t : Tree) : Item → Tree
  | .arg w => t.addArg w
  | .redir r => t.addRedir r

def Tree.addItems (t : Tree) (items : List Item) : Tree := items.foldl Tree.addItem t

theorem Denotes.addArg (h : Denotes buf cmd t) (hw : IsWord buf q eq w) :
    Denotes buf (cmd.addArg q eq) (t.addArg w) := by
  induction h with
  | exec h => exact .exec (List.rel_append h (.cons hw .nil))
  | redir _ hfile mode fd ih => exact .redir ih hfile mode fd
  | pipe hl hr => exact .pipe hl hr
  | list hl hr => exact .list hl hr
  | back h => exact .back h

theorem addArg_redirs (rs : List Redir) (t : Tree) (w : List Byte) :
    (t.redirs rs).addArg w = (t.addArg w).redirs rs := by
  induction rs generalizing t with
  | nil => rfl
  | cons r rs ih => exact ih (t.addRedir r)

theorem redirs_append (t : Tree) (rs rs' : List Redir) : t.redirs (rs ++ rs') = (t.redirs rs).redirs rs' :=
  List.foldl_append ..

theorem addItems_exec (items : List Item) (args : List (List Byte)) (rs : List Redir) :
    ((Tree.exec args).redirs rs).addItems items =
      (Tree.exec (args ++ itemArgs items)).redirs (rs ++ items.filterMap Item.redir?) := by
  induction items generalizing args rs with
  | nil => simp [Tree.addItems, itemArgs]
  | cons item items ih =>
      cases item with
      | arg w =>
          have hstep : ((Tree.exec args).redirs rs).addArg w = (Tree.exec (args ++ [w])).redirs rs :=
            addArg_redirs rs _ w
          show (((Tree.exec args).redirs rs).addArg w).addItems items = _
          rw [hstep, ih, List.append_assoc]
          rfl
      | redir r =>
          show (((Tree.exec args).redirs rs).addRedir r).addItems items = _
          have hstep : ((Tree.exec args).redirs rs).addRedir r = (Tree.exec args).redirs (rs ++ [r]) :=
            (redirs_append _ rs [r]).symm
          rw [hstep, ih, List.append_assoc]
          rfl

theorem simple_eq (items : List Item) : simple items = (Tree.exec []).addItems items :=
  (addItems_exec items [] []).symm

theorem addItems_append (t : Tree) (items items' : List Item) :
    t.addItems (items ++ items') = (t.addItems items).addItems items' := List.foldl_append ..

theorem addItems_redirs (t : Tree) (rs : List Redir) : t.addItems (rs.map Item.redir) = t.redirs rs := by
  rw [Tree.addItems, List.foldl_map]
  rfl

theorem toks_redirs (rs : List Redir) : (rs.map Item.redir).flatMap Item.toks = rs.flatMap Redir.toks := by
  rw [List.flatMap_map]
  rfl

theorem itemArgs_append (items items' : List Item) :
    itemArgs (items ++ items') = itemArgs items ++ itemArgs items' := List.filterMap_append ..

theorem itemArgs_redirs (rs : List Redir) : itemArgs (rs.map Item.redir) = [] := by
  rw [itemArgs, List.filterMap_map]
  exact List.filterMap_eq_nil_iff.mpr fun _ _ => rfl

/-! ### The loops -/

/-- The panics of the parser. -/
def panics : List String :=
  ["missing file for redirection", "too many args", "syntax", "syntax - missing )"]

theorem parseredirs_succ (buf : List Byte) (turns : Nat) (cmd : Cmd) (ps : Nat) :
    parseredirs buf (turns + 1) cmd ps =
      let (more, ps) := peek buf ps [chr '<', chr '>']
      if !more then .ok (cmd, ps)
      else
        let ((tok, _, _), ps) := gettoken buf ps
        let ((ret, q, eq), ps) := gettoken buf ps
        if ret ≠ chr 'a' then .error "missing file for redirection"
        else
          let cmd :=
            if tok = chr '<' then .redir cmd q eq O_RDONLY 0
            else if tok = chr '>' then .redir cmd q eq (O_WRONLY ||| O_CREATE ||| O_TRUNC) 1
            else if tok = chr '+' then .redir cmd q eq (O_WRONLY ||| O_CREATE) 1
            else cmd
          parseredirs buf turns cmd ps := rfl

theorem next_redir (h : next [chr '<', chr '>'] ts = true) : ∃ dir : Dir, ∃ ts', ts = dir.tok :: ts' := by
  cases ts with
  | nil => cases h
  | cons tok ts =>
      have h : Tok.starts [chr '<', chr '>'] tok = true := h
      cases tok with
      | lt => exact ⟨.input, ts, rfl⟩
      | gt => exact ⟨.output, ts, rfl⟩
      | append => exact ⟨.append, ts, rfl⟩
      | bar => exact absurd h (by decide)
      | lparen => exact absurd h (by decide)
      | rparen => exact absurd h (by decide)
      | semi => exact absurd h (by decide)
      | amp => exact absurd h (by decide)
      | word w => cases h

theorem next_dir (dir : Dir) (ts : List Tok) : next [chr '<', chr '>'] (dir.tok :: ts) = true := by
  cases dir <;> rfl

theorem code_eq_word (h : tok.code = chr 'a') : ∃ w, tok = .word w := by
  cases tok with
  | word w => exact ⟨w, rfl⟩
  | _ => exact absurd h (by decide)

section Line

variable (h0 : (0 : Byte) ∉ buf)

include h0

/-- One turn of `parseredirs` at a redirection. -/
theorem parseredirs_dir (turns : Nat) (dir : Dir) (h : Reads buf ps (dir.tok :: ts)) (hd : Denotes buf cmd t) :
    (∃ w ts' cmd' ps', ts = .word w :: ts' ∧
      parseredirs buf (turns + 1) cmd ps = parseredirs buf turns cmd' ps' ∧ Reads buf ps' ts' ∧
      Denotes buf cmd' (t.addRedir ⟨dir, w⟩)) ∨
    ((∀ w ts', ts ≠ .word w :: ts') ∧
      parseredirs buf (turns + 1) cmd ps = .error "missing file for redirection") := by
  obtain ⟨ps₁, hpeek, h₁⟩ := peek_spec [chr '<', chr '>'] (by decide) h
  rw [parseredirs_succ, hpeek, next_dir]
  simp only [Bool.not_true, Bool.false_eq_true, if_false]
  have hgot := gettoken_spec h0 h₁
  generalize gettoken buf ps₁ = x at hgot
  cases hgot with
  | tok _ _ q₀ eq₀ ps₂ h₂ _ =>
      have hgot₂ := gettoken_spec h0 h₂
      generalize gettoken buf ps₂ = y at hgot₂
      cases hgot₂ with
      | done _ _ _ _ => exact Or.inr ⟨fun w ts' => by simp, if_pos (show (0 : Byte) ≠ chr 'a' by decide)⟩
      | tok tok' ts' q eq ps₃ h₃ hword =>
          by_cases hcode : tok'.code = chr 'a'
          · obtain ⟨w, rfl⟩ := code_eq_word hcode
            refine Or.inl ⟨w, ts', .redir cmd q eq dir.mode dir.fd, ps₃, rfl, ?_, h₃,
              .redir hd (hword w rfl) _ _⟩
            cases dir <;> rfl
          · exact Or.inr ⟨fun w ts' heq => by
              cases heq
              exact hcode rfl, if_pos hcode⟩

/-- What **`parseredirs`** comes to. -/
theorem parseredirs_outcome : ∀ (turns : Nat) (cmd : Cmd) (t : Tree) (ps : Nat) (ts : List Tok),
    ts.length < turns → Reads buf ps ts → Denotes buf cmd t →
    (∃ rs rest cmd' ps', parseredirs buf turns cmd ps = .ok (cmd', ps') ∧
      ts = rs.flatMap Redir.toks ++ rest ∧ Reads buf ps' rest ∧ Denotes buf cmd' (t.redirs rs)) ∨
    ∃ e ∈ panics, parseredirs buf turns cmd ps = .error e := by
  intro turns
  induction turns with
  | zero => exact fun _ _ _ _ hlt => absurd hlt (Nat.not_lt_zero _)
  | succ turns ih =>
      intro cmd t ps ts hlt h hd
      by_cases hnext : next [chr '<', chr '>'] ts = true
      · obtain ⟨dir, ts', rfl⟩ := next_redir hnext
        rcases parseredirs_dir h0 turns dir h hd with
          ⟨w, ts₂, cmd', ps', rfl, hrun, h', hd'⟩ | ⟨-, hrun⟩
        · rw [hrun]
          rcases ih cmd' _ ps' ts₂ (by simp only [List.length_cons] at hlt; omega) h' hd' with
            ⟨rs, rest, cmd₂, ps₂, hrun₂, rfl, h₂, hd₂⟩ | herr
          · exact Or.inl ⟨⟨dir, w⟩ :: rs, rest, cmd₂, ps₂, hrun₂, rfl, h₂, hd₂⟩
          · exact Or.inr herr
        · exact Or.inr ⟨_, by simp [panics], hrun⟩
      · obtain ⟨ps', hpeek, h'⟩ := peek_spec [chr '<', chr '>'] (by decide) h
        refine Or.inl ⟨[], ts, cmd, ps', ?_, rfl, h', hd⟩
        rw [parseredirs_succ, hpeek, Bool.not_eq_true _ |>.mp hnext]
        rfl

/-- Redirections are read, up to where there are no more. -/
theorem parseredirs_complete : ∀ (rs : List Redir) (turns : Nat) (cmd : Cmd) (t : Tree) (ps : Nat),
    (rs.flatMap Redir.toks ++ rest).length < turns → Reads buf ps (rs.flatMap Redir.toks ++ rest) →
    next [chr '<', chr '>'] rest = false → Denotes buf cmd t →
    ∃ cmd' ps', parseredirs buf turns cmd ps = .ok (cmd', ps') ∧ Reads buf ps' rest ∧
      Denotes buf cmd' (t.redirs rs) := by
  intro rs
  induction rs with
  | nil =>
      intro turns cmd t ps hlt h hnext hd
      obtain ⟨turns, rfl⟩ := Nat.exists_eq_add_of_lt hlt
      obtain ⟨ps', hpeek, h'⟩ := peek_spec [chr '<', chr '>'] (by decide) h
      refine ⟨cmd, ps', ?_, h', hd⟩
      rw [parseredirs_succ, hpeek, List.flatMap_nil, List.nil_append, hnext]
      rfl
  | cons r rs ih =>
      intro turns cmd t ps hlt h hnext hd
      obtain ⟨turns, rfl⟩ : ∃ n, turns = n + 1 := ⟨turns - 1, by omega⟩
      obtain ⟨dir, w⟩ := r
      have h' : Reads buf ps (dir.tok :: .word w :: (rs.flatMap Redir.toks ++ rest)) := h
      rcases parseredirs_dir h0 turns dir h' hd with
        ⟨w', ts', cmd', ps', heq, hrun, h₁, hd₁⟩ | ⟨hno, -⟩
      · cases heq
        rw [hrun]
        have hlen : (rs.flatMap Redir.toks ++ rest).length < turns := by
          have : ((Redir.mk dir w :: rs).flatMap Redir.toks ++ rest).length =
            (rs.flatMap Redir.toks ++ rest).length + 2 := rfl
          omega
        exact ih turns cmd' _ ps' hlen h₁ hnext hd₁
      · exact absurd rfl (hno w _)

end Line

/-! ### Arguments -/

/-- Where the arguments of a command end. -/
def Ends (ts : List Tok) : Prop := ts = [] ∨ next [chr '|', chr ')', chr '&', chr ';'] ts = true

theorem next_eq_false_of_ends (h : Ends ts) : next [chr '<', chr '>'] ts = false := by
  rcases h with rfl | h
  · rfl
  · cases ts with
    | nil => rfl
    | cons tok ts =>
        have h : Tok.starts [chr '|', chr ')', chr '&', chr ';'] tok = true := h
        show Tok.starts [chr '<', chr '>'] tok = false
        cases tok with
        | word w => rfl
        | _ => revert h; decide

theorem parseargs_succ (buf : List Byte) (turns : Nat) (ret : Cmd) (argc ps : Nat) :
    parseargs buf (turns + 1) ret argc ps =
      let (done, ps) := peek buf ps [chr '|', chr ')', chr '&', chr ';']
      if done then .ok (ret, ps)
      else
        let ((tok, q, eq), ps) := gettoken buf ps
        if tok = 0 then .ok (ret, ps)
        else if tok ≠ chr 'a' then .error "syntax"
        else
          let ret := ret.addArg q eq
          if argc + 1 ≥ MAXARGS then .error "too many args"
          else parseredirs buf turns ret ps >>= fun x => parseargs buf turns x.1 (argc + 1) x.2 := rfl

theorem code_ne_zero (tok : Tok) : tok.code ≠ 0 := by
  cases tok with
  | word w => exact (by decide : chr 'a' ≠ 0)
  | _ => decide

section Line

variable (h0 : (0 : Byte) ∉ buf) {argc : Nat}

include h0

theorem parseargs_stop (turns : Nat) (cmd : Cmd) (argc : Nat) (h : Reads buf ps ts) (hends : Ends ts) :
    ∃ ps', parseargs buf (turns + 1) cmd argc ps = .ok (cmd, ps') ∧ Reads buf ps' ts := by
  obtain ⟨ps₁, hpeek, h₁⟩ :=
    peek_spec [chr '|', chr ')', chr '&', chr ';'] (by decide) h
  rw [parseargs_succ, hpeek]
  rcases hends with rfl | hnext
  · have hgot := gettoken_spec h0 h₁
    have hnext : next [chr '|', chr ')', chr '&', chr ';'] [] = false := rfl
    simp only [hnext, Bool.false_eq_true, if_false]
    generalize gettoken buf ps₁ = x at hgot
    cases hgot with
    | done q eq ps₂ hps =>
        refine ⟨ps₂, rfl, hps.le, ?_⟩
        rw [hps, List.drop_length]
        exact .nil
  · rw [hnext]
    exact ⟨ps₁, rfl, h₁⟩

theorem parseargs_word (turns : Nat) (cmd : Cmd) (argc : Nat) (h : Reads buf ps (.word w :: ts)) : ∃ q eq ps', IsWord buf q eq w ∧
    Reads buf ps' ts ∧ parseargs buf (turns + 1) cmd argc ps =
      if argc + 1 ≥ MAXARGS then .error "too many args"
      else parseredirs buf turns (cmd.addArg q eq) ps' >>= fun x =>
        parseargs buf turns x.1 (argc + 1) x.2 := by
  obtain ⟨ps₁, hpeek, h₁⟩ :=
    peek_spec [chr '|', chr ')', chr '&', chr ';'] (by decide) h
  have hnext : next [chr '|', chr ')', chr '&', chr ';'] (.word w :: ts) = false := rfl
  rw [parseargs_succ, hpeek, hnext]
  have hgot := gettoken_spec h0 h₁
  simp only [Bool.false_eq_true, if_false]
  generalize gettoken buf ps₁ = x at hgot
  cases hgot with
  | tok _ _ q eq ps₂ h₂ hword => exact ⟨q, eq, ps₂, hword w rfl, h₂, rfl⟩

theorem parseargs_syntax (h : Reads buf ps (tok :: ts)) (hword : ∀ w, tok ≠ .word w)
    (hnext : ¬ Ends (tok :: ts)) : parseargs buf (turns + 1) cmd argc ps = .error "syntax" := by
  obtain ⟨ps₁, hpeek, h₁⟩ :=
    peek_spec [chr '|', chr ')', chr '&', chr ';'] (by decide) h
  rw [parseargs_succ, hpeek, Bool.not_eq_true _ |>.mp fun hn => hnext (Or.inr hn)]
  have hgot := gettoken_spec h0 h₁
  simp only [Bool.false_eq_true, if_false]
  generalize gettoken buf ps₁ = x at hgot
  cases hgot with
  | tok _ _ q eq ps₂ h₂ _ =>
      have hcode : tok.code ≠ chr 'a' := fun hc => (code_eq_word hc).elim fun w hw => hword w hw
      simp only [if_neg (code_ne_zero tok), if_pos hcode]

/-- What the loop of **`parseexec`** comes to. -/
theorem parseargs_outcome : ∀ (turns : Nat) (cmd : Cmd) (t : Tree) (argc ps : Nat) (ts : List Tok),
    ts.length < turns → argc < MAXARGS → Reads buf ps ts → Denotes buf cmd t →
    (∃ items rest cmd' ps', parseargs buf turns cmd argc ps = .ok (cmd', ps') ∧
      ts = items.flatMap Item.toks ++ rest ∧ argc + (itemArgs items).length < MAXARGS ∧
      Reads buf ps' rest ∧ Denotes buf cmd' (t.addItems items)) ∨
    ∃ e ∈ panics, parseargs buf turns cmd argc ps = .error e := by
  intro turns
  induction turns with
  | zero => exact fun _ _ _ _ _ hlt => absurd hlt (Nat.not_lt_zero _)
  | succ turns ih =>
      intro cmd t argc ps ts hlt hargc h hd
      by_cases hends : Ends ts
      · obtain ⟨ps', hrun, h'⟩ := parseargs_stop h0 turns cmd argc h hends
        exact Or.inl ⟨[], ts, cmd, ps', hrun, rfl, hargc, h', hd⟩
      · cases ts with
        | nil => exact absurd (Or.inl rfl) hends
        | cons tok ts =>
            have hlt' : ts.length < turns := Nat.lt_of_succ_lt_succ hlt
            by_cases hword : ∃ w, tok = .word w
            · obtain ⟨w, rfl⟩ := hword
              obtain ⟨q, eq, ps₁, hw, h₁, hrun⟩ :=
                parseargs_word h0 turns cmd argc h
              rw [hrun]
              by_cases hmany : argc + 1 ≥ MAXARGS
              · exact Or.inr ⟨"too many args", by simp [panics], if_pos hmany⟩
              · rw [if_neg hmany]
                rcases parseredirs_outcome h0 turns _ _ ps₁ ts hlt' h₁ (hd.addArg hw) with
                  ⟨rs, ts₂, cmd₂, ps₂, hrun₂, rfl, h₂, hd₂⟩ | ⟨e, he, hrun₂⟩
                · rw [hrun₂, ok_bind]
                  have hlen : ts₂.length < turns := by
                    rw [List.length_append] at hlt'
                    omega
                  rcases ih cmd₂ _ (argc + 1) ps₂ ts₂ hlen (not_le.mp hmany) h₂ hd₂ with
                    ⟨items, rest, cmd₃, ps₃, hrun₃, rfl, hcount, h₃, hd₃⟩ | herr
                  · refine Or.inl ⟨.arg w :: (rs.map Item.redir ++ items), rest, cmd₃, ps₃, hrun₃, ?_, ?_, h₃, ?_⟩
                    · rw [List.flatMap_cons, List.flatMap_append, toks_redirs]
                      simp [Item.toks]
                    · have hargs : itemArgs (.arg w :: (rs.map Item.redir ++ items)) = w :: itemArgs items := by
                        rw [show Item.arg w :: (rs.map Item.redir ++ items) = [.arg w] ++ (rs.map Item.redir ++ items)
                          from rfl, itemArgs_append, itemArgs_append, itemArgs_redirs]
                        rfl
                      rw [hargs, List.length_cons]
                      omega
                    · have hsplit : t.addItems (.arg w :: (rs.map Item.redir ++ items)) =
                          ((t.addArg w).redirs rs).addItems items := by
                        rw [← addItems_redirs, ← addItems_append]
                        rfl
                      rw [hsplit]
                      exact hd₃
                  · exact Or.inr herr
                · exact Or.inr ⟨e, he, by rw [hrun₂]; rfl⟩
            · exact Or.inr ⟨"syntax", by simp [panics],
                parseargs_syntax h0 h (fun w hw => hword ⟨w, hw⟩) hends⟩

end Line

/-- Redirections come first, then an argument. -/
theorem split_items : ∀ items : List Item, ∃ (rs : List Redir) (items' : List Item),
    items = rs.map Item.redir ++ items' ∧ (items' = [] ∨ ∃ w items₂, items' = .arg w :: items₂) := by
  intro items
  induction items with
  | nil => exact ⟨[], [], rfl, Or.inl rfl⟩
  | cons item items ih =>
      cases item with
      | arg w => exact ⟨[], _, rfl, Or.inr ⟨w, items, rfl⟩⟩
      | redir r =>
          obtain ⟨rs, items', rfl, h⟩ := ih
          exact ⟨r :: rs, items', rfl, h⟩

theorem next_items {items : List Item} (h : items = [] ∨ ∃ w items', items = .arg w :: items')
    (hends : Ends rest) : next [chr '<', chr '>'] (items.flatMap Item.toks ++ rest) = false := by
  rcases h with rfl | ⟨w, items', rfl⟩
  · exact next_eq_false_of_ends hends
  · rfl

/-- A list of words and redirections is read, up to where the arguments end. -/
theorem parseargs_complete (h0 : (0 : Byte) ∉ buf) (hends : Ends rest) :
    ∀ (n : Nat) (items : List Item) (turns : Nat) (cmd : Cmd) (t : Tree) (argc ps : Nat),
    items.length ≤ n → (items = [] ∨ ∃ w items', items = .arg w :: items') →
    (items.flatMap Item.toks ++ rest).length < turns → argc + (itemArgs items).length < MAXARGS →
    Reads buf ps (items.flatMap Item.toks ++ rest) → Denotes buf cmd t →
    ∃ cmd' ps', parseargs buf turns cmd argc ps = .ok (cmd', ps') ∧ Reads buf ps' rest ∧
      Denotes buf cmd' (t.addItems items) := by
  intro n
  induction n with
  | zero =>
      intro items turns cmd t argc ps hn _ hlt _ h hd
      rw [List.eq_nil_of_length_eq_zero (Nat.le_zero.mp hn)] at h hlt ⊢
      obtain ⟨turns, rfl⟩ : ∃ n, turns = n + 1 := ⟨turns - 1, by omega⟩
      obtain ⟨ps', hrun, h'⟩ := parseargs_stop h0 turns cmd argc h hends
      exact ⟨cmd, ps', hrun, h', hd⟩
  | succ n ih =>
      intro items turns cmd t argc ps hn hhead hlt hcount h hd
      obtain ⟨turns, rfl⟩ : ∃ n, turns = n + 1 := ⟨turns - 1, by omega⟩
      rcases hhead with rfl | ⟨w, items, rfl⟩
      · obtain ⟨ps', hrun, h'⟩ := parseargs_stop h0 turns cmd argc h hends
        exact ⟨cmd, ps', hrun, h', hd⟩
      · obtain ⟨rs, items', rfl, hhead'⟩ := split_items items
        have hw : Reads buf ps (.word w :: (rs.flatMap Redir.toks ++ (items'.flatMap Item.toks ++ rest))) := by
          rw [List.flatMap_cons, List.flatMap_append, toks_redirs, List.append_assoc, List.append_assoc] at h
          exact h
        have hargs : itemArgs (.arg w :: (rs.map Item.redir ++ items')) = w :: itemArgs items' := by
          rw [show Item.arg w :: (rs.map Item.redir ++ items') = [.arg w] ++ (rs.map Item.redir ++ items') from rfl,
            itemArgs_append, itemArgs_append, itemArgs_redirs]
          rfl
        rw [hargs, List.length_cons] at hcount
        rw [List.flatMap_cons, List.flatMap_append, toks_redirs] at hlt
        simp only [Item.toks, List.length_append, List.length_cons, List.length_nil] at hlt hn
        obtain ⟨q, eq, ps₁, hword, h₁, hrun⟩ :=
          parseargs_word h0 turns cmd argc hw
        obtain ⟨cmd₂, ps₂, hrun₂, h₂, hd₂⟩ := parseredirs_complete h0 rs turns _ _ ps₁
          (by simp only [List.length_append]; omega) h₁ (next_items hhead' hends) (hd.addArg hword)
        obtain ⟨cmd₃, ps₃, hrun₃, h₃, hd₃⟩ := ih items' turns cmd₂ _ (argc + 1) ps₂
          (by simp only [List.length_map] at hn; omega) hhead'
          (by simp only [List.length_append]; omega) (by omega) h₂ hd₂
        refine ⟨cmd₃, ps₃, ?_, h₃, ?_⟩
        · rw [hrun, if_neg (by omega), hrun₂, ok_bind]
          exact hrun₃
        · have hsplit : t.addItems (.arg w :: (rs.map Item.redir ++ items')) =
              ((t.addArg w).redirs rs).addItems items' := by
            rw [← addItems_redirs, ← addItems_append]
            rfl
          rw [hsplit]
          exact hd₃

end Xv6.Sh
