import Xv6.Sh.Accepts

/-!
# Sh — Command

A line and the command that it is parsed to.

After the parse `nulterminate` puts a NUL at the end of every string.  An end is at a byte of no word, so
that the strings come out whole, whatever lies next to what.

* `nulterminate_strings`: every string of the command is as it was in the line.
* `parsecmd_iff`: the parser accepts the lines of the grammar, with their meaning.
* `parsecmd_print`: every command can be typed, and is what its line is parsed to.
-/

namespace Xv6.Sh
open Xv6.Lib

variable {buf : List Byte} {q eq : Nat} {w : List Byte} {cmd : Cmd} {t : Tree} {ts : List Tok}
  {es : List Nat}

/-! ### Strings -/

/-- The string that starts at `q`. -/
def cstrAt (buf : List Byte) (q : Nat) : List Byte := (buf.drop q).takeWhile fun c => decide (c ≠ 0)

/-- What a command says when its strings are read from the line. -/
def Cmd.strings (buf : List Byte) : Cmd → Tree
  | .exec argv => .exec (argv.map fun arg => cstrAt buf arg.1)
  | .redir cmd file _ mode fd => .redir (cmd.strings buf) (cstrAt buf file) mode fd
  | .pipe left right => .pipe (left.strings buf) (right.strings buf)
  | .list left right => .list (left.strings buf) (right.strings buf)
  | .back cmd => .back (cmd.strings buf)

/-- Where `nulterminate` puts NULs. -/
def Cmd.ends : Cmd → List Nat
  | .exec argv => argv.map Prod.snd
  | .redir cmd _ efile _ _ => cmd.ends ++ [efile]
  | .pipe left right => left.ends ++ right.ends
  | .list left right => left.ends ++ right.ends
  | .back cmd => cmd.ends

def setNuls (buf : List Byte) (es : List Nat) : List Byte := es.foldl (fun buf e => buf.set e 0) buf

theorem nulterminate_eq (cmd : Cmd) (buf : List Byte) : nulterminate cmd buf = setNuls buf cmd.ends := by
  induction cmd generalizing buf with
  | exec argv => rw [nulterminate, Cmd.ends, setNuls, List.foldl_map]
  | redir cmd file efile mode fd ih => rw [nulterminate, ih, Cmd.ends, setNuls, setNuls, List.foldl_append]; rfl
  | pipe left right ihl ihr =>
      rw [nulterminate, ihr, ihl, Cmd.ends, setNuls, setNuls, setNuls, List.foldl_append]
  | list left right ihl ihr =>
      rw [nulterminate, ihr, ihl, Cmd.ends, setNuls, setNuls, setNuls, List.foldl_append]
  | back cmd ih => rw [nulterminate, ih, Cmd.ends]

theorem setNuls_length (es : List Nat) (buf : List Byte) : (setNuls buf es).length = buf.length := by
  induction es generalizing buf with
  | nil => rfl
  | cons e es ih => exact (ih (buf.set e 0)).trans List.length_set

theorem deref_setNuls (es : List Nat) (buf : List Byte) (j : Nat) :
    deref (setNuls buf es) j = if j ∈ es then 0 else deref buf j := by
  induction es generalizing buf with
  | nil => rfl
  | cons e es ih =>
      have hstep : setNuls buf (e :: es) = setNuls (buf.set e 0) es := rfl
      rw [hstep, ih]
      by_cases hj : j ∈ es
      · rw [if_pos hj, if_pos (List.mem_cons_of_mem e hj)]
      · rw [if_neg hj]
        by_cases hje : j = e
        · subst hje
          rw [if_pos (List.mem_cons_self ..), deref, List.getD_eq_getElem?_getD, List.getElem?_set_self']
          cases buf[j]? <;> rfl
        · rw [if_neg (by simp [hj, hje]), deref, deref, List.getD_eq_getElem?_getD,
            List.getD_eq_getElem?_getD, List.getElem?_set_ne (Ne.symm hje)]

/-- An end that is no part of a word. -/
def IsStop (buf : List Byte) (e : Nat) : Prop := ∀ c, buf[e]? = some c → wordByte c = false

theorem IsWord.isStop (h : IsWord buf q eq w) : IsStop buf eq := fun c hc =>
  h.stop c (by rw [List.head?_drop, hc])

theorem IsWord.getElem? (h : IsWord buf q eq w) {j : Nat} (hj : j < w.length) : buf[q + j]? = w[j]? := by
  rw [← List.getElem?_drop, h.split, List.getElem?_append_left hj]

/-- **A string after `nulterminate`**: no NUL is put into it, and one at its end. -/
theorem IsWord.cstrAt_setNuls (h : IsWord buf q eq w) (h0 : (0 : Byte) ∉ buf)
    (hstop : ∀ e ∈ es, IsStop buf e) (hend : eq ∈ es) : cstrAt (setNuls buf es) q = w := by
  have hin : ∀ j, j < w.length → (setNuls buf es)[q + j]? = w[j]? := by
    intro j hj
    have hjw := h.getElem? hj
    rw [List.getElem?_eq_getElem hj] at hjw ⊢
    have hnot : q + j ∉ es := fun hmem => by
      have hb := hstop _ hmem _ hjw
      rw [h.word _ (List.getElem_mem hj)] at hb
      cases hb
    have hd := deref_setNuls es buf (q + j)
    have hlt : q + j < (setNuls buf es).length := by
      rw [setNuls_length]
      exact (List.getElem?_eq_some_iff.mp hjw).1
    rw [if_neg hnot, deref, deref, List.getD_eq_getElem?_getD, List.getD_eq_getElem?_getD, hjw,
      List.getElem?_eq_getElem hlt] at hd
    rw [List.getElem?_eq_getElem hlt]
    exact congrArg some hd
  have hnonzero : ∀ c ∈ w, decide (c ≠ 0) = true := by
    intro c hc
    refine decide_eq_true fun hc0 => h0 ?_
    have : c ∈ buf.drop q := by
      rw [h.split]
      exact List.mem_append_left _ hc
    exact hc0 ▸ List.mem_of_mem_drop this
  have hsplit : (setNuls buf es).drop q = w ++ (setNuls buf es).drop eq := by
    refine List.ext_getElem? fun j => ?_
    rw [List.getElem?_drop]
    by_cases hj : j < w.length
    · rw [hin j hj, List.getElem?_append_left hj]
    · rw [List.getElem?_append_right (not_lt.mp hj), List.getElem?_drop, h.end_eq]
      congr 1
      omega
  have hd : deref (setNuls buf es) eq = 0 := by rw [deref_setNuls, if_pos hend]
  rw [cstrAt, hsplit, List.takeWhile_append_of_pos hnonzero]
  have htail : ((setNuls buf es).drop eq).takeWhile (fun c => decide (c ≠ 0)) = [] := by
    have := deref_eq (rfl : (setNuls buf es).drop eq = _)
    rw [hd] at this
    cases hl : (setNuls buf es).drop eq with
    | nil => rfl
    | cons c l =>
        rw [hl] at this
        exact List.takeWhile_cons_of_neg (by simpa using this.symm)
  rw [htail, List.append_nil]

theorem Denotes.isStop (h : Denotes buf cmd t) : ∀ e ∈ cmd.ends, IsStop buf e := by
  induction h with
  | exec h =>
      intro e he
      obtain ⟨arg, harg, rfl⟩ := List.mem_map.mp he
      have hboth := h.imp fun arg w hw => And.intro hw.isStop hw
      exact ((List.forall₂_and_left (p := fun arg => IsStop buf arg.2) _ _).mp hboth).1 arg harg
  | redir _ hw mode fd ih =>
      intro e he
      rcases List.mem_append.mp he with he | he
      · exact ih e he
      · rw [List.mem_singleton.mp he]
        exact hw.isStop
  | pipe _ _ ihl ihr => exact fun e he => (List.mem_append.mp he).elim (ihl e) (ihr e)
  | list _ _ ihl ihr => exact fun e he => (List.mem_append.mp he).elim (ihl e) (ihr e)
  | back _ ih => exact ih

theorem Denotes.strings (h : Denotes buf cmd t) (h0 : (0 : Byte) ∉ buf)
    (hstop : ∀ e ∈ es, IsStop buf e) (hsub : ∀ e ∈ cmd.ends, e ∈ es) :
    cmd.strings (setNuls buf es) = t := by
  induction h with
  | @exec argv args h =>
      refine congrArg Tree.exec ?_
      have hends : ∀ e ∈ argv.map Prod.snd, e ∈ es := hsub
      clear hsub
      induction h with
      | nil => rfl
      | @cons arg w argv args hw _ ih =>
          rw [List.map_cons, hw.cstrAt_setNuls h0 hstop (hends _ (List.mem_cons_self ..)),
            ih fun e he => hends e (List.mem_cons_of_mem _ he)]
  | redir _ hw mode fd ih =>
      rw [Cmd.strings, ih fun e he => hsub e (List.mem_append_left _ he),
        hw.cstrAt_setNuls h0 hstop (hsub _ (List.mem_append_right _ (List.mem_singleton_self _)))]
  | pipe _ _ ihl ihr =>
      rw [Cmd.strings, ihl fun e he => hsub e (List.mem_append_left _ he),
        ihr fun e he => hsub e (List.mem_append_right _ he)]
  | list _ _ ihl ihr =>
      rw [Cmd.strings, ihl fun e he => hsub e (List.mem_append_left _ he),
        ihr fun e he => hsub e (List.mem_append_right _ he)]
  | back _ ih => rw [Cmd.strings, ih hsub]

/-- **`nulterminate`** leaves the command what it was. -/
theorem nulterminate_strings (h : Denotes buf cmd t) (h0 : (0 : Byte) ∉ buf) :
    cmd.strings (nulterminate cmd buf) = t := by
  rw [nulterminate_eq]
  exact h.strings h0 h.isStop fun _ => id

/-! ### Lines -/

theorem lexes_nil (h : Lexes [] ts) : ts = [] := by
  generalize hl : ([] : List Byte) = l at h
  cases h with
  | nil => rfl
  | space => cases hl
  | single => cases hl
  | append => cases hl
  | gt => cases hl
  | word hne => exact absurd (List.append_eq_nil_iff.mp hl.symm).1 hne

theorem skip_end {ps : Nat} (h : Reads buf ps []) : skip buf (strchr whitespace) ps = buf.length := by
  have hq := h.skip
  have hns := head_skip buf ps
  refine le_antisymm hq.le ?_
  generalize skip buf (strchr whitespace) ps = q at hq hns
  have hlex := hq.lexes
  generalize hl : buf.drop q = l at hlex hns
  cases hlex with
  | nil => exact List.drop_eq_nil_iff.mp hl
  | space hc _ =>
      rw [hns _ rfl] at hc
      cases hc

/-- A line is accepted when the grammar derives it, with the same meaning, and a panic is one of four. -/
theorem parsecmd_spec (buf : List Byte) (h0 : (0 : Byte) ∉ buf) :
    (∀ t, (∃ cmd buf', parsecmd buf = .ok (cmd, buf') ∧ cmd.strings buf' = t) ↔
      ∃ ts, Lexes buf ts ∧ Derives .line t ts) ∧
    ∀ e, parsecmd buf = .error e → e ∈ panics := by
  have hstart : ∀ {ts}, Lexes buf ts → Reads buf 0 ts := fun h => ⟨Nat.zero_le _, h⟩
  obtain ⟨ts, hts⟩ := exists_lexes buf.length buf le_rfl h0
  have hout := parse_outcome h0 (4 * buf.length + 4) .line 0 ts
    (by have := hts.length_le; simp only [depth]; omega) (hstart hts)
  -- what the command is, and what is left over
  have hrest : ∀ {rest cmd ps}, Reads buf ps rest → parseline buf (4 * buf.length + 4) 0 = .ok (cmd, ps) →
      (rest = [] ∧ parsecmd buf = .ok (cmd, nulterminate cmd buf)) ∨
        (rest ≠ [] ∧ parsecmd buf = .error "syntax") := by
    intro rest cmd ps h hrun
    obtain ⟨ps', hpeek, h'⟩ := peek_spec [] (by simp) h
    have hps' : ps' = skip buf (strchr whitespace) ps := congrArg Prod.snd hpeek.symm
    rw [parsecmd, hrun, ok_bind]
    simp only [hpeek]
    by_cases hend : ps' = buf.length
    · refine Or.inl ⟨lexes_nil ?_, if_neg (not_not.mpr hend)⟩
      have := h'.lexes
      rwa [hend, List.drop_length] at this
    · refine Or.inr ⟨?_, if_pos hend⟩
      rintro rfl
      exact hend (hps'.trans (skip_end h))
  refine ⟨fun t => ⟨?_, ?_⟩, ?_⟩
  · rintro ⟨cmd, buf', hrun, rfl⟩
    rcases hout with ⟨t, pre, rest, cmd', ps, hline, rfl, h, hder, hd⟩ | ⟨e, -, hline⟩
    · have hline : parseline buf (4 * buf.length + 4) 0 = .ok (cmd', ps) := hline
      rcases hrest h hline with ⟨rfl, hok⟩ | ⟨-, herr⟩
      · cases hok.symm.trans hrun
        rw [List.append_nil] at hts
        rw [nulterminate_strings hd h0]
        exact ⟨pre, hts, hder⟩
      · cases herr.symm.trans hrun
    · have hline : parseline buf (4 * buf.length + 4) 0 = .error e := hline
      rw [parsecmd, hline] at hrun
      cases hrun
  · rintro ⟨ts', hts', hder⟩
    have hts₀ : Reads buf 0 (ts' ++ []) := by
      rw [List.append_nil]
      exact hstart hts'
    obtain ⟨cmd, ps, hline, h, hd⟩ := parse_complete h0 hder [] 0 (4 * buf.length + 4)
      (by have := hts'.length_le; simp only [depth, List.append_nil]; omega) hts₀ (Or.inl rfl)
    have hline : parseline buf (4 * buf.length + 4) 0 = .ok (cmd, ps) := hline
    rcases hrest h hline with ⟨-, hok⟩ | ⟨hne, -⟩
    · exact ⟨cmd, _, hok, nulterminate_strings hd h0⟩
    · exact absurd rfl hne
  · intro e herr
    rcases hout with ⟨t, pre, rest, cmd', ps, hline, rfl, h, hder, hd⟩ | ⟨e', he', hline⟩
    · rcases hrest h hline with ⟨-, hok⟩ | ⟨-, herr'⟩
      · cases hok.symm.trans herr
      · cases herr'.symm.trans herr
        decide
    · have hline : parseline buf (4 * buf.length + 4) 0 = .error e' := hline
      rw [parsecmd, hline] at herr
      cases herr
      exact he'

/-! ### Commands that can be typed -/

/-- A string that is a word. -/
def WordOk (w : List Byte) : Prop := w ≠ [] ∧ ∀ c ∈ w, wordByte c = true ∧ c ≠ 0

/-- A command of words, with fewer than `MAXARGS` arguments and the redirections that there are. -/
inductive Tree.Ok : Tree → Prop where
  | exec {args : List (List Byte)} (hw : ∀ w ∈ args, WordOk w) (h : args.length < MAXARGS) : Ok (.exec args)
  | redir {t : Tree} (h : t.Ok) {file : List Byte} (hw : WordOk file) (dir : Dir) :
      Ok (.redir t file dir.mode dir.fd)
  | pipe {l r : Tree} (hl : l.Ok) (hr : r.Ok) : Ok (.pipe l r)
  | list {l r : Tree} (hl : l.Ok) (hr : r.Ok) : Ok (.list l r)
  | back {t : Tree} (h : t.Ok) : Ok (.back t)

/-- The direction of a redirection. -/
def dirOf (mode fd : Nat) : Dir :=
  if fd = 0 then .input else if mode = Dir.append.mode then .append else .output

theorem dirOf_dir (dir : Dir) : dirOf dir.mode dir.fd = dir := by
  cases dir <;> rfl

def Dir.text : Dir → List Byte
  | .input => [chr '<']
  | .output => [chr '>', chr ' ']
  | .append => [chr '>', chr '>']

def paren (l : List Byte) : List Byte := chr '(' :: (l ++ [chr ')'])

/-- A line for a command, with all parentheses. -/
def Tree.print : Tree → List Byte
  | .exec args => args.flatMap fun w => w ++ [chr ' ']
  | .redir t file mode fd => paren t.print ++ (dirOf mode fd).text ++ file ++ [chr ' ']
  | .pipe l r => paren l.print ++ chr '|' :: paren r.print
  | .list l r => paren l.print ++ chr ';' :: paren r.print
  | .back t => paren t.print ++ [chr '&']

def parenToks (ts : List Tok) : List Tok := .lparen :: (ts ++ [.rparen])

/-- Its tokens. -/
def Tree.toks : Tree → List Tok
  | .exec args => args.map .word
  | .redir t file mode fd => parenToks t.toks ++ [(dirOf mode fd).tok, .word file]
  | .pipe l r => parenToks l.toks ++ .bar :: parenToks r.toks
  | .list l r => parenToks l.toks ++ .semi :: parenToks r.toks
  | .back t => parenToks t.toks ++ [.amp]

theorem lexes_word {l : List Byte} (hw : WordOk w) (h : Lexes l ts) :
    Lexes (w ++ chr ' ' :: l) (.word w :: ts) :=
  .word hw.1 (fun c hc => (hw.2 c hc).1) (fun c hc => by
    cases hc
    decide) (.space (by decide) h)

theorem lexes_paren {l l' : List Byte} {ts' : List Tok}
    (hl : ∀ {l ts}, Lexes l ts → Lexes (l' ++ l) (ts' ++ ts)) (h : Lexes l ts) :
    Lexes (paren l' ++ l) (parenToks ts' ++ ts) := by
  have hin := hl (.single .rparen h)
  simpa [paren, parenToks] using Lexes.single .lparen hin

/-- A line for a command has its tokens. -/
theorem Tree.Ok.lexes (h : t.Ok) : ∀ {l : List Byte} {ts : List Tok}, Lexes l ts →
    Lexes (t.print ++ l) (t.toks ++ ts) := by
  induction h with
  | @exec args hw hcount =>
      intro l ts hl
      clear hcount
      induction args with
      | nil => exact hl
      | cons w args ih =>
          have hrest := ih fun w' hw' => hw w' (List.mem_cons_of_mem w hw')
          have := lexes_word (hw w (List.mem_cons_self ..)) hrest
          simpa [Tree.print, Tree.toks] using this
  | @redir t _ file hw dir ih =>
      intro l ts hl
      have hfile := lexes_word hw hl
      have hdir : Lexes (dir.text ++ (file ++ chr ' ' :: l)) (dir.tok :: .word file :: ts) := by
        cases dir with
        | input => exact .single .lt hfile
        | output => exact .gt (fun hc => absurd (Option.some.inj hc) (by decide)) (.space (by decide) hfile)
        | append => exact .append hfile
      have := lexes_paren ih hdir
      simpa [Tree.print, Tree.toks, dirOf_dir] using this
  | pipe _ _ ihl ihr =>
      intro l ts hl
      have := lexes_paren ihl (.single .bar (lexes_paren ihr hl))
      simpa [Tree.print, Tree.toks] using this
  | list _ _ ihl ihr =>
      intro l ts hl
      have := lexes_paren ihl (.single .semi (lexes_paren ihr hl))
      simpa [Tree.print, Tree.toks] using this
  | back _ ih =>
      intro l ts hl
      have := lexes_paren ih (.single .amp hl)
      simpa [Tree.print, Tree.toks] using this

theorem derives_paren (h : Derives .line t ts) : Derives .exec t (parenToks ts) := by
  have := Derives.block h []
  simpa [parenToks, Tree.redirs] using this

theorem derives_line (h : Derives .exec t ts) : Derives .line t ts := by
  have := Derives.line (.single h) 0
  simpa [Tree.backs] using this

theorem Tree.Ok.derives (h : t.Ok) : Derives .line t t.toks := by
  induction h with
  | @exec args _ hcount =>
      have hargs : itemArgs (args.map .arg) = args := by
        rw [itemArgs, List.filterMap_map]
        exact List.filterMap_some
      have hredirs : (args.map Item.arg).filterMap Item.redir? = [] := by
        rw [List.filterMap_map]
        exact List.filterMap_eq_nil_iff.mpr fun _ _ => rfl
      have hsimple := Derives.simple (args.map .arg) (by rwa [hargs])
      rw [simple, hargs, hredirs] at hsimple
      have htoks : (args.map Item.arg).flatMap Item.toks = args.map .word := by
        rw [List.flatMap_map]
        exact List.map_eq_flatMap.symm
      rw [htoks] at hsimple
      exact derives_line hsimple
  | @redir t _ file _ dir ih =>
      have := Derives.block ih [⟨dir, file⟩]
      refine derives_line ?_
      simpa [Tree.toks, parenToks, dirOf_dir, Redir.toks, Tree.redirs] using this
  | pipe _ _ ihl ihr =>
      have := Derives.line (.pipe (derives_paren ihl) (.single (derives_paren ihr))) 0
      simpa [Tree.toks, Tree.backs] using this
  | list _ _ ihl ihr =>
      have := Derives.list (.single (derives_paren ihl)) 0 (derives_line (derives_paren ihr))
      simpa [Tree.toks, Tree.backs] using this
  | back _ ih =>
      have := Derives.line (.single (derives_paren ih)) 1
      simpa [Tree.toks, Tree.backs] using this

/-! ### Round trip -/

theorem not_mem_paren {l : List Byte} (h : (0 : Byte) ∉ l) : (0 : Byte) ∉ paren l := by
  simp only [paren, List.mem_cons, List.mem_append, List.not_mem_nil, or_false, not_or]
  exact ⟨by decide, h, by decide⟩

theorem WordOk.not_mem (h : WordOk w) : (0 : Byte) ∉ w := fun h0 => (h.2 0 h0).2 rfl

theorem Tree.Ok.not_mem (h : t.Ok) : (0 : Byte) ∉ t.print := by
  have hspace : (0 : Byte) ≠ chr ' ' := by decide
  induction h with
  | exec hw _ =>
      rw [Tree.print, List.mem_flatMap]
      rintro ⟨w, hmem, h0⟩
      rcases List.mem_append.mp h0 with h0 | h0
      · exact (hw w hmem).not_mem h0
      · exact hspace (List.mem_singleton.mp h0)
  | redir _ hw dir ih =>
      have hdir : (0 : Byte) ∉ (dirOf dir.mode dir.fd).text := by cases dir <;> decide
      simp only [Tree.print, List.mem_append, List.mem_singleton, not_or]
      exact ⟨⟨⟨not_mem_paren ih, hdir⟩, hw.not_mem⟩, hspace⟩
  | pipe _ _ ihl ihr =>
      simp only [Tree.print, List.mem_append, List.mem_cons, not_or]
      exact ⟨not_mem_paren ihl, by decide, not_mem_paren ihr⟩
  | list _ _ ihl ihr =>
      simp only [Tree.print, List.mem_append, List.mem_cons, not_or]
      exact ⟨not_mem_paren ihl, by decide, not_mem_paren ihr⟩
  | back _ ih =>
      simp only [Tree.print, List.mem_append, List.mem_singleton, not_or]
      exact ⟨not_mem_paren ih, by decide⟩

/-- The words of a line are words. -/
theorem Lexes.wordOk {l : List Byte} (h : Lexes l ts) (h0 : (0 : Byte) ∉ l) :
    ∀ w, Tok.word w ∈ ts → WordOk w := by
  induction h with
  | nil => exact fun w hw => absurd hw (List.not_mem_nil)
  | space _ _ ih => exact ih fun h => h0 (List.mem_cons_of_mem _ h)
  | single hc _ ih =>
      intro w hw
      rcases List.mem_cons.mp hw with rfl | hw
      · cases hc
      · exact ih (fun h => h0 (List.mem_cons_of_mem _ h)) w hw
  | append _ ih =>
      intro w hw
      rcases List.mem_cons.mp hw with heq | hw
      · cases heq
      · exact ih (fun h => h0 (List.mem_cons_of_mem _ (List.mem_cons_of_mem _ h))) w hw
  | gt _ _ ih =>
      intro w hw
      rcases List.mem_cons.mp hw with heq | hw
      · cases heq
      · exact ih (fun h => h0 (List.mem_cons_of_mem _ h)) w hw
  | word hne hword _ _ ih =>
      intro w hw
      rcases List.mem_cons.mp hw with heq | hw
      · cases heq
        exact ⟨hne, fun c hc => ⟨hword c hc, fun hc0 => h0 (List.mem_append_left _ (hc0 ▸ hc))⟩⟩
      · exact ih (fun h => h0 (List.mem_append_right _ h)) w hw

theorem Tree.Ok.redirs {rs : List Redir} (h : t.Ok) (hw : ∀ r ∈ rs, WordOk r.file) : (t.redirs rs).Ok := by
  induction rs generalizing t with
  | nil => exact h
  | cons r rs ih =>
      exact ih (.redir h (hw r (List.mem_cons_self ..)) r.dir) fun r' hr' => hw r' (List.mem_cons_of_mem r hr')

theorem Tree.Ok.backs (h : t.Ok) (n : Nat) : (t.backs n).Ok := by
  induction n generalizing t with
  | zero => exact h
  | succ n ih => exact ih (.back h)

theorem Derives.ok {lvl : Level} (h : Derives lvl t ts) (hw : ∀ w, Tok.word w ∈ ts → WordOk w) : t.Ok := by
  have hredirs : ∀ {rs : List Redir} {ts : List Tok}, (∀ w, Tok.word w ∈ ts → WordOk w) →
      (∀ tok ∈ rs.flatMap Redir.toks, tok ∈ ts) → ∀ r ∈ rs, WordOk r.file := fun hts hsub r hr =>
    hts _ (hsub _ (List.mem_flatMap.mpr ⟨r, hr, by simp [Redir.toks]⟩))
  induction h with
  | simple items hcount =>
      have hitem : ∀ item ∈ items, ∀ tok ∈ item.toks, tok ∈ items.flatMap Item.toks :=
        fun item hitem tok htok => List.mem_flatMap.mpr ⟨item, hitem, htok⟩
      refine Tree.Ok.redirs (.exec (fun w hmem => ?_) hcount) fun r hmem => ?_
      · obtain ⟨item, hin, harg⟩ := List.mem_filterMap.mp hmem
        cases item with
        | arg w' =>
            cases harg
            exact hw _ (hitem _ hin _ (List.mem_singleton_self _))
        | redir r => cases harg
      · obtain ⟨item, hin, hr⟩ := List.mem_filterMap.mp hmem
        cases item with
        | arg w' => cases hr
        | redir r' =>
            cases hr
            exact hw _ (hitem _ hin _ (by simp [Item.toks, Redir.toks]))
  | block _ rs ih =>
      refine Tree.Ok.redirs (ih fun w h => hw w (by simp [h])) (hredirs hw fun tok htok => ?_)
      exact List.mem_append_right _ (List.mem_cons_of_mem _ htok)
  | single _ ih => exact ih hw
  | pipe _ _ ihl ihr =>
      exact .pipe (ihl fun w h => hw w (by simp [h])) (ihr fun w h => hw w (by simp [h]))
  | line _ n ih => exact Tree.Ok.backs (ih fun w h => hw w (by simp [h])) n
  | list _ n _ ihl ihr =>
      exact .list (Tree.Ok.backs (ihl fun w h => hw w (by simp [h])) n) (ihr fun w h => hw w (by simp [h]))

/-- **Round trip**: a command is what its line is parsed to.  The parser returns these commands only. -/
theorem parsecmd_print (t : Tree) :
    (t.Ok → (0 : Byte) ∉ t.print ∧ ∃ cmd buf', parsecmd t.print = .ok (cmd, buf') ∧ cmd.strings buf' = t) ∧
    ∀ buf cmd buf', (0 : Byte) ∉ buf → parsecmd buf = .ok (cmd, buf') → (cmd.strings buf').Ok := by
  have hiff := fun (buf : List Byte) (h0 : (0 : Byte) ∉ buf) => (parsecmd_spec buf h0).1
  refine ⟨fun h => ⟨h.not_mem, (hiff _ h.not_mem t).mpr ⟨t.toks, ?_, h.derives⟩⟩, ?_⟩
  · have := h.lexes .nil
    simpa using this
  · intro buf cmd buf' h0 hrun
    obtain ⟨ts, hts, hder⟩ := (hiff buf h0 _).mp ⟨cmd, buf', hrun, rfl⟩
    exact hder.ok (hts.wordOk h0)

/-- **The parser accepts the lines of the grammar**, with their meaning.  On the others it panics, and
no line has two meanings. -/
theorem parsecmd_iff (buf : List Byte) (h0 : (0 : Byte) ∉ buf) :
    (∀ t, (∃ cmd buf', parsecmd buf = .ok (cmd, buf') ∧ cmd.strings buf' = t) ↔
      ∃ ts, Lexes buf ts ∧ Derives .line t ts) ∧
    (∀ e, parsecmd buf = .error e → e ∈ panics ∧ ∀ t ts, Lexes buf ts → ¬ Derives .line t ts) ∧
    ∀ t t' ts ts', Lexes buf ts → Derives .line t ts → Lexes buf ts' → Derives .line t' ts' → t = t' := by
  obtain ⟨hiff, hpanic⟩ := parsecmd_spec buf h0
  refine ⟨hiff, fun e he => ⟨hpanic e he, fun t ts hts hder => ?_⟩, fun t t' ts ts' hts hder hts' hder' => ?_⟩
  · obtain ⟨cmd, buf', hrun, -⟩ := (hiff t).mpr ⟨ts, hts, hder⟩
    cases hrun.symm.trans he
  · obtain ⟨cmd, buf', hrun, ht⟩ := (hiff t).mpr ⟨ts, hts, hder⟩
    obtain ⟨cmd', buf₂, hrun', ht'⟩ := (hiff t').mpr ⟨ts', hts', hder'⟩
    cases hrun.symm.trans hrun'
    exact ht.symm.trans ht'

/-- `a>b;(c|d)&` -/
def smallLine : List Byte :=
  [chr 'a', chr '>', chr 'b', chr ';', chr '(', chr 'c', chr '|', chr 'd', chr ')', chr '&']

def smallCommand : Tree :=
  .list (.redir (.exec [[chr 'a']]) [chr 'b'] Dir.output.mode Dir.output.fd)
    (.back (.pipe (.exec [[chr 'c']]) (.exec [[chr 'd']])))

theorem parsecmd_iff_small : ∃ ts, Lexes smallLine ts ∧ Derives .line smallCommand ts :=
  ((parsecmd_iff smallLine (by decide)).1 smallCommand).mp
    ⟨.list (.redir (.exec [(0, 1)]) 2 3 0x601 1) (.back (.pipe (.exec [(5, 6)]) (.exec [(7, 8)]))),
      [chr 'a', 0, chr 'b', 0, chr '(', chr 'c', 0, chr 'd', 0, chr '&'],
      eq_ok_of_toOption (by decide +kernel), by decide⟩

theorem wordOk_chr {c : Char} (h : wordByte (chr c) = true ∧ chr c ≠ 0) : WordOk [chr c] := by
  refine ⟨List.cons_ne_nil _ _, fun c' hc' => ?_⟩
  rw [List.mem_singleton.mp hc']
  exact h

theorem smallCommand_ok : smallCommand.Ok := by
  have hexec : ∀ {c : Char}, wordByte (chr c) = true ∧ chr c ≠ 0 → (Tree.exec [[chr c]]).Ok := fun h => by
    refine .exec (fun w hw => ?_) (show 1 < 10 by decide)
    rw [List.mem_singleton.mp hw]
    exact wordOk_chr h
  exact .list (.redir (hexec (by decide)) (wordOk_chr (by decide)) .output)
    (.back (.pipe (hexec (by decide)) (hexec (by decide))))

theorem parsecmd_print_small : ∃ cmd buf', parsecmd smallCommand.print = .ok (cmd, buf') ∧
    cmd.strings buf' = smallCommand :=
  ((parsecmd_print smallCommand).1 smallCommand_ok).2

end Xv6.Sh
