import Xv6.Sh.Parse

/-!
# Sh — Accepts

The parser of the shell accepts the commands of the grammar and no others.

* `parse_outcome`: a call that returns has read what its level derives, and a panic is one of four.
* `parse_complete`: what a level derives is read.
-/

namespace Xv6.Sh
open Xv6.Lib

variable {buf : List Byte} {ps turns calls : Nat} {ts rest : List Tok} {cmd : Cmd} {t : Tree}
  {lvl : Level}

/-! ### The loop of `parseline` -/

theorem next_amp (h : next [chr '&'] ts = true) : ∃ ts', ts = .amp :: ts' := by
  cases ts with
  | nil => cases h
  | cons tok ts =>
      have h : Tok.starts [chr '&'] tok = true := h
      cases tok with
      | amp => exact ⟨ts, rfl⟩
      | word w => cases h
      | _ => exact absurd h (by decide)

theorem Denotes.backs (h : Denotes buf cmd t) (n : Nat) : Denotes buf (Cmd.back^[n] cmd) (t.backs n) := by
  induction n generalizing cmd t with
  | zero => exact h
  | succ n ih => exact ih (.back h)

theorem parsebacks_spec (h0 : (0 : Byte) ∉ buf) : ∀ (turns : Nat) (cmd : Cmd) (ps : Nat) (ts : List Tok),
    ts.length < turns → Reads buf ps ts → ∃ n rest ps',
      parsebacks buf turns cmd ps = .ok (Cmd.back^[n] cmd, ps') ∧
      ts = List.replicate n .amp ++ rest ∧ next [chr '&'] rest = false ∧ Reads buf ps' rest := by
  intro turns
  induction turns with
  | zero => exact fun _ _ _ hlt => absurd hlt (Nat.not_lt_zero _)
  | succ turns ih =>
      intro cmd ps ts hlt h
      obtain ⟨ps₁, hpeek, h₁⟩ := peek_spec [chr '&'] (by decide) h
      rw [parsebacks, hpeek]
      by_cases hnext : next [chr '&'] ts = true
      · obtain ⟨ts, rfl⟩ := next_amp hnext
        have hgot := gettoken_spec h0 h₁
        simp only [hnext, Bool.not_true, Bool.false_eq_true, if_false]
        generalize gettoken buf ps₁ = x at hgot
        cases hgot with
        | tok _ _ q eq ps₂ h₂ _ =>
            obtain ⟨n, rest, ps', hrun, rfl, hrest, h'⟩ := ih (.back cmd) ps₂ ts (Nat.lt_of_succ_lt_succ hlt) h₂
            exact ⟨n + 1, rest, ps', hrun, rfl, hrest, h'⟩
      · have hfalse := Bool.not_eq_true _ |>.mp hnext
        exact ⟨0, ts, ps₁, by simp only [hfalse]; rfl, rfl, hfalse, h₁⟩

theorem amps_unique {n m : Nat} {rest' : List Tok} (hr : next [chr '&'] rest = false)
    (hr' : next [chr '&'] rest' = false)
    (h : List.replicate n .amp ++ rest = List.replicate m .amp ++ rest') : n = m ∧ rest = rest' := by
  induction n generalizing m with
  | zero =>
      cases m with
      | zero => exact ⟨rfl, h⟩
      | succ m =>
          have hrest : rest = .amp :: (List.replicate m .amp ++ rest') := h
          rw [hrest] at hr
          exact absurd (show Tok.starts [chr '&'] .amp = false from hr) (by decide)
  | succ n ih =>
      cases m with
      | zero =>
          have hrest : .amp :: (List.replicate n .amp ++ rest) = rest' := h
          rw [← hrest] at hr'
          exact absurd (show Tok.starts [chr '&'] .amp = false from hr') (by decide)
      | succ m =>
          obtain ⟨hn, hrest⟩ := ih (List.cons.inj h).2
          exact ⟨by rw [hn], hrest⟩

/-! ### The levels -/

theorem Reads.length_le (h : Reads buf ps ts) : ts.length ≤ buf.length := by
  have := h.lexes.length_le
  rw [List.length_drop] at this
  omega

/-- A token that `peek` finds is the one that `gettoken` takes. -/
theorem next_code {s : Byte} {tok : Tok} (hs : ∀ tok', Tok.starts [s] tok' = true → tok' = tok)
    (h : next [s] ts = true) : ∃ ts', ts = tok :: ts' := by
  cases ts with
  | nil => cases h
  | cons tok' ts => exact ⟨ts, by rw [hs tok' h]⟩

theorem starts_semi (tok : Tok) (h : Tok.starts [chr ';'] tok = true) : tok = .semi := by
  cases tok with
  | word w => cases h
  | _ => first | rfl | exact absurd h (by decide)

theorem starts_bar (tok : Tok) (h : Tok.starts [chr '|'] tok = true) : tok = .bar := by
  cases tok with
  | word w => cases h
  | _ => first | rfl | exact absurd h (by decide)

theorem starts_lparen (tok : Tok) (h : Tok.starts [chr '('] tok = true) : tok = .lparen := by
  cases tok with
  | word w => cases h
  | _ => first | rfl | exact absurd h (by decide)

theorem starts_rparen (tok : Tok) (h : Tok.starts [chr ')'] tok = true) : tok = .rparen := by
  cases tok with
  | word w => cases h
  | _ => first | rfl | exact absurd h (by decide)

theorem gettoken_reads (h0 : (0 : Byte) ∉ buf) {tok : Tok} (h : Reads buf ps (tok :: ts)) :
    Reads buf (gettoken buf ps).2 ts := by
  have hgot := gettoken_spec h0 h
  generalize gettoken buf ps = x at hgot
  cases hgot with
  | tok _ _ q eq ps' h' _ => exact h'

/-- The function of a level. -/
def parseAt (buf : List Byte) : Level → Nat → Nat → Except String (Cmd × Nat)
  | .line => parseline buf
  | .pipe => parsepipe buf
  | .exec => parseexec buf

/-- How deep the calls go for `n` tokens. -/
def depth : Level → Nat → Nat
  | .line, n => 4 * n + 4
  | .pipe, n => 4 * n + 3
  | .exec, n => 4 * n + 2

/-- What a call at a level comes to. -/
def Outcome (buf : List Byte) (lvl : Level) (ts : List Tok) (x : Except String (Cmd × Nat)) : Prop :=
  (∃ t pre rest cmd ps', x = .ok (cmd, ps') ∧ ts = pre ++ rest ∧ Reads buf ps' rest ∧
    Derives lvl t pre ∧ Denotes buf cmd t) ∨ ∃ e ∈ panics, x = .error e

/-- What calls with this bound come to. -/
def Sound (buf : List Byte) (calls : Nat) : Prop := ∀ lvl ps ts, depth lvl ts.length ≤ calls →
  Reads buf ps ts → Outcome buf lvl ts (parseAt buf lvl calls ps)

section Step

variable (h0 : (0 : Byte) ∉ buf) {c : Nat} (ih : Sound buf c) (h : Reads buf ps ts)

include h0 ih h

theorem parseline_outcome (hcalls : depth .line ts.length ≤ c + 1) :
    Outcome buf .line ts (parseline buf (c + 1) ps) := by
  rw [parseline]
  rcases ih .pipe ps ts (by simp only [depth] at *; omega) h with
    ⟨t, pre, rest, cmd, ps₁, hrun, rfl, h₁, hder, hd⟩ | ⟨e, he, hrun⟩
  · have hrun : parsepipe buf c ps = .ok (cmd, ps₁) := hrun
    obtain ⟨n, rest, ps₂, hbacks, rfl, -, h₂⟩ :=
      parsebacks_spec h0 (buf.length + 1) cmd ps₁ rest (Nat.lt_succ_of_le h₁.length_le) h₁
    obtain ⟨ps₃, hpeek, h₃⟩ := peek_spec [chr ';'] (by decide) h₂
    simp only [hrun, ok_bind, hbacks, hpeek]
    by_cases hnext : next [chr ';'] rest = true
    · obtain ⟨ts₄, rfl⟩ := next_code starts_semi hnext
      simp only [hnext, if_true]
      have hlen : depth .line ts₄.length ≤ c := by
        simp only [depth, List.length_append, List.length_cons] at *
        omega
      rcases ih .line _ ts₄ hlen (gettoken_reads h0 h₃) with
        ⟨t', pre', rest', cmd', ps₄, hrun', rfl, h₄, hder', hd'⟩ | ⟨e, he, hrun'⟩
      · have hrun' : parseline buf c (gettoken buf ps₃).2 = .ok (cmd', ps₄) := hrun'
        refine Or.inl ⟨.list (t.backs n) t', pre ++ List.replicate n .amp ++ .semi :: pre', rest',
          .list (Cmd.back^[n] cmd) cmd', ps₄, by rw [hrun']; rfl, by simp, h₄,
          .list hder n hder', .list (hd.backs n) hd'⟩
      · have hrun' : parseline buf c (gettoken buf ps₃).2 = .error e := hrun'
        exact Or.inr ⟨e, he, by rw [hrun']; rfl⟩
    · simp only [Bool.not_eq_true _ |>.mp hnext, Bool.false_eq_true, if_false]
      exact Or.inl ⟨t.backs n, pre ++ List.replicate n .amp, rest, Cmd.back^[n] cmd, ps₃, rfl,
        by simp, h₃, .line hder n, hd.backs n⟩
  · have hrun : parsepipe buf c ps = .error e := hrun
    exact Or.inr ⟨e, he, by rw [hrun]; rfl⟩

theorem parsepipe_outcome (hcalls : depth .pipe ts.length ≤ c + 1) :
    Outcome buf .pipe ts (parsepipe buf (c + 1) ps) := by
  rw [parsepipe]
  rcases ih .exec ps ts (by simp only [depth] at *; omega) h with
    ⟨t, pre, rest, cmd, ps₁, hrun, rfl, h₁, hder, hd⟩ | ⟨e, he, hrun⟩
  · have hrun : parseexec buf c ps = .ok (cmd, ps₁) := hrun
    obtain ⟨ps₂, hpeek, h₂⟩ := peek_spec [chr '|'] (by decide) h₁
    simp only [hrun, ok_bind, hpeek]
    by_cases hnext : next [chr '|'] rest = true
    · obtain ⟨ts₃, rfl⟩ := next_code starts_bar hnext
      simp only [hnext, if_true]
      have hlen : depth .pipe ts₃.length ≤ c := by
        simp only [depth, List.length_append, List.length_cons] at *
        omega
      rcases ih .pipe _ ts₃ hlen (gettoken_reads h0 h₂) with
        ⟨t', pre', rest', cmd', ps₄, hrun', rfl, h₄, hder', hd'⟩ | ⟨e, he, hrun'⟩
      · have hrun' : parsepipe buf c (gettoken buf ps₂).2 = .ok (cmd', ps₄) := hrun'
        exact Or.inl ⟨.pipe t t', pre ++ .bar :: pre', rest', .pipe cmd cmd', ps₄,
          by rw [hrun']; rfl, by simp, h₄, .pipe hder hder', .pipe hd hd'⟩
      · have hrun' : parsepipe buf c (gettoken buf ps₂).2 = .error e := hrun'
        exact Or.inr ⟨e, he, by rw [hrun']; rfl⟩
    · simp only [Bool.not_eq_true _ |>.mp hnext, Bool.false_eq_true, if_false]
      exact Or.inl ⟨t, pre, rest, cmd, ps₂, rfl, rfl, h₂, .single hder, hd⟩
  · have hrun : parseexec buf c ps = .error e := hrun
    exact Or.inr ⟨e, he, by rw [hrun]; rfl⟩

/-- `parseexec` with `parseblock`. -/
theorem parseexec_outcome (hcalls : depth .exec ts.length ≤ c + 2) :
    Outcome buf .exec ts (parseexec buf (c + 2) ps) := by
  rw [parseexec]
  obtain ⟨ps₁, hpeek, h₁⟩ := peek_spec [chr '('] (by decide) h
  simp only [hpeek]
  by_cases hnext : next [chr '('] ts = true
  · obtain ⟨ts, rfl⟩ := next_code starts_lparen hnext
    obtain ⟨ps₂, hpeek₂, h₂⟩ := peek_spec [chr '('] (by decide) h₁
    simp only [hnext, if_true]
    rw [parseblock]
    simp only [hpeek₂, hnext, Bool.not_true, Bool.false_eq_true, if_false]
    have hlen : depth .line ts.length ≤ c := by
      simp only [depth, List.length_cons] at *
      omega
    rcases ih .line _ ts hlen (gettoken_reads h0 h₂) with
      ⟨t, pre, rest, cmd, ps₃, hrun, rfl, h₃, hder, hd⟩ | ⟨e, he, hrun⟩
    · have hrun : parseline buf c (gettoken buf ps₂).2 = .ok (cmd, ps₃) := hrun
      obtain ⟨ps₄, hpeek₄, h₄⟩ := peek_spec [chr ')'] (by decide) h₃
      simp only [hrun, ok_bind, hpeek₄]
      by_cases hclose : next [chr ')'] rest = true
      · obtain ⟨ts₅, rfl⟩ := next_code starts_rparen hclose
        simp only [hclose, Bool.not_true, Bool.false_eq_true, if_false]
        have h₅ := gettoken_reads h0 h₄
        rcases parseredirs_outcome h0 (buf.length + 1) cmd t _ ts₅
          (Nat.lt_succ_of_le h₅.length_le) h₅ hd with
          ⟨rs, rest, cmd', ps₆, hrun₆, rfl, h₆, hd₆⟩ | ⟨e, he, hrun₆⟩
        · exact Or.inl ⟨t.redirs rs, .lparen :: pre ++ .rparen :: rs.flatMap Redir.toks, rest,
            cmd', ps₆, hrun₆, by simp, h₆, .block hder rs, hd₆⟩
        · exact Or.inr ⟨e, he, hrun₆⟩
      · simp only [Bool.not_eq_true _ |>.mp hclose, Bool.not_false, if_true]
        exact Or.inr ⟨_, by simp [panics], rfl⟩
    · have hrun : parseline buf c (gettoken buf ps₂).2 = .error e := hrun
      exact Or.inr ⟨e, he, by rw [hrun]; rfl⟩
  · simp only [Bool.not_eq_true _ |>.mp hnext, Bool.false_eq_true, if_false]
    have hexec : Denotes buf (.exec []) (.exec []) := .exec .nil
    rcases parseredirs_outcome h0 (buf.length + 1) _ _ ps₁ ts
      (Nat.lt_succ_of_le h₁.length_le) h₁ hexec with
      ⟨rs, rest, cmd, ps₂, hrun, rfl, h₂, hd⟩ | ⟨e, he, hrun⟩
    · rcases parseargs_outcome h0 (buf.length + 1) cmd _ 0 ps₂ rest
        (Nat.lt_succ_of_le h₂.length_le) (by decide) h₂ hd with
        ⟨items, rest, cmd', ps₃, hrun₃, rfl, hcount, h₃, hd₃⟩ | ⟨e, he, hrun₃⟩
      · have hall : simple (rs.map .redir ++ items) = ((Tree.exec []).redirs rs).addItems items := by
          rw [simple_eq, addItems_append, addItems_redirs]
        have htoks : (rs.map Item.redir ++ items).flatMap Item.toks =
            rs.flatMap Redir.toks ++ items.flatMap Item.toks := by
          rw [List.flatMap_append, toks_redirs]
        refine Or.inl ⟨simple (rs.map .redir ++ items), _, rest, cmd', ps₃, ?_, ?_, h₃,
          .simple _ ?_, hall ▸ hd₃⟩
        · rw [hrun, ok_bind]
          exact hrun₃
        · rw [htoks, List.append_assoc]
        · rw [itemArgs_append, itemArgs_redirs]
          simpa using hcount
      · exact Or.inr ⟨e, he, by rw [hrun, ok_bind]; exact hrun₃⟩
    · exact Or.inr ⟨e, he, by rw [hrun]; rfl⟩

end Step

/-- **What the parser comes to**: it has read what its level derives, or it panics. -/
theorem parse_outcome (h0 : (0 : Byte) ∉ buf) (calls : Nat) : Sound buf calls := by
  induction calls using Nat.strong_induction_on with
  | _ calls ih =>
      intro lvl ps ts hcalls h
      cases lvl with
      | line =>
          obtain ⟨c, rfl⟩ : ∃ c, calls = c + 1 := ⟨calls - 1, by simp only [depth] at hcalls; omega⟩
          exact parseline_outcome h0 (ih c (Nat.lt_succ_self c)) h hcalls
      | pipe =>
          obtain ⟨c, rfl⟩ : ∃ c, calls = c + 1 := ⟨calls - 1, by simp only [depth] at hcalls; omega⟩
          exact parsepipe_outcome h0 (ih c (Nat.lt_succ_self c)) h hcalls
      | exec =>
          obtain ⟨c, rfl⟩ : ∃ c, calls = c + 2 := ⟨calls - 2, by simp only [depth] at hcalls; omega⟩
          exact parseexec_outcome h0 (ih c (by omega)) h hcalls

/-! ### What is derived is read -/

/-- What may come after a command of a level. -/
def Follow : Level → List Tok → Prop
  | .line, ts => ts = [] ∨ next [chr ')'] ts = true
  | .pipe, ts => ts = [] ∨ next [chr ')', chr '&', chr ';'] ts = true
  | .exec, ts => Ends ts

theorem follow_pipe (h : Follow .line ts) : Follow .pipe ts := by
  rcases h with rfl | h
  · exact Or.inl rfl
  · obtain ⟨ts, rfl⟩ := next_code starts_rparen h
    exact Or.inr rfl

theorem follow_exec (h : Follow .pipe ts) : Follow .exec ts ∧ next [chr '|'] ts = false := by
  rcases h with rfl | h
  · exact ⟨Or.inl rfl, rfl⟩
  · cases ts with
    | nil => cases h
    | cons tok ts =>
        have h : Tok.starts [chr ')', chr '&', chr ';'] tok = true := h
        have hboth : Tok.starts [chr '|', chr ')', chr '&', chr ';'] tok = true ∧
            Tok.starts [chr '|'] tok = false := by
          cases tok with
          | word w => cases h
          | _ => revert h; decide
        exact ⟨Or.inr hboth.1, hboth.2⟩

theorem not_next_of_follow (h : Follow .line ts) :
    next [chr '&'] ts = false ∧ next [chr ';'] ts = false := by
  rcases h with rfl | h
  · exact ⟨rfl, rfl⟩
  · obtain ⟨ts, rfl⟩ := next_code starts_rparen h
    exact ⟨rfl, rfl⟩

theorem items_not_lparen (items : List Item) (h : Ends rest) :
    next [chr '('] (items.flatMap Item.toks ++ rest) = false := by
  cases items with
  | nil =>
      rcases h with rfl | h
      · rfl
      · cases rest with
        | nil => rfl
        | cons tok rest =>
            have h : Tok.starts [chr '|', chr ')', chr '&', chr ';'] tok = true := h
            show Tok.starts [chr '('] tok = false
            cases tok with
            | word w => rfl
            | _ => revert h; decide
  | cons item items =>
      cases item with
      | arg w => rfl
      | redir r =>
          obtain ⟨dir, w⟩ := r
          cases dir <;> rfl

/-- What `parseline` does after a pipeline: the `&`s are read, and not more. -/
theorem parsebacks_amps (h0 : (0 : Byte) ∉ buf) (cmd : Cmd) {n : Nat}
    (h : Reads buf ps (List.replicate n .amp ++ rest))
    (hrest : next [chr '&'] rest = false) : ∃ ps',
      parsebacks buf (buf.length + 1) cmd ps = .ok (Cmd.back^[n] cmd, ps') ∧ Reads buf ps' rest := by
  obtain ⟨m, rest', ps', hrun, heq, hrest', h'⟩ :=
    parsebacks_spec h0 (buf.length + 1) cmd ps _ (Nat.lt_succ_of_le h.length_le) h
  obtain ⟨rfl, rfl⟩ := amps_unique hrest hrest' heq
  exact ⟨ps', hrun, h'⟩

/-- A pipeline that `&`s follow. -/
theorem follow_amps (n : Nat) (h : Follow .pipe rest) :
    Follow .pipe (List.replicate n .amp ++ rest) := by
  cases n with
  | zero => exact h
  | succ n => exact Or.inr rfl

/-- Wherever the tokens `pre` of tree `t` stand, the parser of the level reads them, and no more. -/
def IsRead (buf : List Byte) (lvl : Level) (t : Tree) (pre : List Tok) : Prop :=
  ∀ (rest : List Tok) (ps calls : Nat), depth lvl (pre ++ rest).length ≤ calls →
    Reads buf ps (pre ++ rest) → Follow lvl rest →
    ∃ cmd ps', parseAt buf lvl calls ps = .ok (cmd, ps') ∧ Reads buf ps' rest ∧ Denotes buf cmd t

section IsRead

variable {l r : Tree} {ts' : List Tok} (h0 : (0 : Byte) ∉ buf)
include h0

theorem isRead_simple (items : List Item) (hcount : (itemArgs items).length < MAXARGS) :
    IsRead buf .exec (simple items) (items.flatMap Item.toks) := by
  intro rest ps calls hcalls h hfollow
  obtain ⟨c, rfl⟩ : ∃ c, calls = c + 1 := ⟨calls - 1, by simp only [depth] at hcalls; omega⟩
  obtain ⟨ps₁, hpeek, h₁⟩ := peek_spec [chr '('] (by decide) h
  obtain ⟨rs, items', rfl, hhead⟩ := split_items items
  rw [List.flatMap_append, toks_redirs, List.append_assoc] at h₁
  obtain ⟨cmd₂, ps₂, hrun₂, h₂, hd₂⟩ := parseredirs_complete h0 rs (buf.length + 1) (.exec [])
    (.exec []) ps₁ (Nat.lt_succ_of_le h₁.length_le) h₁ (next_items hhead hfollow) (.exec .nil)
  rw [itemArgs_append, itemArgs_redirs, List.nil_append] at hcount
  obtain ⟨cmd₃, ps₃, hrun₃, h₃, hd₃⟩ := parseargs_complete h0 hfollow items'.length items'
    (buf.length + 1) cmd₂ _ 0 ps₂ le_rfl hhead (Nat.lt_succ_of_le h₂.length_le) (by omega) h₂ hd₂
  refine ⟨cmd₃, ps₃, ?_, h₃, ?_⟩
  · show parseexec buf (c + 1) ps = _
    rw [parseexec, hpeek, items_not_lparen _ hfollow]
    simp only [Bool.false_eq_true, if_false, hrun₂, ok_bind, hrun₃]
  · rw [simple_eq, addItems_append, addItems_redirs]
    exact hd₃

theorem IsRead.block (ih : IsRead buf .line t ts) (rs : List Redir) :
    IsRead buf .exec (t.redirs rs) (.lparen :: ts ++ .rparen :: rs.flatMap Redir.toks) := by
  intro rest ps calls hcalls h hfollow
  obtain ⟨c, rfl⟩ : ∃ c, calls = c + 2 := ⟨calls - 2, by simp only [depth] at hcalls; omega⟩
  obtain ⟨ps₁, hpeek, h₁⟩ := peek_spec [chr '('] (by decide) h
  obtain ⟨ps₂, hpeek₂, h₂⟩ := peek_spec [chr '('] (by decide) h₁
  have hparen : next [chr '('] (.lparen :: ts ++ .rparen :: rs.flatMap Redir.toks ++ rest) = true := rfl
  have hsplit : Tok.lparen :: ts ++ .rparen :: rs.flatMap Redir.toks ++ rest =
      .lparen :: (ts ++ .rparen :: (rs.flatMap Redir.toks ++ rest)) := by simp
  rw [hsplit] at h₂ hcalls
  obtain ⟨cmd₃, ps₃, hrun₃, h₃, hd₃⟩ := ih (.rparen :: (rs.flatMap Redir.toks ++ rest)) _ c
    (by simp only [depth, List.length_cons] at *; omega) (gettoken_reads h0 h₂) (Or.inr rfl)
  have hrun₃ : parseline buf c (gettoken buf ps₂).2 = .ok (cmd₃, ps₃) := hrun₃
  obtain ⟨ps₄, hpeek₄, h₄⟩ := peek_spec [chr ')'] (by decide) h₃
  have h₅ := gettoken_reads h0 h₄
  obtain ⟨cmd₆, ps₆, hrun₆, h₆, hd₆⟩ := parseredirs_complete h0 rs (buf.length + 1) cmd₃ t _
    (Nat.lt_succ_of_le h₅.length_le) h₅ (next_eq_false_of_ends hfollow) hd₃
  have hclose : next [chr ')'] (.rparen :: (rs.flatMap Redir.toks ++ rest)) = true := rfl
  refine ⟨cmd₆, ps₆, ?_, h₆, hd₆⟩
  show parseexec buf (c + 2) ps = _
  rw [parseexec, hpeek, hparen]
  simp only [if_true]
  rw [parseblock, hpeek₂, hparen]
  simp only [Bool.not_true, Bool.false_eq_true, if_false, hrun₃, ok_bind, hpeek₄, hclose]
  exact hrun₆

omit h0 in
theorem IsRead.single (ih : IsRead buf .exec t ts) : IsRead buf .pipe t ts := by
  intro rest ps calls hcalls h hfollow
  obtain ⟨c, rfl⟩ : ∃ c, calls = c + 1 := ⟨calls - 1, by simp only [depth] at hcalls; omega⟩
  obtain ⟨hexec, hbar⟩ := follow_exec hfollow
  obtain ⟨cmd₁, ps₁, hrun₁, h₁, hd₁⟩ := ih rest ps c (by simp only [depth] at *; omega) h hexec
  have hrun₁ : parseexec buf c ps = .ok (cmd₁, ps₁) := hrun₁
  obtain ⟨ps₂, hpeek, h₂⟩ := peek_spec [chr '|'] (by decide) h₁
  refine ⟨cmd₁, ps₂, ?_, h₂, hd₁⟩
  show parsepipe buf (c + 1) ps = _
  rw [parsepipe, hrun₁, ok_bind]
  simp only [hpeek, hbar, Bool.false_eq_true, if_false, pure_eq_ok]

theorem IsRead.pipe (ihl : IsRead buf .exec l ts) (ihr : IsRead buf .pipe r ts') :
    IsRead buf .pipe (.pipe l r) (ts ++ .bar :: ts') := by
  intro rest ps calls hcalls h hfollow
  obtain ⟨c, rfl⟩ : ∃ c, calls = c + 1 := ⟨calls - 1, by simp only [depth] at hcalls; omega⟩
  rw [List.append_assoc, List.cons_append] at h hcalls
  obtain ⟨cmd₁, ps₁, hrun₁, h₁, hd₁⟩ := ihl _ ps c (by simp only [depth] at *; omega) h (Or.inr rfl)
  have hrun₁ : parseexec buf c ps = .ok (cmd₁, ps₁) := hrun₁
  obtain ⟨ps₂, hpeek, h₂⟩ := peek_spec [chr '|'] (by decide) h₁
  obtain ⟨cmd₃, ps₃, hrun₃, h₃, hd₃⟩ := ihr rest _ c
    (by simp only [depth, List.length_append, List.length_cons] at *; omega) (gettoken_reads h0 h₂)
    hfollow
  have hrun₃ : parsepipe buf c (gettoken buf ps₂).2 = .ok (cmd₃, ps₃) := hrun₃
  have hbar : next [chr '|'] (.bar :: (ts' ++ rest)) = true := rfl
  refine ⟨.pipe cmd₁ cmd₃, ps₃, ?_, h₃, .pipe hd₁ hd₃⟩
  show parsepipe buf (c + 1) ps = _
  rw [parsepipe, hrun₁, ok_bind]
  simp only [hpeek, hbar, if_true, hrun₃, ok_bind, pure_eq_ok]

theorem IsRead.line (ih : IsRead buf .pipe t ts) (n : Nat) :
    IsRead buf .line (t.backs n) (ts ++ List.replicate n .amp) := by
  intro rest ps calls hcalls h hfollow
  obtain ⟨c, rfl⟩ : ∃ c, calls = c + 1 := ⟨calls - 1, by simp only [depth] at hcalls; omega⟩
  rw [List.append_assoc] at h hcalls
  obtain ⟨hamp, hsemi⟩ := not_next_of_follow hfollow
  obtain ⟨cmd₁, ps₁, hrun₁, h₁, hd₁⟩ := ih _ ps c (by simp only [depth] at *; omega) h
    (follow_amps n (follow_pipe hfollow))
  have hrun₁ : parsepipe buf c ps = .ok (cmd₁, ps₁) := hrun₁
  obtain ⟨ps₂, hrun₂, h₂⟩ := parsebacks_amps h0 cmd₁ h₁ hamp
  obtain ⟨ps₃, hpeek, h₃⟩ := peek_spec [chr ';'] (by decide) h₂
  refine ⟨Cmd.back^[n] cmd₁, ps₃, ?_, h₃, hd₁.backs n⟩
  show parseline buf (c + 1) ps = _
  rw [parseline, hrun₁, ok_bind]
  simp only [hrun₂, ok_bind, hpeek, hsemi, Bool.false_eq_true, if_false, pure_eq_ok]

theorem IsRead.list (ihl : IsRead buf .pipe l ts) (n : Nat) (ihr : IsRead buf .line r ts') :
    IsRead buf .line (.list (l.backs n) r) (ts ++ List.replicate n .amp ++ .semi :: ts') := by
  intro rest ps calls hcalls h hfollow
  obtain ⟨c, rfl⟩ : ∃ c, calls = c + 1 := ⟨calls - 1, by simp only [depth] at hcalls; omega⟩
  have hsplit : ts ++ List.replicate n .amp ++ .semi :: ts' ++ rest =
      ts ++ (List.replicate n .amp ++ .semi :: (ts' ++ rest)) := by simp
  rw [hsplit] at h hcalls
  obtain ⟨cmd₁, ps₁, hrun₁, h₁, hd₁⟩ := ihl _ ps c (by simp only [depth] at *; omega) h
    (follow_amps n (Or.inr rfl))
  have hrun₁ : parsepipe buf c ps = .ok (cmd₁, ps₁) := hrun₁
  obtain ⟨ps₂, hrun₂, h₂⟩ := parsebacks_amps h0 cmd₁ h₁ rfl
  obtain ⟨ps₃, hpeek, h₃⟩ := peek_spec [chr ';'] (by decide) h₂
  obtain ⟨cmd₄, ps₄, hrun₄, h₄, hd₄⟩ := ihr rest _ c
    (by simp only [depth, List.length_append, List.length_cons] at *; omega) (gettoken_reads h0 h₃)
    hfollow
  have hrun₄ : parseline buf c (gettoken buf ps₃).2 = .ok (cmd₄, ps₄) := hrun₄
  have hsemi : next [chr ';'] (.semi :: (ts' ++ rest)) = true := rfl
  refine ⟨.list (Cmd.back^[n] cmd₁) cmd₄, ps₄, ?_, h₄, .list (hd₁.backs n) hd₄⟩
  show parseline buf (c + 1) ps = _
  rw [parseline, hrun₁, ok_bind]
  simp only [hrun₂, ok_bind, hpeek, hsemi, if_true, hrun₄, pure_eq_ok]

/-- **What a level derives is read.** -/
theorem parse_complete {pre : List Tok} (hder : Derives lvl t pre) : IsRead buf lvl t pre := by
  induction hder with
  | simple items hcount => exact isRead_simple h0 items hcount
  | block _ rs ih => exact ih.block h0 rs
  | single _ ih => exact ih.single
  | pipe _ _ ihl ihr => exact ihl.pipe h0 ihr
  | line _ n ih => exact ih.line h0 n
  | list _ n _ ihl ihr => exact ihl.list h0 n ihr

end IsRead

end Xv6.Sh
