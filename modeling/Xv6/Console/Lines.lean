import Xv6.Console.Tty

/-!
# Console — Lines

What the readers of the console take, over whole runs: the lines that were typed, as they were when
they ended.

* `Reads`: what a turn of a reader does.
* `Ended`: where a line ends.
* `Lines`: the invariant of the system and of what has been observed.
* `console_lines`: the readers share the edited lines, in order, and none of them sleeps beside one.
-/

namespace Xv6.Console
open Xv6.Lib
open Xv6.Lib.Ring (cell Holds)

/-! ### The keys -/

/-- One key of a line. -/
def editKey (line : List Byte) (c : Byte) : List Byte :=
  if c = ctrl 'P' then line
  else if c = ctrl 'U' then []
  else if c = ctrl 'H' ∨ c = chr '\x7f' then line.dropLast
  else line ++ [typedAs c]

/-- What is left of the keys of a line. -/
def editLine (keys : List Byte) : List Byte := keys.foldl editKey []

/-- The keys that count: those that edit, and those that are echoed. -/
def typed (os : List Obs) : List Byte := os.filterMap fun o =>
  match o with
  | .echo c bytes => if edits c = true ∨ bytes ≠ [] then some c else none
  | _ => none

/-- The bytes that are taken off the console, in order. -/
def takes (os : List Obs) : List Byte := os.flatMap fun o =>
  match o with
  | .sleeps _ bytes => bytes
  | .returns _ bytes lost _ _ _ => bytes ++ lost.toList
  | _ => []

/-- Neither a newline nor an end-of-file. -/
def Inside (l : List Byte) : Prop := chr '\n' ∉ l ∧ ctrl 'D' ∉ l

variable {l line : List Byte} {c : Byte} {os : List Obs} {s s' : System Tty}

theorem Inside.mono {l' : List Byte} (h : Inside l) (hsub : ∀ x ∈ l', x ∈ l) : Inside l' :=
  ⟨fun hx => h.1 (hsub _ hx), fun hx => h.2 (hsub _ hx)⟩

theorem Inside.append {l' : List Byte} (h : Inside l) (h' : Inside l') : Inside (l ++ l') := by
  refine ⟨fun hx => ?_, fun hx => ?_⟩
  · exact (List.mem_append.mp hx).elim h.1 h'.1
  · exact (List.mem_append.mp hx).elim h.2 h'.2

theorem inside_singleton : Inside [c] ↔ c ≠ chr '\n' ∧ c ≠ ctrl 'D' := by
  simp only [Inside, List.mem_singleton, ne_eq, eq_comm]

theorem inside_nil : Inside [] := ⟨List.not_mem_nil, List.not_mem_nil⟩

theorem consputc_ne_nil (n : Nat) : consputc n ≠ [] := by
  rw [consputc]
  split
  · exact List.cons_ne_nil _ _
  · exact List.cons_ne_nil _ _

theorem editLine_snoc (keys : List Byte) (c : Byte) : editLine (keys ++ [c]) = editKey (editLine keys) c :=
  List.foldl_append

/-- A key that is in `edits` leaves a part of the line. -/
theorem mem_editKey (h : edits c = true) : ∀ x ∈ editKey line c, x ∈ line := by
  intro x hx
  rw [editKey] at hx
  split at hx
  · exact hx
  · split at hx
    · exact absurd hx List.not_mem_nil
    · split at hx
      · exact List.mem_of_mem_dropLast hx
      · rw [edits, decide_eq_true_iff] at h
        tauto

theorem length_editKey_le (h : edits c = true) : (editKey line c).length ≤ line.length := by
  rw [editKey]
  split
  · exact le_refl _
  · split
    · exact Nat.zero_le _
    · split
      · rw [List.length_dropLast]
        exact Nat.sub_le _ _
      · rw [edits, decide_eq_true_iff] at h
        tauto

theorem editKey_of_not (h : edits c = false) : editKey line c = line ++ [typedAs c] := by
  rw [edits, decide_eq_false_iff_not] at h
  push Not at h
  rw [editKey, if_neg h.1, if_neg h.2.1, if_neg (by tauto)]

/-- **`key`** edits the line, or leaves it, or puts the character at its end, or ends it: at a newline, at an
end-of-file, or when the ring is full. -/
theorem Tty.key_cases (c : Byte) (t : Tty) :
    (edits c = true ∧ (t.key c).1.2 = false ∧ (t.key c).2 = { t with line := editKey t.line c }) ∨
    (edits c = false ∧ (t.key c).1 = ([], false) ∧ (t.key c).2 = t) ∨
    (edits c = false ∧ (t.key c).1 = (consputc (typedAs c).toNat, false) ∧ Inside [typedAs c] ∧
      (t.unread ++ t.line).length + 1 < INPUT_BUF_SIZE ∧ (t.key c).2 = { t with line := t.line ++ [typedAs c] }) ∨
    (edits c = false ∧ (t.key c).1 = (consputc (typedAs c).toNat, true) ∧
      (typedAs c = chr '\n' ∨ typedAs c = ctrl 'D' ∨ (t.unread ++ t.line).length + 1 = INPUT_BUF_SIZE) ∧
      (t.key c).2 = ⟨t.unread ++ (t.line ++ [typedAs c]), []⟩) := by
  rw [Tty.key, editKey, edits]
  by_cases hP : c = ctrl 'P'
  · rw [if_pos hP, if_pos hP]
    exact Or.inl ⟨decide_eq_true (Or.inl hP), rfl, rfl⟩
  by_cases hU : c = ctrl 'U'
  · rw [if_neg hP, if_pos hU, if_neg hP, if_pos hU]
    exact Or.inl ⟨decide_eq_true (Or.inr (Or.inl hU)), rfl, rfl⟩
  by_cases hH : c = ctrl 'H' ∨ c = chr '\x7f'
  · rw [if_neg hP, if_neg hU, if_pos hH, if_neg hP, if_neg hU, if_pos hH]
    exact Or.inl ⟨decide_eq_true (Or.inr (Or.inr hH)), rfl, rfl⟩
  have hedits : decide (c = ctrl 'P' ∨ c = ctrl 'U' ∨ c = ctrl 'H' ∨ c = chr '\x7f') = false :=
    decide_eq_false (by tauto)
  rw [if_neg hP, if_neg hU, if_neg hH]
  refine Or.inr ?_
  split
  · next hroom =>
      split
      · next hend => exact Or.inr (Or.inr ⟨hedits, rfl, hend, rfl⟩)
      · next hend =>
          refine Or.inr (Or.inl ⟨hedits, rfl, inside_singleton.mpr ⟨?_, ?_⟩, ?_, rfl⟩)
          · exact fun hnl => hend (Or.inl hnl)
          · exact fun hD => hend (Or.inr (Or.inl hD))
          · exact lt_of_le_of_ne hroom.2 fun hfull => hend (Or.inr (Or.inr hfull))
  · exact Or.inl ⟨hedits, rfl, rfl⟩

/-! ### The turns -/

/-- What a turn does: it takes bytes from the front, of at most one line, and sleeps only when there
are no more. -/
structure Reads (target n : Nat) (l : List Byte) (got : Got) (l' : List Byte) : Prop where
  split : l = got.bytes ++ got.lost.toList ++ l'
  inside : Inside got.bytes.dropLast
  noEof : ctrl 'D' ∉ got.bytes
  length : got.bytes.length ≤ n
  sleeps : ∀ m, got.turn = .sleeps m → got.lost = none ∧ l' = [] ∧ Inside got.bytes ∧ got.bytes.length < n
  returns : ∀ r, got.turn = .returns r → r = -1 ∨ r = (target : Int) - n + got.bytes.length
  zero : got.turn = .returns 0 → target = 0 ∨ got.lost ≠ none

/-- One more byte at the front. -/
theorem Reads.cons {target n : Nat} {l l' : List Byte} {got : Got} (hn : n + 1 ≤ target)
    (h : Reads target n l got l') (hc : Inside [c]) :
    Reads target (n + 1) (c :: l) { got with bytes := c :: got.bytes } l' := by
  obtain ⟨hnl, hD⟩ := inside_singleton.mp hc
  refine ⟨congrArg (c :: ·) h.split, ?_, List.not_mem_cons_of_ne_of_not_mem (Ne.symm hD) h.noEof,
    Nat.succ_le_succ h.length, fun m hm => ?_, fun r hr => ?_, fun hr => ?_⟩
  · refine (hc.append h.inside).mono fun x hx => ?_
    show x ∈ c :: got.bytes.dropLast
    cases hb : got.bytes with
    | nil =>
        simp only [hb, List.dropLast_singleton] at hx
        exact absurd hx List.not_mem_nil
    | cons b bytes =>
        simp only [hb, List.dropLast_cons_cons] at hx
        exact hx
  · obtain ⟨hlost, hnil, hin, hlt⟩ := h.sleeps m hm
    exact ⟨hlost, hnil, hc.append hin, Nat.succ_lt_succ hlt⟩
  · rcases h.returns r hr with hr | hr
    · exact Or.inl hr
    · refine Or.inr ?_
      rw [hr, List.length_cons]
      push_cast
      ring
  · rcases h.returns 0 hr with hr | hr
    · cases hr
    · omega

theorem reads_lost (target n : Nat) (c : Byte) (l : List Byte) :
    Reads target (n + 1) (c :: l) ⟨.returns (target - (n + 1)), [], some c⟩ l := by
  refine ⟨rfl, inside_nil, List.not_mem_nil, Nat.zero_le _, fun m hm => (by cases hm), fun r hr => ?_, fun _ => ?_⟩
  · cases hr
    exact Or.inr (by simp)
  · exact Or.inr (Option.some_ne_none c)

theorem readList_reads (env : Answers) (target : Nat) : ∀ (n : Nat) (l : List Byte), n ≤ target →
    Reads target n l (readList env target n l).1 (readList env target n l).2 := by
  intro n
  induction n with
  | zero =>
      intro l _
      refine ⟨rfl, inside_nil, List.not_mem_nil, le_refl _, fun m hm => (by cases hm), fun r hr => ?_, fun hr => ?_⟩
      · cases hr
        exact Or.inr (by simp [readList])
      · exact Or.inl (by injection hr with hr; omega)
  | succ n ih =>
      intro l hn
      cases l with
      | nil =>
          refine ⟨rfl, inside_nil, List.not_mem_nil, Nat.zero_le _, fun m _ => ?_, fun r hr => ?_, fun hr => ?_⟩
          · exact ⟨rfl, rfl, inside_nil, Nat.succ_pos n⟩
          · rw [readList] at hr
            split at hr
            · cases hr
              exact Or.inl rfl
            · cases hr
          · rw [readList] at hr
            split at hr
            · cases hr
            · cases hr
      | cons c l =>
          rw [readList]
          by_cases hD : c = ctrl 'D'
          · rw [if_pos hD]
            split
            · refine ⟨rfl, inside_nil, List.not_mem_nil, Nat.zero_le _, fun m hm => (by cases hm), fun r hr => ?_,
                fun hr => ?_⟩
              · cases hr
                exact Or.inr (by simp)
              · injection hr with hr
                omega
            · exact reads_lost target n c l
          rw [if_neg hD]
          split
          · exact reads_lost target n c l
          split
          · refine ⟨rfl, inside_nil, fun hx => hD (List.mem_singleton.mp hx).symm, Nat.succ_le_succ (Nat.zero_le _),
              fun m hm => (by cases hm), fun r hr => ?_, fun hr => ?_⟩
            · cases hr
              exact Or.inr (by simp)
            · injection hr with hr
              omega
          · next hnl => exact (ih l (Nat.le_of_succ_le hn)).cons hn (inside_singleton.mpr ⟨hnl, hD⟩)

/-! ### The system -/

/-- What a call that returns gives. -/
structure Result (target : Nat) (lost : Option Byte) (got : List Byte) (r : Int) : Prop where
  value : r = -1 ∨ r = got.length
  length : got.length ≤ target
  oneLine : Inside got.dropLast
  noEof : ctrl 'D' ∉ got
  zero : r = 0 → target = 0 ∨ lost ≠ none

/-- A turn that returns ends a call that had what it has taken before. -/
theorem Reads.result {target : Nat} {l l' got₀ bytes : List Byte} {lost : Option Byte} {r : Int}
    (h : Reads target (target - got₀.length) l ⟨.returns r, bytes, lost⟩ l') (hle : got₀.length ≤ target)
    (hgot : Inside got₀) : Result target lost (got₀ ++ bytes) r := by
  have hlen := h.length
  refine ⟨?_, ?_, ?_, ?_, fun hr => h.zero (by rw [hr])⟩
  · refine (h.returns r rfl).imp id fun hr => ?_
    rw [hr, List.length_append]
    push_cast [hle]
    ring
  · rw [List.length_append]
    simp only at hlen
    omega
  · cases hb : bytes with
    | nil => exact (List.append_nil got₀).symm ▸ hgot.mono fun x hx => List.mem_of_mem_dropLast hx
    | cons b bytes =>
        have hin := h.inside
        rw [List.dropLast_append_of_ne_nil (List.cons_ne_nil b bytes), ← hb]
        exact hgot.append hin
  · exact fun hD => (List.mem_append.mp hD).elim hgot.2 h.noEof

/-- The last key of the lines `segs` made the ring full. -/
def FilledRing (os : List Obs) (segs : List (List Byte)) : Prop :=
  ∃ os₀ c bytes, os₀ ++ [.echo c bytes] <+: os ∧ typed (os₀ ++ [.echo c bytes]) = segs.flatten ∧
    (segs.map editLine).flatten.length = (takes os₀).length + INPUT_BUF_SIZE

/-- The keys `seg`, after the lines `before`, are a line that has ended: at its only newline or end-of-file, or
without one when the ring was full. -/
def Ended (os : List Obs) (before : List (List Byte)) (seg : List Byte) : Prop :=
  ∃ line last, editLine seg = line ++ [last] ∧ Inside line ∧
    (last = chr '\n' ∨ last = ctrl 'D' ∨ FilledRing os (before ++ [seg]))

theorem Ended.mono {os' : List Obs} {before : List (List Byte)} {seg : List Byte} (h : Ended os before seg)
    (hos : os <+: os') : Ended os' before seg := by
  obtain ⟨line, last, hline, hin, hend⟩ := h
  refine ⟨line, last, hline, hin, hend.imp id (Or.imp id ?_)⟩
  rintro ⟨os₀, c, bytes, hpre, hfull⟩
  exact ⟨os₀, c, bytes, hpre.trans hos, hfull⟩

/-- The lines that have ended are taken or unread, in order: `segs` are their keys, and `cur` the keys of
the line that has not. -/
def Edited (os : List Obs) (t : Tty) : Prop :=
  ∃ (segs : List (List Byte)) (cur : List Byte), typed os = segs.flatten ++ cur ∧
    takes os ++ t.unread = (segs.map editLine).flatten ∧ t.line = editLine cur ∧ Inside t.line ∧
    (t.line ≠ [] → (t.unread ++ t.line).length < INPUT_BUF_SIZE) ∧
    ∀ before seg after, segs = before ++ seg :: after → Ended os before seg

theorem typed_snoc (os : List Obs) (o : Obs) : typed (os ++ [o]) = typed os ++ typed [o] := List.filterMap_append

theorem takes_snoc (os : List Obs) (o : Obs) : takes (os ++ [o]) = takes os ++ takes [o] := List.flatMap_append

/-- **A key** goes to the line, or ends it. -/
theorem Edited.key {t : Tty} (h : Edited os t) (c : Byte) :
    Edited (os ++ [.echo c (t.key c).1.1]) (t.key c).2 := by
  obtain ⟨segs, cur, hkeys, htaken, hline, hin, hroom, hsegs⟩ := h
  have htakes : takes (os ++ [.echo c (t.key c).1.1]) = takes os := by
    rw [takes_snoc]
    exact List.append_nil _
  have hsegs' : ∀ before seg after, segs = before ++ seg :: after →
      Ended (os ++ [.echo c (t.key c).1.1]) before seg := fun before seg after heq =>
    (hsegs before seg after heq).mono (List.prefix_append _ _)
  rcases t.key_cases c with ⟨hedits, -, hnext⟩ | ⟨hedits, hecho, hnext⟩ | ⟨hedits, hecho, hx, hlt, hnext⟩ |
    ⟨hedits, hecho, hend, hnext⟩
  · have htyped : typed [.echo c (t.key c).1.1] = [c] := by simp [typed, hedits]
    refine ⟨segs, cur ++ [c], ?_, ?_, ?_, ?_, fun hne => ?_, hsegs'⟩
    · rw [typed_snoc, htyped, hkeys, List.append_assoc]
    · rw [htakes, hnext, htaken]
    · rw [hnext, editLine_snoc, hline]
    · rw [hnext]
      exact hin.mono (mem_editKey hedits)
    · -- what is left of a line was there before
      rw [hnext] at hne ⊢
      have hle : (editKey t.line c).length ≤ t.line.length := length_editKey_le hedits
      have hpos := List.length_pos_of_ne_nil hne
      have := hroom (List.ne_nil_of_length_pos (hpos.trans_le hle))
      simp only [List.length_append] at this ⊢
      omega
  · have htyped : typed [.echo c (t.key c).1.1] = [] := by simp [typed, hedits, hecho]
    refine ⟨segs, cur, ?_, ?_, ?_, ?_, ?_, hsegs'⟩
    · rw [typed_snoc, htyped, List.append_nil, hkeys]
    · rw [htakes, hnext, htaken]
    · rw [hnext, hline]
    · rwa [hnext]
    · rwa [hnext]
  · have htyped : typed [.echo c (t.key c).1.1] = [c] := by simp [typed, hecho, consputc_ne_nil]
    refine ⟨segs, cur ++ [c], ?_, ?_, ?_, ?_, fun _ => ?_, hsegs'⟩
    · rw [typed_snoc, htyped, hkeys, List.append_assoc]
    · rw [htakes, hnext, htaken]
    · rw [hnext, editLine_snoc, ← hline, editKey_of_not hedits]
    · rw [hnext]
      exact hin.append hx
    · rw [hnext, length_snoc]
      exact hlt
  · have htyped : typed [.echo c (t.key c).1.1] = [c] := by simp [typed, hecho, consputc_ne_nil]
    have hended : editLine (cur ++ [c]) = t.line ++ [typedAs c] := by
      rw [editLine_snoc, ← hline, editKey_of_not hedits]
    have hkeys' : typed (os ++ [.echo c (t.key c).1.1]) = (segs ++ [cur ++ [c]]).flatten := by
      rw [typed_snoc, htyped, hkeys, List.flatten_concat, List.append_assoc]
    have hlines : ((segs ++ [cur ++ [c]]).map editLine).flatten = takes os ++ (t.unread ++ (t.line ++ [typedAs c])) := by
      rw [List.map_append, List.map_singleton, List.flatten_concat, ← htaken, hended, List.append_assoc]
    refine ⟨segs ++ [cur ++ [c]], [], ?_, ?_, ?_, ?_, fun hne => ?_, fun before seg after heq => ?_⟩
    · rw [hkeys', List.append_nil]
    · rw [htakes, hnext, hlines]
    · rw [hnext]
      rfl
    · rw [hnext]
      exact inside_nil
    · rw [hnext] at hne
      exact absurd rfl hne
    · rcases List.eq_nil_or_concat after with rfl | ⟨after, seg', rfl⟩
      · -- the line that has just ended
        obtain ⟨rfl, hseg⟩ := List.append_inj' heq rfl
        cases hseg
        refine ⟨t.line, typedAs c, hended, hin, hend.imp id (Or.imp id fun hfull => ?_)⟩
        refine ⟨os, c, _, List.prefix_refl _, hkeys', ?_⟩
        rw [hlines, List.length_append, length_snoc, hfull]
      · rw [List.concat_eq_append, ← List.cons_append, ← List.append_assoc] at heq
        exact hsegs' before seg after (List.append_inj' heq rfl).1

/-- An observation of no key; the bytes that it takes were unread. -/
theorem Edited.observe {o : Obs} {t : Tty} {unread : List Byte} (h : Edited os t) (ho : typed [o] = [])
    (hunread : t.unread = takes [o] ++ unread) : Edited (os ++ [o]) { t with unread := unread } := by
  obtain ⟨segs, cur, hkeys, htaken, hline, hin, hroom, hsegs⟩ := h
  refine ⟨segs, cur, ?_, ?_, hline, hin, fun hne => ?_, fun before seg after heq =>
    (hsegs before seg after heq).mono (List.prefix_append _ _)⟩
  · rw [typed_snoc, ho, List.append_nil, hkeys]
  · rw [takes_snoc, ← htaken, hunread, List.append_assoc]
  · have := hroom hne
    rw [hunread] at this
    simp only [List.length_append] at this ⊢
    omega

/-- The invariant of the system, with what has been observed. -/
structure Lines (os : List Obs) (s : System Tty) : Prop where
  edited : Edited os s.cons
  asleep : ∀ t call, s.calls t = some call → call.asleep = true → s.cons.unread = []
  calls : ∀ t call, s.calls t = some call → call.got.length < call.target ∧ Inside call.got
  results : ∀ t bytes lost target got r, .returns t bytes lost target got r ∈ os → Result target lost got r

theorem takes_returns (t : Nat) (bytes : List Byte) (lost : Option Byte) (target : Nat) (got : List Byte) (r : Int) :
    takes [.returns t bytes lost target got r] = bytes ++ lost.toList := List.append_nil _

theorem takes_sleeps (t : Nat) (bytes : List Byte) : takes [.sleeps t bytes] = bytes := List.append_nil _

/-- The results, when the new observation is none. -/
theorem results_snoc {o : Obs} (ho : ∀ t bytes lost target got r, o ≠ .returns t bytes lost target got r)
    (h : Lines os s) : ∀ t bytes lost target got r, Obs.returns t bytes lost target got r ∈ os ++ [o] →
      Result target lost got r := by
  intro t bytes lost target got r hmem
  rcases List.mem_append.mp hmem with hmem | hmem
  · exact h.results t bytes lost target got r hmem
  · exact absurd (List.mem_singleton.mp hmem).symm (ho t bytes lost target got r)

theorem mem_update {calls : Nat → Option Call} {t t' : Nat} {c : Option Call} {call : Call}
    (h : Function.update calls t c t' = some call) : c = some call ∨ calls t' = some call := by
  by_cases ht : t' = t
  · rw [ht, Function.update_self] at h
    exact Or.inl h
  · rw [Function.update_of_ne ht] at h
    exact Or.inr h

theorem mem_wakeup {calls : Nat → Option Call} {t : Nat} {call : Call} (h : wakeup calls t = some call) :
    ∃ call', calls t = some call' ∧ call = { call' with asleep := false } := by
  obtain ⟨call', hc, rfl⟩ := Option.map_eq_some_iff.mp h
  exact ⟨call', hc, rfl⟩

/-- A key ends the line and wakes the readers up, or leaves what is unread. -/
theorem Lines.key (h : Lines os s) (c : Byte) :
    Lines (os ++ [.echo c (s.cons.key c).1.1])
      { cons := (s.cons.key c).2, calls := if (s.cons.key c).1.2 then wakeup s.calls else s.calls } := by
  have hunread : (s.cons.key c).1.2 = true ∨ (s.cons.key c).2.unread = s.cons.unread := by
    rcases s.cons.key_cases c with ⟨-, -, hnext⟩ | ⟨-, -, hnext⟩ | ⟨-, -, -, -, hnext⟩ | ⟨-, hecho, -⟩
    · exact Or.inr (by rw [hnext])
    · exact Or.inr (by rw [hnext])
    · exact Or.inr (by rw [hnext])
    · exact Or.inl (by rw [hecho])
  refine ⟨?_, fun t call hc hsleep => ?_, fun t call hc => ?_, results_snoc (fun _ _ _ _ _ _ => by simp) h⟩
  · exact h.edited.key c
  · simp only at hc
    split at hc
    · obtain ⟨call', -, rfl⟩ := mem_wakeup hc
      cases hsleep
    · next hwakes => rw [hunread.resolve_left hwakes, h.asleep t call hc hsleep]
  · simp only at hc
    split at hc
    · obtain ⟨call', hc', rfl⟩ := mem_wakeup hc
      exact h.calls t call' hc'
    · exact h.calls t call hc

/-- **A turn of a reader** keeps the invariant. -/
theorem Lines.turn (h : Lines os s) (t : Nat) (env : Answers) (call : Call) (hle : call.got.length ≤ call.target)
    (hgot : Inside call.got) :
    Lines (os ++ [(takeTurn tty s t env call).1]) (takeTurn tty s t env call).2 := by
  have hreads := readList_reads env call.target (call.target - call.got.length) s.cons.unread (Nat.sub_le _ _)
  rw [takeTurn]
  simp only [tty, Tty.read]
  generalize readList env call.target (call.target - call.got.length) s.cons.unread = next at *
  obtain ⟨⟨turn, bytes, lost⟩, unread⟩ := next
  have hnil : s.cons.unread = [] → unread = [] := fun hempty => by
    have hsplit := hreads.split
    rw [hempty] at hsplit
    exact (List.append_eq_nil_iff.mp hsplit.symm).2
  have hsplit := hreads.split
  dsimp only at hsplit
  cases turn with
  | returns r =>
      refine ⟨?_, fun t' call' hc hsleep => ?_, fun t' call' hc => ?_, fun t' b l target got r' hmem => ?_⟩
      · exact h.edited.observe rfl (by rw [takes_returns, hsplit])
      · rcases mem_update hc with hc | hc
        · cases hc
        · exact hnil (h.asleep t' call' hc hsleep)
      · rcases mem_update hc with hc | hc
        · cases hc
        · exact h.calls t' call' hc
      · rcases List.mem_append.mp hmem with hmem | hmem
        · exact h.results t' b l target got r' hmem
        · cases List.mem_singleton.mp hmem
          exact hreads.result hle hgot
  | sleeps m =>
      obtain ⟨hlost, hempty, hin, hlt⟩ := hreads.sleeps m rfl
      dsimp only at hlost hempty hin hlt
      refine ⟨?_, fun t' call' hc hsleep => hempty, fun t' call' hc => ?_,
        results_snoc (fun _ _ _ _ _ _ => by simp) h⟩
      · refine h.edited.observe rfl ?_
        rw [takes_sleeps, hsplit, hlost, Option.toList_none, List.append_nil]
      · rcases mem_update hc with hc | hc
        · cases hc
          refine ⟨?_, hgot.append hin⟩
          simp only [List.length_append]
          omega
        · exact h.calls t' call' hc

theorem step_lines (os : List Obs) (a : Act) (s : System Tty) (o : Obs) (s' : System Tty) (h : Lines os s)
    (hs : step tty a s = .ok (o, s')) : Lines (os ++ [o]) s' := by
  cases a with
  | key c =>
      cases hs
      exact h.key c
  | read t n env =>
      rw [step] at hs
      split at hs
      · injection hs with hs
        have := h.turn t env ⟨n.toNat, [], false⟩ (Nat.zero_le _) inside_nil
        rwa [hs] at this
      · cases hs
  | resume t env =>
      rw [step] at hs
      split at hs
      · next call hcall =>
          split at hs
          · cases hs
          · injection hs with hs
            obtain ⟨hlt, hin⟩ := h.calls t call hcall
            have := h.turn t env call hlt.le hin
            rwa [hs] at this
      · cases hs
  | kill t =>
      cases hs
      refine ⟨?_, fun t' call hc hsleep => ?_, fun t' call hc => ?_, results_snoc (fun _ _ _ _ _ _ => by simp) h⟩
      · exact h.edited.observe rfl rfl
      · rcases mem_update hc with hc | hc
        · obtain ⟨call', -, rfl⟩ := Option.map_eq_some_iff.mp hc
          cases hsleep
        · exact h.asleep t' call hc hsleep
      · rcases mem_update hc with hc | hc
        · obtain ⟨call', hc', rfl⟩ := Option.map_eq_some_iff.mp hc
          exact h.calls t call' hc'
        · exact h.calls t' call hc

theorem lines_idle : Lines [] idle :=
  ⟨⟨[], [], rfl, rfl, rfl, inside_nil, fun hne => absurd rfl hne, fun before seg after heq =>
      absurd heq.symm (List.append_ne_nil_of_right_ne_nil before (List.cons_ne_nil seg after))⟩,
    fun _ _ hc => (by cases hc), fun _ _ hc => (by cases hc), fun _ _ _ _ _ _ hmem => absurd hmem List.not_mem_nil⟩

/-! ### The console -/

/-- The bytes of the ring between two counters. -/
def between (s : Cons) (lo hi : BitVec 32) : List Byte :=
  (List.range (hi - lo).toNat).map fun k => s.buf (cell (lo + BitVec.ofNat 32 k).toNat)

/-- The bytes of the ring after `ys` of the stream. -/
theorem between_eq {c : Cons} {d : Nat} (ys zs ws : List Byte) (h : Holds c.buf d (ys ++ zs ++ ws))
    (hd : d ≤ ys.length) :
    between c (BitVec.ofNat 32 ys.length) (BitVec.ofNat 32 (ys ++ zs).length) = zs := by
  have hroom := h.room
  simp only [List.length_append, INPUT_BUF_SIZE] at hroom
  have hlen : (BitVec.ofNat 32 (ys ++ zs).length - BitVec.ofNat 32 ys.length).toNat = zs.length := by
    rw [BitVec.toNat_sub, BitVec.toNat_ofNat, BitVec.toNat_ofNat, List.length_append]
    omega
  rw [between, hlen]
  refine List.ext_getElem (by simp) fun k hk hk' => ?_
  have hlt : ys.length + k < (ys ++ zs ++ ws).length := by
    rw [List.length_append, List.length_append]
    omega
  rw [List.getElem_map, List.getElem_range, ← BitVec.ofNat_add, cell_ofNat, h.cells (ys.length + k) hlt (by omega),
    List.getElem_append_left (by rw [List.length_append]; omega), List.getElem_append_right (by omega)]
  simp

theorem Follows.between_unread {c : Cons} {taken : List Byte} {t : Tty} (h : Follows taken c t) :
    between c c.r c.w = t.unread := by
  rw [h.r, h.w]
  exact between_eq taken t.unread t.line h.holds (le_refl _)

theorem Follows.between_line {c : Cons} {taken : List Byte} {t : Tty} (h : Follows taken c t) :
    between c c.w c.e = t.line := by
  have hholds := h.holds
  rw [← List.append_nil (taken ++ t.unread ++ t.line)] at hholds
  rw [h.w, h.e]
  refine between_eq (taken ++ t.unread) t.line [] hholds ?_
  rw [List.length_append]
  exact Nat.le_add_right _ _

/-- **The console shares out the lines that are typed.**  In every run, whatever the order of the keys and
of the readers' turns: what the readers have taken, in order, and what is unread in the ring are the
lines that have ended, each as its keys have edited it; the rest of the ring is the line that is typed.  A
line ends at a newline, at an end-of-file, or when the ring is full, and at nothing else.
A reader gets at most as much as it asked for and at most one line, and no end-of-file; and no reader
sleeps while there is something to read. -/
theorem console_lines (acts : List Act) (os : List Obs) (s : System Cons)
    (h : run (step console) acts boot = .ok (os, s)) :
    (∃ (segs : List (List Byte)) (cur : List Byte), typed os = segs.flatten ++ cur ∧
      takes os ++ between s.cons s.cons.r s.cons.w = (segs.map editLine).flatten ∧
      between s.cons s.cons.w s.cons.e = editLine cur ∧ Inside (editLine cur) ∧
      (editLine cur ≠ [] → (s.cons.e - s.cons.r).toNat < INPUT_BUF_SIZE) ∧
      ∀ before seg after, segs = before ++ seg :: after → Ended os before seg) ∧
    (∀ t bytes lost target got r, .returns t bytes lost target got r ∈ os → Result target lost got r) ∧
    ∀ t call, s.calls t = some call → call.asleep = true → s.cons.r = s.cons.w := by
  have hagree := run_agree step_agree acts boot idle same_boot
  rw [h] at hagree
  obtain ⟨s', hrun, ⟨taken, hfollows⟩, hcalls⟩ := hagree.ok
  have hlines := run_history step_lines acts [] os idle s' lines_idle hrun
  rw [List.nil_append] at hlines
  obtain ⟨segs, cur, htyped, htakes, hline, hin, hroom, hsegs⟩ := hlines.edited
  refine ⟨⟨segs, cur, htyped, ?_, ?_, hline ▸ hin, fun hne => ?_, hsegs⟩, hlines.results, fun t call hc hsleep => ?_⟩
  · rw [hfollows.between_unread, htakes]
  · rw [hfollows.between_line, hline]
  · rw [hfollows.sub]
    exact hroom (hline ▸ hne)
  · rw [hcalls] at hc
    exact hfollows.unread_nil.mpr (hlines.asleep t call hc hsleep)

def someActs : List Act :=
  [.read 0 5 ⟨false, fun _ => true⟩, .key (chr 'a'), .key (chr '\x7f'), .key (chr 'b'), .key (chr '\r'),
    .resume 0 ⟨false, fun _ => true⟩]

def someObs : List Obs :=
  [.sleeps 0 [], .echo (chr 'a') [chr 'a'], .echo (chr '\x7f') [chr '\x08', chr ' ', chr '\x08'],
    .echo (chr 'b') [chr 'b'], .echo (chr '\r') [chr '\n'],
    .returns 0 [chr 'b', chr '\n'] none 5 [chr 'b', chr '\n'] 2]

theorem console_lines_small : ∃ s, run (step console) someActs boot = .ok (someObs, s) ∧
    ∃ (segs : List (List Byte)) (cur : List Byte), typed someObs = segs.flatten ++ cur ∧
      takes someObs ++ between s.cons s.cons.r s.cons.w = (segs.map editLine).flatten ∧
      Inside (editLine cur) ∧ ∀ before seg after, segs = before ++ seg :: after → Ended someObs before seg := by
  obtain ⟨s, h⟩ := eq_ok_of_result (b := someObs)
    (show (run (step console) someActs boot).toOption.map Prod.fst = some someObs by decide +kernel)
  obtain ⟨segs, cur, htyped, htakes, -, hin, -, hsegs⟩ := (console_lines someActs someObs s h).1
  exact ⟨s, h, segs, cur, htyped, htakes, hin, hsegs⟩

end Xv6.Console
