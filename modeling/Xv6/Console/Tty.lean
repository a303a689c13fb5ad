import Xv6.Console.Defs

/-!
# Console — Tty

What the console is for: the characters of a line wait in `line`, where they can be erased, and go to
`unread` when the line ends, where readers take them.

* `Tty`: this as two lists, which `consoleintr` and `consoleread` are to follow.
* `Follows`: the ring holds the two lists, between its wrapping counters.
* `console_refines`: in every run the console answers as the lists do.
-/

namespace Xv6.Console
open Xv6.Lib
open Xv6.Lib.Ring (cell Holds cell_wrap)

structure Tty where
  unread : List Byte
  line : List Byte

/-- The characters that edit the line, and are not put in it. -/
def edits (c : Byte) : Bool := decide (c = ctrl 'P' ∨ c = ctrl 'U' ∨ c = ctrl 'H' ∨ c = chr '\x7f')

def Tty.key (c : Byte) (t : Tty) : (List Byte × Bool) × Tty :=
  if c = ctrl 'P' then (([], false), t)
  else if c = ctrl 'U' then
    (((List.replicate t.line.length (consputc BACKSPACE)).flatten, false), { t with line := [] })
  else if c = ctrl 'H' ∨ c = chr '\x7f' then
    ((if t.line = [] then [] else consputc BACKSPACE, false), { t with line := t.line.dropLast })
  else if c ≠ 0 ∧ (t.unread ++ t.line).length < INPUT_BUF_SIZE then
    if typedAs c = chr '\n' ∨ typedAs c = ctrl 'D' ∨ (t.unread ++ t.line).length + 1 = INPUT_BUF_SIZE then
      ((consputc (typedAs c).toNat, true), ⟨t.unread ++ (t.line ++ [typedAs c]), []⟩)
    else ((consputc (typedAs c).toNat, false), { t with line := t.line ++ [typedAs c] })
  else (([], false), t)

/-- Reading `n` of the `target` bytes. -/
def readList (env : Answers) (target : Nat) : Nat → List Byte → Got × List Byte
  | 0, l => (⟨.returns target, [], none⟩, l)
  | n + 1, [] => (⟨if env.killed then .returns (-1) else .sleeps (n + 1), [], none⟩, [])
  | n + 1, c :: l =>
    let done : Int := target - (n + 1)
    if c = ctrl 'D' then
      if n + 1 < target then (⟨.returns done, [], none⟩, c :: l) else (⟨.returns done, [], some c⟩, l)
    else if !env.copyout (target - (n + 1)) then (⟨.returns done, [], some c⟩, l)
    else if c = chr '\n' then (⟨.returns (done + 1), [c], none⟩, l)
    else
      let next := readList env target n l
      ({ next.1 with bytes := c :: next.1.bytes }, next.2)

def Tty.read (env : Answers) (target n : Nat) (t : Tty) : Got × Tty :=
  ((readList env target n t.unread).1, { t with unread := (readList env target n t.unread).2 })

def tty : Machine Tty := ⟨Tty.key, Tty.read⟩

/-- Nothing is typed and nobody reads. -/
def idle : System Tty := ⟨⟨[], []⟩, fun _ => none⟩

/-! ### The ring -/

/-- The ring holds the two lists, after the bytes that have been taken. -/
structure Follows (taken : List Byte) (s : Cons) (t : Tty) : Prop where
  holds : Holds s.buf taken.length (taken ++ t.unread ++ t.line)
  r : s.r = BitVec.ofNat 32 taken.length
  w : s.w = BitVec.ofNat 32 (taken ++ t.unread).length
  e : s.e = BitVec.ofNat 32 (taken ++ t.unread ++ t.line).length
  noNewline : chr '\n' ∉ t.line

variable {s s' : Cons} {t t' : Tty} {taken unread line : List Byte} {x c : Byte}

theorem cell_ofNat (k : Nat) : (cell (BitVec.ofNat 32 k).toNat : Fin INPUT_BUF_SIZE) = cell k :=
  cell_wrap (by decide) k

theorem Follows.room (h : Follows taken s t) : (t.unread ++ t.line).length ≤ INPUT_BUF_SIZE := by
  have hroom := h.holds.room
  rw [List.append_assoc, List.length_append] at hroom
  exact Nat.le_of_add_le_add_left hroom

/-- `e-r` -/
theorem Follows.sub (h : Follows taken s t) : (s.e - s.r).toNat = (t.unread ++ t.line).length := by
  have hroom := h.room
  rw [h.e, h.r, List.append_assoc, List.length_append, BitVec.toNat_sub, BitVec.toNat_ofNat, BitVec.toNat_ofNat]
  simp only [INPUT_BUF_SIZE] at hroom
  omega

theorem Follows.line_length (h : Follows taken s t) : (s.e - s.w).toNat = t.line.length := by
  have hroom := h.room
  rw [h.e, h.w, List.length_append, BitVec.toNat_sub, BitVec.toNat_ofNat, BitVec.toNat_ofNat]
  simp only [INPUT_BUF_SIZE, List.length_append] at hroom
  omega

theorem Follows.line_nil (h : Follows taken s t) : s.e = s.w ↔ t.line = [] := by
  have hroom := h.room
  rw [h.e, h.w, ← List.length_eq_zero_iff, ← BitVec.toNat_inj, BitVec.toNat_ofNat, BitVec.toNat_ofNat]
  simp only [INPUT_BUF_SIZE, List.length_append] at hroom ⊢
  omega

theorem Follows.unread_nil (h : Follows taken s t) : s.r = s.w ↔ t.unread = [] := by
  have hroom := h.room
  rw [h.r, h.w, ← List.length_eq_zero_iff, ← BitVec.toNat_inj, BitVec.toNat_ofNat, BitVec.toNat_ofNat]
  simp only [INPUT_BUF_SIZE, List.length_append] at hroom ⊢
  omega

/-- The last character of the line, and the line without it. -/
theorem Follows.back (h : Follows taken s ⟨unread, line ++ [x]⟩) :
    s.buf (cell (s.e - 1).toNat) = x ∧ Follows taken { s with e := s.e - 1 } ⟨unread, line⟩ := by
  have hsub : s.e - 1 = BitVec.ofNat 32 (taken ++ unread ++ line).length := by
    rw [h.e, ← List.append_assoc, List.length_append, List.length_singleton, BitVec.ofNat_add]
    exact BitVec.add_sub_cancel _ _
  have hle : taken.length ≤ (taken ++ unread ++ line).length := by
    rw [List.append_assoc, List.length_append]
    exact Nat.le_add_right _ _
  have hholds := h.holds
  rw [← List.append_assoc] at hholds
  refine ⟨?_, hholds.erase hle, h.r, h.w, hsub, fun hnl => h.noNewline (List.mem_append_left _ hnl)⟩
  rw [hsub, cell_ofNat, hholds.back hle]

/-- **`C('U')`** erases the line, and nothing before it. -/
theorem killLoop_follows (s : Cons) (h : Follows taken s ⟨unread, line⟩) :
    (killLoop line.length s).1 = (List.replicate line.length (consputc BACKSPACE)).flatten ∧
    Follows taken (killLoop line.length s).2 ⟨unread, []⟩ := by
  induction line using List.reverseRecOn generalizing s with
  | nil => exact ⟨rfl, h⟩
  | append_singleton line x ih =>
      obtain ⟨hx, hnext⟩ := h.back
      obtain ⟨hecho, hend⟩ := ih _ hnext
      have hne : s.e ≠ s.w := by
        rw [Ne, h.line_nil]
        exact List.append_ne_nil_of_right_ne_nil _ (List.cons_ne_nil _ _)
      have hnl : s.buf (cell (s.e - 1).toNat) ≠ chr '\n' := by
        rw [hx]
        rintro rfl
        exact h.noNewline (List.mem_append_right _ (List.mem_singleton_self _))
      rw [List.length_append, List.length_singleton, killLoop, if_pos ⟨hne, hnl⟩, List.replicate_succ,
        List.flatten_cons]
      exact ⟨congrArg (consputc BACKSPACE ++ ·) hecho, hend⟩

theorem length_snoc (l line : List Byte) (x : Byte) : (l ++ (line ++ [x])).length = (l ++ line).length + 1 := by
  rw [← List.append_assoc]
  exact List.length_append

/-- A character is put at the end of the line. -/
theorem Follows.push (h : Follows taken s t) (hroom : (t.unread ++ t.line).length < INPUT_BUF_SIZE)
    (hx : x ≠ chr '\n') :
    Follows taken { s with buf := Function.update s.buf (cell s.e.toNat) x, e := s.e + 1 }
      { t with line := t.line ++ [x] } := by
  refine ⟨?_, h.r, h.w, ?_, ?_⟩
  · show Holds (Function.update s.buf (cell s.e.toNat) x) _ (taken ++ t.unread ++ (t.line ++ [x]))
    rw [h.e, cell_ofNat, ← List.append_assoc]
    refine h.holds.push ?_ x
    rw [List.append_assoc, List.length_append]
    omega
  · show s.e + 1 = _
    rw [h.e, length_snoc, BitVec.ofNat_add]
    rfl
  · intro hnl
    rcases List.mem_append.mp hnl with hnl | hnl
    · exact h.noNewline hnl
    · exact hx (List.mem_singleton.mp hnl).symm

/-- A character is put at the end of the line, and ends it. -/
theorem Follows.commit (h : Follows taken s t) (hroom : (t.unread ++ t.line).length < INPUT_BUF_SIZE) (x : Byte) :
    Follows taken { s with buf := Function.update s.buf (cell s.e.toNat) x, e := s.e + 1, w := s.e + 1 }
      ⟨t.unread ++ (t.line ++ [x]), []⟩ := by
  have hadd : s.e + 1 = BitVec.ofNat 32 (taken ++ (t.unread ++ (t.line ++ [x]))).length := by
    rw [h.e, ← List.append_assoc, length_snoc, BitVec.ofNat_add]
    rfl
  refine ⟨?_, h.r, hadd, ?_, List.not_mem_nil⟩
  · show Holds (Function.update s.buf (cell s.e.toNat) x) _ (taken ++ (t.unread ++ (t.line ++ [x])) ++ [])
    rw [h.e, cell_ofNat, List.append_nil, ← List.append_assoc, ← List.append_assoc]
    refine h.holds.push ?_ x
    rw [List.append_assoc, List.length_append]
    omega
  · show s.e + 1 = _
    rw [hadd, List.append_nil]

/-- **`consoleintr`** does what the lists do. -/
theorem consoleintr_follows (h : Follows taken s t) (c : Byte) :
    (consoleintr c s).1 = (t.key c).1 ∧ Follows taken (consoleintr c s).2 (t.key c).2 := by
  rw [consoleintr, Tty.key]
  by_cases hP : c = ctrl 'P'
  · rw [if_pos hP, if_pos hP]
    exact ⟨rfl, h⟩
  rw [if_neg hP, if_neg hP]
  by_cases hU : c = ctrl 'U'
  · rw [if_pos hU, if_pos hU]
    obtain ⟨hecho, hend⟩ := killLoop_follows s h
    simp only [h.line_length]
    exact ⟨by rw [hecho], hend⟩
  rw [if_neg hU, if_neg hU]
  by_cases hH : c = ctrl 'H' ∨ c = chr '\x7f'
  · rw [if_pos hH, if_pos hH]
    by_cases hline : t.line = []
    · rw [if_neg (not_not.mpr (h.line_nil.mpr hline)), if_pos hline]
      refine ⟨rfl, ?_⟩
      simp only [hline, List.dropLast_nil]
      obtain ⟨unread, line⟩ := t
      cases hline
      exact h
    · rw [if_pos (mt h.line_nil.mp hline), if_neg hline]
      refine ⟨rfl, ?_⟩
      obtain ⟨unread, line⟩ := t
      refine (Follows.back (x := line.getLast hline) ?_).2
      rwa [List.dropLast_concat_getLast hline]
  rw [if_neg hH, if_neg hH, h.sub]
  by_cases hroom : c ≠ 0 ∧ (t.unread ++ t.line).length < INPUT_BUF_SIZE
  · rw [if_pos hroom, if_pos hroom]
    have hcommit := fun x => h.commit hroom.2 x
    have hfull : (s.e + 1 - s.r).toNat = (t.unread ++ t.line).length + 1 := by
      refine (hcommit c).sub.trans ?_
      rw [List.append_nil, length_snoc]
    simp only [hfull]
    by_cases hend : typedAs c = chr '\n' ∨ typedAs c = ctrl 'D' ∨
        (t.unread ++ t.line).length + 1 = INPUT_BUF_SIZE
    · rw [if_pos hend, if_pos hend]
      exact ⟨rfl, hcommit (typedAs c)⟩
    · rw [if_neg hend, if_neg hend]
      exact ⟨rfl, h.push hroom.2 fun hx => hend (Or.inl hx)⟩
  · rw [if_neg hroom, if_neg hroom]
    exact ⟨rfl, h⟩

/-- A byte is taken. -/
theorem Follows.pop (h : Follows taken s ⟨c :: unread, line⟩) :
    s.buf (cell s.r.toNat) = c ∧ Follows (taken ++ [c]) { s with r := s.r + 1 } ⟨unread, line⟩ := by
  have happ : taken ++ c :: unread = taken ++ [c] ++ unread := (List.append_assoc taken [c] unread).symm
  have hlt : taken.length < (taken ++ c :: unread ++ line).length := by
    simp only [List.length_append, List.length_cons]
    omega
  have hlen : (taken ++ [c]).length = taken.length + 1 := List.length_append
  refine ⟨?_, ?_, ?_, ?_, ?_, h.noNewline⟩
  · rw [h.r, cell_ofNat, h.holds.front hlt]
    simp
  · have hpop := h.holds.pop hlt
    rwa [happ, ← hlen] at hpop
  · show s.r + 1 = _
    rw [h.r, hlen, BitVec.ofNat_add]
    rfl
  · rw [h.w, happ]
  · rw [h.e, happ]

/-- **The loop of `consoleread`** does what the list does. -/
theorem consolereadLoop_follows (env : Answers) (target : Nat) : ∀ (n : Nat) (taken : List Byte) (s : Cons)
    (unread : List Byte), Follows taken s ⟨unread, line⟩ →
    (consolereadLoop env target n s).1 = (readList env target n unread).1 ∧
    ∃ taken', Follows taken' (consolereadLoop env target n s).2 ⟨(readList env target n unread).2, line⟩ := by
  intro n
  induction n with
  | zero => exact fun taken s unread h => ⟨rfl, taken, h⟩
  | succ n ih =>
      intro taken s unread h
      cases unread with
      | nil =>
          rw [consolereadLoop, if_pos (h.unread_nil.mpr rfl)]
          exact ⟨rfl, taken, h⟩
      | cons c unread =>
          obtain ⟨hc, hpop⟩ := h.pop
          rw [consolereadLoop, if_neg (mt h.unread_nil.mp (List.cons_ne_nil _ _)), readList]
          simp only [hc]
          by_cases hD : c = ctrl 'D'
          · rw [if_pos hD, if_pos hD]
            by_cases hn : n + 1 < target
            · rw [if_pos hn, if_pos hn]
              refine ⟨rfl, taken, ?_⟩
              rw [BitVec.add_sub_cancel]
              exact h
            · rw [if_neg hn, if_neg hn]
              exact ⟨rfl, _, hpop⟩
          rw [if_neg hD, if_neg hD]
          by_cases hcopy : (!env.copyout (target - (n + 1))) = true
          · rw [if_pos hcopy, if_pos hcopy]
            exact ⟨rfl, _, hpop⟩
          rw [if_neg hcopy, if_neg hcopy]
          by_cases hnl : c = chr '\n'
          · rw [if_pos hnl, if_pos hnl]
            exact ⟨rfl, _, hpop⟩
          rw [if_neg hnl, if_neg hnl]
          obtain ⟨hgot, taken', hend⟩ := ih _ _ unread hpop
          exact ⟨by rw [hgot], taken', hend⟩

/-! ### The system -/

/-- The console of the source and the lists, with the same callers. -/
def Same (s : System Cons) (t : System Tty) : Prop := (∃ taken, Follows taken s.cons t.cons) ∧ s.calls = t.calls

theorem takeTurn_agree {s : System Cons} {t : System Tty} (h : Same s t) (i : Nat) (env : Answers) (call : Call) :
    (takeTurn console s i env call).1 = (takeTurn tty t i env call).1 ∧
    Same (takeTurn console s i env call).2 (takeTurn tty t i env call).2 := by
  obtain ⟨⟨taken, hfollows⟩, hcalls⟩ := h
  obtain ⟨hgot, taken', hend⟩ := consolereadLoop_follows env call.target
    (call.target - call.got.length) taken s.cons t.cons.unread hfollows
  have hread : (console.read env call.target (call.target - call.got.length) s.cons).1 =
      (tty.read env call.target (call.target - call.got.length) t.cons).1 := hgot
  rw [takeTurn, takeTurn, hread, hcalls]
  cases (tty.read env call.target (call.target - call.got.length) t.cons).1.turn with
  | returns r => exact ⟨rfl, ⟨taken', hend⟩, rfl⟩
  | sleeps n => exact ⟨rfl, ⟨taken', hend⟩, rfl⟩

theorem step_agree (a : Act) (s : System Cons) (t : System Tty) (h : Same s t) :
    Agree Same (step console a s) (step tty a t) := by
  have hcalls := h.2
  cases a with
  | key c =>
      obtain ⟨taken, hfollows⟩ := h.1
      obtain ⟨hecho, hend⟩ := consoleintr_follows hfollows c
      have hintr : (console.intr c s.cons).1 = (tty.intr c t.cons).1 := hecho
      refine ⟨?_, ⟨taken, hend⟩, ?_⟩
      · rw [hintr]
      · show (if (console.intr c s.cons).1.2 then wakeup s.calls else s.calls) = _
        rw [hintr, hcalls]
  | read i n env =>
      rw [step, step, hcalls]
      split
      · exact takeTurn_agree h i env _
      · rfl
  | resume i env =>
      rw [step, step, hcalls]
      split
      · split
        · rfl
        · exact takeTurn_agree h i env _
      · rfl
  | kill i => exact ⟨rfl, h.1, by rw [hcalls]⟩

theorem same_boot : Same boot idle := ⟨⟨[], Holds.nil _, rfl, rfl, rfl, List.not_mem_nil⟩, rfl⟩

/-- **In every run the console answers as the lists do**: what is echoed, what each reader gets and
loses, and how its turns end. -/
theorem console_refines (acts : List Act) :
    (run (step console) acts boot).map Prod.fst = (run (step tty) acts idle).map Prod.fst :=
  (run_agree step_agree acts boot idle same_boot).map_fst

end Xv6.Console
