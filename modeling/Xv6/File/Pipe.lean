import Xv6.Lib.Ring
import Xv6.Lib.Run

/-!
# File — Pipe

`pipewrite` and `piperead` on one pipe, by any number of callers.

A call holds the pipe's lock from the moment it gets it to the moment it sleeps or returns.  This
is a turn: `pipewriteTurn` and `pipereadTurn` run one, and say whether the call sleeps or returns.
What the rest of the kernel answers during a turn (`killed`, `copyin`, `copyout`) is up to the
environment, byte by byte.  `accepted` and `delivered` record the bytes that have gone in and come
out.

* `Stream`: the invariant.  The ring holds what has been accepted and not delivered, and the two
  32-bit counters are the two lengths, wrapped.
* `pipe_fifo`: in every run the pipe is a FIFO.
-/

namespace Xv6.File
open Xv6.Lib
open Xv6.Lib.Ring (cell Holds)

abbrev PIPESIZE : Nat := 512

structure Pipe where
  data : Fin PIPESIZE → UInt8
  nread : BitVec 32
  nwrite : BitVec 32
  readopen : Bool
  writeopen : Bool

/-- What `pipealloc` makes of a page with these bytes. -/
def newPipe (data : Fin PIPESIZE → UInt8) : Pipe :=
  { data := data, nread := 0, nwrite := 0, readopen := true, writeopen := true }

/-! ### The calls -/

/-- The answers a call gets when it is at byte `i`: `killed(pr)`, `copyin(.., addr + i, 1)` with
`none` for -1, and whether `copyout(.., addr + i, .., 1)` succeeds. -/
structure Answers where
  killed : Nat → Bool
  copyin : Nat → Option UInt8
  copyout : Nat → Bool

/-- How a turn ends. -/
inductive Turn where
  | returns (r : Int)
  | sleeps (i : Nat)
  deriving DecidableEq

/-- The loop of `pipewrite`, with the number of bytes left.  The list is what it stores. -/
def pipewriteLoop (env : Answers) : Nat → Nat → Pipe → Turn × List UInt8 × Pipe
  | 0, i, pi => (.returns i, [], pi)
  | left + 1, i, pi =>
    if !pi.readopen || env.killed i then (.returns (-1), [], pi)
    else if pi.nwrite = pi.nread + BitVec.ofNat 32 PIPESIZE then (.sleeps i, [], pi)
    else
      match env.copyin i with
      | none => (.returns i, [], pi)
      | some ch =>
        let pi := { pi with
          data := Function.update pi.data (cell pi.nwrite.toNat) ch
          nwrite := pi.nwrite + 1 }
        let (turn, bytes, pi) := pipewriteLoop env left (i + 1) pi
        (turn, ch :: bytes, pi)

/-- A turn of `pipewrite(pi, _, n)` that has stored `i` bytes before. -/
def pipewriteTurn (env : Answers) (n : Int) (i : Nat) (pi : Pipe) : Turn × List UInt8 × Pipe :=
  pipewriteLoop env (n - i).toNat i pi

/-- The copying loop of `piperead`.  The list is what it delivers. -/
def pipereadLoop (env : Answers) : Nat → Nat → Pipe → Int × List UInt8 × Pipe
  | 0, i, pi => (i, [], pi)
  | left + 1, i, pi =>
    if pi.nread = pi.nwrite then (i, [], pi)
    else
      let ch := pi.data (cell pi.nread.toNat)
      if !env.copyout i then (if i = 0 then -1 else i, [], pi)
      else
        let (r, bytes, pi) := pipereadLoop env left (i + 1) { pi with nread := pi.nread + 1 }
        (r, ch :: bytes, pi)

/-- A turn of `piperead(pi, _, n)`. -/
def pipereadTurn (env : Answers) (n : Int) (pi : Pipe) : Turn × List UInt8 × Pipe :=
  if pi.nread = pi.nwrite ∧ pi.writeopen = true then
    if env.killed 0 then (.returns (-1), [], pi) else (.sleeps 0, [], pi)
  else
    let (r, bytes, pi) := pipereadLoop env n.toNat 0 pi
    (.returns r, bytes, pi)

/-- The flags that `pipeclose` clears. -/
def pipeclose (pi : Pipe) (writable : Bool) : Pipe :=
  if writable then { pi with writeopen := false } else { pi with readopen := false }

/-! ### Any number of callers -/

/-- A call that sleeps. -/
inductive Call where
  | write (n : Int) (i : Nat)
  | read (n : Int)
  deriving DecidableEq

structure PipeSystem where
  pipe : Pipe
  /-- the calls that sleep -/
  calls : Nat → Option Call
  accepted : List UInt8
  delivered : List UInt8

def newSystem (data : Fin PIPESIZE → UInt8) : PipeSystem :=
  { pipe := newPipe data, calls := fun _ => none, accepted := [], delivered := [] }

/-- A turn of call `c`, made by `t`, with the call's result if it returns. -/
def takeTurn (s : PipeSystem) (t : Nat) (env : Answers) : Call → Option Int × PipeSystem
  | .write n i =>
    match pipewriteTurn env n i s.pipe with
    | (.returns r, bytes, pi) =>
      (some r, { s with
        pipe := pi, calls := Function.update s.calls t none, accepted := s.accepted ++ bytes })
    | (.sleeps j, bytes, pi) =>
      (none, { s with
        pipe := pi, calls := Function.update s.calls t (some (.write n j)),
        accepted := s.accepted ++ bytes })
  | .read n =>
    match pipereadTurn env n s.pipe with
    | (.returns r, bytes, pi) =>
      (some r, { s with
        pipe := pi, calls := Function.update s.calls t none, delivered := s.delivered ++ bytes })
    | (.sleeps _, bytes, pi) =>
      (none, { s with
        pipe := pi, calls := Function.update s.calls t (some (.read n)),
        delivered := s.delivered ++ bytes })

inductive PipeAct where
  /-- `t` calls `pipewrite` for `n` bytes -/
  | write (t : Nat) (n : Int) (env : Answers)
  | read (t : Nat) (n : Int) (env : Answers)
  /-- `t` has been woken up and has the lock again -/
  | wake (t : Nat) (env : Answers)
  | close (writable : Bool)

/-- The call whose turn it is. -/
def PipeAct.call (s : PipeSystem) : PipeAct → Option Call
  | .write _ n _ => some (.write n 0)
  | .read _ n _ => some (.read n)
  | .wake t _ => s.calls t
  | .close _ => none

def pipeStep : PipeAct → PipeSystem → Except String (Option Int × PipeSystem)
  | .write t n env, s =>
    if s.calls t = none then .ok (takeTurn s t env (.write n 0)) else .error "in a call"
  | .read t n env, s =>
    if s.calls t = none then .ok (takeTurn s t env (.read n)) else .error "in a call"
  | .wake t env, s =>
    match s.calls t with
    | none => .error "not in a call"
    | some c => .ok (takeTurn s t env c)
  | .close writable, s => .ok (none, { s with pipe := pipeclose s.pipe writable })

/-! ### The invariant -/

/-- The bytes in the ring, oldest first. -/
def pending (pi : Pipe) : List UInt8 :=
  (List.range (pi.nwrite - pi.nread).toNat).map fun k => pi.data (cell (pi.nread.toNat + k))

/-- The ring holds the bytes of the stream `xs` from `d` on. -/
structure Stream (pi : Pipe) (d : Nat) (xs : List UInt8) : Prop where
  holds : Holds pi.data d xs
  nread : pi.nread = BitVec.ofNat 32 d
  nwrite : pi.nwrite = BitVec.ofNat 32 xs.length

variable {pi pi' : Pipe} {d : Nat} {xs bytes : List UInt8} {s s' : PipeSystem} {env : Answers}

/-- The counters wrap at a multiple of `PIPESIZE`. -/
theorem cell_ofNat (k : Nat) : (cell (BitVec.ofNat 32 k).toNat : Fin PIPESIZE) = cell k := by
  apply Fin.ext
  show (BitVec.ofNat 32 k).toNat % PIPESIZE = k % PIPESIZE
  rw [BitVec.toNat_ofNat]
  simp only [PIPESIZE]
  omega

/-- The difference of the counters is the number of bytes in the ring. -/
theorem Stream.sub (h : Stream pi d xs) : (pi.nwrite - pi.nread).toNat = xs.length - d := by
  have hle := h.holds.le
  have hroom := h.holds.room
  rw [h.nread, h.nwrite]
  simp only [BitVec.toNat_sub, BitVec.toNat_ofNat, PIPESIZE] at *
  omega

theorem Stream.empty_iff (h : Stream pi d xs) : pi.nread = pi.nwrite ↔ d = xs.length := by
  have hle := h.holds.le
  have hroom := h.holds.room
  rw [h.nread, h.nwrite, ← BitVec.toNat_inj]
  simp only [BitVec.toNat_ofNat, PIPESIZE] at *
  omega

theorem Stream.full_iff (h : Stream pi d xs) :
    pi.nwrite = pi.nread + BitVec.ofNat 32 PIPESIZE ↔ xs.length = d + PIPESIZE := by
  have hle := h.holds.le
  have hroom := h.holds.room
  rw [h.nread, h.nwrite, ← BitVec.toNat_inj]
  simp only [BitVec.toNat_add, BitVec.toNat_ofNat, PIPESIZE] at *
  omega

theorem stream_new (data : Fin PIPESIZE → UInt8) : Stream (newPipe data) 0 [] :=
  ⟨Holds.nil data, rfl, rfl⟩

theorem Stream.close (h : Stream pi d xs) (writable : Bool) : Stream (pipeclose pi writable) d xs := by
  cases writable with
  | false => exact ⟨h.holds, h.nread, h.nwrite⟩
  | true => exact ⟨h.holds, h.nread, h.nwrite⟩

/-- One byte is stored. -/
theorem Stream.store (h : Stream pi d xs) (hfull : xs.length ≠ d + PIPESIZE) (ch : UInt8) :
    Stream { pi with
      data := Function.update pi.data (cell pi.nwrite.toNat) ch
      nwrite := pi.nwrite + 1 } d (xs ++ [ch]) := by
  have hroom := h.holds.room
  refine ⟨?_, h.nread, ?_⟩
  · rw [h.nwrite, cell_ofNat]
    exact h.holds.push (by omega) ch
  · show pi.nwrite + 1 = _
    rw [h.nwrite, List.length_append, List.length_singleton, BitVec.ofNat_add]
    rfl

/-- One byte is taken. -/
theorem Stream.take (h : Stream pi d xs) (hd : d < xs.length) :
    Stream { pi with nread := pi.nread + 1 } (d + 1) xs ∧ pi.data (cell pi.nread.toNat) = xs[d] := by
  refine ⟨⟨h.holds.pop hd, ?_, h.nwrite⟩, ?_⟩
  · show pi.nread + 1 = _
    rw [h.nread, BitVec.ofNat_add]
    rfl
  · rw [h.nread, cell_ofNat]
    exact h.holds.front hd

/-! ### The turns keep the invariant -/

/-- **The loop of `pipewrite`** adds what it stores to the stream. -/
theorem pipewriteLoop_stream : ∀ {left i : Nat} {pi : Pipe} {xs : List UInt8} {turn : Turn},
    Stream pi d xs → pipewriteLoop env left i pi = (turn, bytes, pi') →
      Stream pi' d (xs ++ bytes) := by
  intro left
  induction left generalizing bytes with
  | zero =>
      intro i pi xs turn h he
      cases he
      rwa [List.append_nil]
  | succ left ih =>
      intro i pi xs turn h he
      rw [pipewriteLoop] at he
      split at he
      · cases he
        rwa [List.append_nil]
      · split at he
        · cases he
          rwa [List.append_nil]
        · next hfull =>
            rw [h.full_iff] at hfull
            split at he
            · cases he
              rwa [List.append_nil]
            · next ch _ =>
                have hst := h.store hfull ch
                cases hloop : pipewriteLoop env left (i + 1) { pi with
                    data := Function.update pi.data (cell pi.nwrite.toNat) ch
                    nwrite := pi.nwrite + 1 } with
                | mk turn₁ rest =>
                    obtain ⟨bytes₁, pi₁⟩ := rest
                    simp only [hloop] at he
                    cases he
                    have := ih hst hloop
                    rwa [List.append_assoc, List.singleton_append] at this

/-- **The loop of `piperead`** takes what it delivers from the stream. -/
theorem pipereadLoop_stream : ∀ {left i d : Nat} {pi : Pipe} {r : Int},
    Stream pi d xs → pipereadLoop env left i pi = (r, bytes, pi') →
      Stream pi' (d + bytes.length) xs ∧ xs.take (d + bytes.length) = xs.take d ++ bytes := by
  intro left
  induction left generalizing bytes with
  | zero =>
      intro i d pi r h he
      cases he
      exact ⟨h, (List.append_nil _).symm⟩
  | succ left ih =>
      intro i d pi r h he
      rw [pipereadLoop] at he
      split at he
      · cases he
        exact ⟨h, (List.append_nil _).symm⟩
      · next hne =>
          rw [h.empty_iff] at hne
          have hd : d < xs.length := lt_of_le_of_ne h.holds.le hne
          obtain ⟨hst, hch⟩ := h.take hd
          simp only at he
          split at he
          · cases he
            exact ⟨h, (List.append_nil _).symm⟩
          · cases hloop : pipereadLoop env left (i + 1) { pi with nread := pi.nread + 1 } with
            | mk r₁ rest =>
                obtain ⟨bytes₁, pi₁⟩ := rest
                simp only [hloop] at he
                cases he
                obtain ⟨hst₁, htake⟩ := ih hst hloop
                have hlen : d + (pi.data (cell pi.nread.toNat) :: bytes₁).length =
                    d + 1 + bytes₁.length := by
                  rw [List.length_cons]
                  omega
                rw [hlen]
                refine ⟨hst₁, ?_⟩
                rw [htake, List.take_succ_eq_append_getElem hd, hch, List.append_assoc,
                  List.singleton_append]

/-- A copying loop that has copied a byte returns at least that. -/
theorem le_pipereadLoop (env : Answers) : ∀ (left i : Nat) (pi : Pipe), 0 < i →
    (i : Int) ≤ (pipereadLoop env left i pi).1 := by
  intro left
  induction left with
  | zero => exact fun i pi _ => le_rfl
  | succ left ih =>
      intro i pi hi
      have hnext := ih (i + 1) { pi with nread := pi.nread + 1 } (Nat.succ_pos i)
      rw [pipereadLoop]
      split
      · exact le_rfl
      · simp only
        split
        · rw [if_neg hi.ne']
        · simp only
          omega

/-- The copying loop returns 0 for a positive request only if the pipe is empty. -/
theorem pipereadLoop_zero {left : Nat} (hleft : 0 < left)
    (he : (pipereadLoop env left 0 pi).1 = 0) : pi.nread = pi.nwrite := by
  obtain ⟨left, rfl⟩ := Nat.exists_eq_succ_of_ne_zero hleft.ne'
  have hnext := le_pipereadLoop env left 1 { pi with nread := pi.nread + 1 } Nat.one_pos
  rw [pipereadLoop] at he
  split at he
  · next h => exact h
  · simp only at he
    split at he
    · cases he
    · simp only [Nat.zero_add] at he
      omega

/-! ### The system -/

/-- The stream is what has been accepted, and what has been delivered is its beginning. -/
structure Fifo (s : PipeSystem) : Prop where
  stream : Stream s.pipe s.delivered.length s.accepted
  taken : s.accepted.take s.delivered.length = s.delivered

theorem takeTurn_fifo (h : Fifo s) (t : Nat) (env : Answers) (c : Call) :
    Fifo (takeTurn s t env c).2 := by
  cases c with
  | write n i =>
      have hloop : ∀ turn bytes pi, pipewriteTurn env n i s.pipe = (turn, bytes, pi) →
          Stream pi s.delivered.length (s.accepted ++ bytes) ∧
            (s.accepted ++ bytes).take s.delivered.length = s.delivered := by
        intro turn bytes pi he
        refine ⟨pipewriteLoop_stream h.stream he, ?_⟩
        rw [List.take_append_of_le_length h.stream.holds.le]
        exact h.taken
      simp only [takeTurn]
      split
      · next r bytes pi he =>
          obtain ⟨h₁, h₂⟩ := hloop _ bytes pi he
          exact ⟨h₁, h₂⟩
      · next j bytes pi he =>
          obtain ⟨h₁, h₂⟩ := hloop _ bytes pi he
          exact ⟨h₁, h₂⟩
  | read n =>
      have hturn : ∀ turn bytes pi, pipereadTurn env n s.pipe = (turn, bytes, pi) →
          Stream pi (s.delivered ++ bytes).length s.accepted ∧
            s.accepted.take (s.delivered ++ bytes).length = s.delivered ++ bytes := by
        intro turn bytes pi he
        rw [List.length_append]
        unfold pipereadTurn at he
        split at he
        · split at he
          · cases he
            exact ⟨h.stream, by rw [List.append_nil]; exact h.taken⟩
          · cases he
            exact ⟨h.stream, by rw [List.append_nil]; exact h.taken⟩
        · cases hloop : pipereadLoop env n.toNat 0 s.pipe with
          | mk r rest =>
              obtain ⟨bytes₁, pi₁⟩ := rest
              simp only [hloop] at he
              cases he
              obtain ⟨h₁, h₂⟩ := pipereadLoop_stream h.stream hloop
              exact ⟨h₁, by rw [h₂, h.taken]⟩
      simp only [takeTurn]
      split
      · next r bytes pi he =>
          obtain ⟨h₁, h₂⟩ := hturn _ bytes pi he
          exact ⟨h₁, h₂⟩
      · next j bytes pi he =>
          obtain ⟨h₁, h₂⟩ := hturn _ bytes pi he
          exact ⟨h₁, h₂⟩

/-- **Every step keeps the stream.** -/
theorem pipeStep_fifo {act : PipeAct} {res : Option Int} (h : Fifo s)
    (hs : pipeStep act s = .ok (res, s')) : Fifo s' := by
  cases act with
  | write t n env =>
      simp only [pipeStep] at hs
      split at hs
      · have := takeTurn_fifo h t env (.write n 0)
        rwa [Except.ok.inj hs] at this
      · cases hs
  | read t n env =>
      simp only [pipeStep] at hs
      split at hs
      · have := takeTurn_fifo h t env (.read n)
        rwa [Except.ok.inj hs] at this
      · cases hs
  | wake t env =>
      simp only [pipeStep] at hs
      split at hs
      · cases hs
      · next c _ =>
          have := takeTurn_fifo h t env c
          rwa [Except.ok.inj hs] at this
  | close writable =>
      cases hs
      exact ⟨h.stream.close writable, h.taken⟩

/-- The bytes in the ring are those that have been accepted and not delivered. -/
theorem Fifo.accepted_eq (h : Fifo s) : s.accepted = s.delivered ++ pending s.pipe := by
  have hle := h.stream.holds.le
  have hdrop : pending s.pipe = s.accepted.drop s.delivered.length := by
    refine List.ext_getElem ?_ fun k h₁ h₂ => ?_
    · simp [pending, h.stream.sub]
    · have hk : s.delivered.length + k < s.accepted.length := by
        rw [List.length_drop] at h₂
        omega
      have hcell : (cell (s.pipe.nread.toNat + k) : Fin PIPESIZE) = cell (s.delivered.length + k) := by
        apply Fin.ext
        show (s.pipe.nread.toNat + k) % PIPESIZE = (s.delivered.length + k) % PIPESIZE
        rw [h.stream.nread, BitVec.toNat_ofNat]
        simp only [PIPESIZE]
        omega
      simp only [pending, List.getElem_map, List.getElem_range, List.getElem_drop, hcell]
      exact h.stream.holds.cells _ hk (Nat.le_add_right ..)
  rw [hdrop]
  nth_rewrite 1 [← List.take_append_drop s.delivered.length s.accepted]
  rw [h.taken]

/-- A read that returns 0 for a positive request. -/
theorem pipereadTurn_zero (env : Answers) {n : Int} (hn : 0 < n)
    (he : (pipereadTurn env n pi).1 = .returns 0) : pi.nread = pi.nwrite ∧ pi.writeopen = false := by
  unfold pipereadTurn at he
  split at he
  · split at he
    · cases he
    · cases he
  · next hnot =>
      have hempty := pipereadLoop_zero (by omega) (Turn.returns.inj he)
      refine ⟨hempty, ?_⟩
      cases hw : pi.writeopen with
      | false => rfl
      | true => exact absurd ⟨hempty, hw⟩ hnot

theorem pipeStep_zero {act : PipeAct} {n : Int} (hcall : act.call s = some (.read n)) (hn : 0 < n)
    (hs : pipeStep act s = .ok (some 0, s')) : s.pipe.nread = s.pipe.nwrite ∧ s.pipe.writeopen = false := by
  have hturn : ∀ t env, takeTurn s t env (.read n) = (some 0, s') →
      s.pipe.nread = s.pipe.nwrite ∧ s.pipe.writeopen = false := by
    intro t env he
    refine pipereadTurn_zero env hn ?_
    simp only [takeTurn] at he
    split at he
    · next r bytes pi hr =>
        rw [hr]
        exact congrArg Turn.returns (Option.some.inj (congrArg Prod.fst he))
    · cases congrArg Prod.fst he
  cases act with
  | write t m env => cases hcall
  | read t m env =>
      cases hcall
      simp only [pipeStep] at hs
      split at hs
      · exact hturn t env (Except.ok.inj hs)
      · cases hs
  | wake t env =>
      simp only [PipeAct.call] at hcall
      simp only [pipeStep, hcall] at hs
      exact hturn t env (Except.ok.inj hs)
  | close writable => cases hcall

/-- **A pipe is a FIFO**, in every state of every run: what has been delivered is the beginning of
what has been accepted, and the rest is in the ring; the counters differ by at most `PIPESIZE`; and
a read of a positive number of bytes that returns 0 next finds the pipe empty and its write end
closed. -/
theorem pipe_fifo {data : Fin PIPESIZE → UInt8} {acts : List PipeAct} {rs : List (Option Int)}
    (hrun : run pipeStep acts (newSystem data) = .ok (rs, s)) :
    s.delivered <+: s.accepted ∧ s.accepted = s.delivered ++ pending s.pipe ∧
      (s.pipe.nwrite - s.pipe.nread).toNat ≤ PIPESIZE ∧
      ∀ act n s', act.call s = some (.read n) → 0 < n → pipeStep act s = .ok (some 0, s') →
        s.pipe.nread = s.pipe.nwrite ∧ s.pipe.writeopen = false := by
  have h : Fifo s := run_invariant (G := fun _ _ => True) (fun _ _ _ _ _ hI hs => pipeStep_fifo hI hs)
    acts (newSystem data) rs s (meets_of_forall (fun _ _ => trivial) acts _) ⟨stream_new data, rfl⟩ hrun
  have hroom := h.stream.holds.room
  refine ⟨⟨pending s.pipe, h.accepted_eq.symm⟩, h.accepted_eq, ?_,
    fun act n s' hcall hn hs => pipeStep_zero hcall hn hs⟩
  rw [h.stream.sub]
  omega

/-- Every byte is copied, and its value is its place in the call. -/
def copiesAll : Answers :=
  { killed := fun _ => false, copyin := fun i => some (UInt8.ofNat i), copyout := fun _ => true }

/-- One caller reads an empty pipe and sleeps; another one writes three bytes; the first one wakes up
and gets two of them. -/
def threeBytes : List PipeAct := [.read 0 2 copiesAll, .write 1 3 copiesAll, .wake 0 copiesAll]

theorem pipe_fifo_threeBytes : ∃ rs s, run pipeStep threeBytes (newSystem fun _ => 0) = .ok (rs, s) ∧
    rs = [none, some 3, some 2] ∧ s.delivered = [0, 1] ∧ s.delivered <+: s.accepted ∧
    s.accepted = s.delivered ++ pending s.pipe := by
  have hsome : (run pipeStep threeBytes (newSystem fun _ => 0)).toOption.map
      (fun x => (x.1, x.2.delivered)) = some ([none, some 3, some 2], [0, 1]) := by decide +kernel
  obtain ⟨⟨rs, s⟩, hrun, hx⟩ := Option.map_eq_some_iff.mp hsome
  obtain ⟨hrs, hd⟩ := Prod.mk.inj hx
  have hrun := eq_ok_of_toOption hrun
  have h := pipe_fifo hrun
  exact ⟨rs, s, hrun, hrs, hd, h.1, h.2.1⟩

end Xv6.File
