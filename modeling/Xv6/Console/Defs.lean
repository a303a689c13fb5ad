import Xv6.Lib.Cstring
import Xv6.Lib.Ring
import Xv6.Lib.Run

/-!
# Console — Defs

`consoleintr`, which edits the line that is typed, and `consoleread`, by any number of callers.

`consoleintr` has the console's lock from start to end; a call of `consoleread` has it from the moment
it gets it to the moment it sleeps or returns, which is a turn.  What the rest of the kernel answers
during a turn (`killed`, `either_copyout`) is up to the environment.  The system is over any console, so
that the one of the source and a plain one take the same steps.
-/

namespace Xv6.Console
open Xv6.Lib
open Xv6.Lib.Ring (cell)

/-- `C(x)` -/
def ctrl (x : Char) : Byte := BitVec.ofNat 8 (x.toNat - '@'.toNat)

def BACKSPACE : Nat := 0x100

def INPUT_BUF_SIZE : Nat := 128

instance : NeZero INPUT_BUF_SIZE := ⟨by decide⟩

/-- `cons` -/
structure Cons where
  buf : Fin INPUT_BUF_SIZE → Byte
  r : BitVec 32
  w : BitVec 32
  e : BitVec 32

/-! ### The keyboard -/

/-- What `consputc` gives to the uart. -/
def consputc (c : Nat) : List Byte :=
  if c = BACKSPACE then [chr '\x08', chr ' ', chr '\x08'] else [BitVec.ofNat 8 c]

/-- The loop of `C('U')`, with the number of characters between `w` and `e`. -/
def killLoop : Nat → Cons → List Byte × Cons
  | 0, s => ([], s)
  | left + 1, s =>
    if s.e ≠ s.w ∧ s.buf (cell (s.e - 1).toNat) ≠ chr '\n' then
      let next := killLoop left { s with e := s.e - 1 }
      (consputc BACKSPACE ++ next.1, next.2)
    else ([], s)

/-- `(c == '\r') ? '\n' : c` -/
def typedAs (c : Byte) : Byte := if c = chr '\r' then chr '\n' else c

/-- What is echoed, whether the readers are woken up, and the new state. -/
def consoleintr (c : Byte) (s : Cons) : (List Byte × Bool) × Cons :=
  if c = ctrl 'P' then (([], false), s)
  else if c = ctrl 'U' then
    let next := killLoop (s.e - s.w).toNat s
    ((next.1, false), next.2)
  else if c = ctrl 'H' ∨ c = chr '\x7f' then
    if s.e ≠ s.w then ((consputc BACKSPACE, false), { s with e := s.e - 1 }) else (([], false), s)
  else if c ≠ 0 ∧ (s.e - s.r).toNat < INPUT_BUF_SIZE then
    let s := { s with buf := Function.update s.buf (cell s.e.toNat) (typedAs c), e := s.e + 1 }
    if typedAs c = chr '\n' ∨ typedAs c = ctrl 'D' ∨ (s.e - s.r).toNat = INPUT_BUF_SIZE then
      ((consputc (typedAs c).toNat, true), { s with w := s.e })
    else ((consputc (typedAs c).toNat, false), s)
  else (([], false), s)

/-! ### The readers -/

/-- The answers of a turn: `killed(myproc())`, and whether `either_copyout` of byte `i` succeeds. -/
structure Answers where
  killed : Bool
  copyout : Nat → Bool

/-- How a turn ends: with the call's result, or asleep with `n` bytes to go. -/
inductive Turn where
  | returns (r : Int)
  | sleeps (n : Nat)
  deriving DecidableEq

/-- A turn: how it ends, the bytes it copies out, and a byte that it takes and does not copy out. -/
structure Got where
  turn : Turn
  bytes : List Byte
  lost : Option Byte
  deriving DecidableEq

/-- The loop of `consoleread`, by `n`. -/
def consolereadLoop (env : Answers) (target : Nat) : Nat → Cons → Got × Cons
  | 0, s => (⟨.returns target, [], none⟩, s)
  | n + 1, s =>
    if s.r = s.w then
      (⟨if env.killed then .returns (-1) else .sleeps (n + 1), [], none⟩, s)
    else
      let c := s.buf (cell s.r.toNat)
      let s := { s with r := s.r + 1 }
      let done : Int := target - (n + 1)
      if c = ctrl 'D' then
        if n + 1 < target then (⟨.returns done, [], none⟩, { s with r := s.r - 1 })
        else (⟨.returns done, [], some c⟩, s)
      else if !env.copyout (target - (n + 1)) then (⟨.returns done, [], some c⟩, s)
      else if c = chr '\n' then (⟨.returns (done + 1), [c], none⟩, s)
      else
        let next := consolereadLoop env target n s
        ({ next.1 with bytes := c :: next.1.bytes }, next.2)

/-! ### Any number of callers -/

/-- What a console does at an interrupt and in a turn. -/
structure Machine (σ : Type) where
  intr : Byte → σ → (List Byte × Bool) × σ
  read : Answers → Nat → Nat → σ → Got × σ

def console : Machine Cons := ⟨consoleintr, consolereadLoop⟩

/-- A call of `consoleread` that is not at its end: what it was asked for, what it has copied out, and
whether it waits on `&cons.r`. -/
structure Call where
  target : Nat
  got : List Byte
  asleep : Bool
  deriving DecidableEq

structure System (σ : Type) where
  cons : σ
  calls : Nat → Option Call

inductive Act where
  /-- `consoleintr(c)` -/
  | key (c : Byte)
  /-- `t` calls `consoleread` for `n` bytes -/
  | read (t : Nat) (n : Int) (env : Answers)
  /-- `t` is awake and has the lock again -/
  | resume (t : Nat) (env : Answers)
  /-- `kill` makes `t` runnable -/
  | kill (t : Nat)

inductive Obs where
  | echo (c : Byte) (bytes : List Byte)
  | sleeps (t : Nat) (bytes : List Byte)
  | returns (t : Nat) (bytes : List Byte) (lost : Option Byte) (target : Nat) (got : List Byte) (r : Int)
  | kill
  deriving DecidableEq

variable {σ : Type}

/-- A turn of the call `call` of `t`. -/
def takeTurn (m : Machine σ) (s : System σ) (t : Nat) (env : Answers) (call : Call) : Obs × System σ :=
  let next := m.read env call.target (call.target - call.got.length) s.cons
  let got := call.got ++ next.1.bytes
  match next.1.turn with
  | .returns r => (.returns t next.1.bytes next.1.lost call.target got r,
      { cons := next.2, calls := Function.update s.calls t none })
  | .sleeps _ => (.sleeps t next.1.bytes,
      { cons := next.2, calls := Function.update s.calls t (some ⟨call.target, got, true⟩) })

/-- `wakeup(&cons.r)` -/
def wakeup (calls : Nat → Option Call) : Nat → Option Call :=
  fun t => (calls t).map fun call => { call with asleep := false }

def step (m : Machine σ) : Act → System σ → Except String (Obs × System σ)
  | .key c, s =>
    let next := m.intr c s.cons
    .ok (.echo c next.1.1, { cons := next.2, calls := if next.1.2 then wakeup s.calls else s.calls })
  | .read t n env, s =>
    if s.calls t = none then .ok (takeTurn m s t env ⟨n.toNat, [], false⟩) else .error "in a call"
  | .resume t env, s =>
    match s.calls t with
    | some call => if call.asleep then .error "asleep" else .ok (takeTurn m s t env call)
    | none => .error "not in a call"
  | .kill t, s =>
    .ok (.kill, { s with
      calls := Function.update s.calls t ((s.calls t).map fun call => { call with asleep := false }) })

/-- The console after boot. -/
def boot : System Cons := ⟨⟨fun _ => 0, 0, 0, 0⟩, fun _ => none⟩

end Xv6.Console
