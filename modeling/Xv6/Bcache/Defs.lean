import Xv6.Lib.Links
import Xv6.Lib.Run

/-!
# Bcache — Defs

The buffer cache, in the critical sections of `bcache.lock` and of the buffers' sleep locks.

A use is one `bread` with what follows it up to `brelse`; a process that holds two buffers has two
uses under way.  `Use` is the place of a use.  The links of the LRU list are stored in the buffers,
and `bget` and `brelse` follow and store them.

Two fields are no part of the kernel: `pins` counts the `bpin`s that have not been undone, and `dirty`
tells whether a buffer has been changed since it was last read or written.

What the cache is for is said by `Blocks`: every block has contents, which are changed in place.
-/

namespace Xv6.Bcache
open Xv6.Lib

abbrev NBUF : Nat := 30
abbrev BSIZE : Nat := 1024

abbrev BufId := Fin NBUF
abbrev Data := Fin BSIZE → UInt8

/-- `dev` and `blockno`. -/
abbrev Key := BitVec 32 × BitVec 32

structure Buf where
  valid : Bool
  dev : BitVec 32
  blockno : BitVec 32
  /-- the use that holds the sleep lock -/
  lock : Option Nat
  refcnt : BitVec 32
  data : Data

def Buf.key (x : Buf) : Key := (x.dev, x.blockno)

inductive Use where
  | idle
  /-- in `bget`, before `acquiresleep` returns -/
  | acquiring (b : BufId)
  /-- in `bread`, with the lock -/
  | locked (b : BufId)
  /-- `bread` has returned -/
  | holding (b : BufId)
  /-- in `brelse`, after `releasesleep` -/
  | releasing (b : BufId)
  deriving DecidableEq

structure Cache where
  buf : BufId → Buf
  links : Links BufId
  disk : Key → Data
  use : Nat → Use
  pins : BufId → Nat
  dirty : BufId → Bool

def setBuf (s : Cache) (b : BufId) (x : Buf) : Cache := { s with buf := Function.update s.buf b x }

def setUse (s : Cache) (t : Nat) (u : Use) : Cache := { s with use := Function.update s.use t u }

/-- The links that `binit` makes. -/
def binitLinks : Links BufId := (List.finRange NBUF).foldl Links.linkFront Links.empty

/-- After `binit`; the buffers are zero. -/
def binit (disk : Key → Data) : Cache :=
  { buf := fun _ => ⟨false, 0, 0, none, 0, fun _ => 0⟩, links := binitLinks, disk := disk,
    use := fun _ => .idle, pins := fun _ => 0, dirty := fun _ => false }

/-- The critical section of `bget`. -/
def bget (s : Cache) (t : Nat) (dev blockno : BitVec 32) : Except String Cache :=
  match Links.scan s.links.next (fun b => (s.buf b).dev == dev && (s.buf b).blockno == blockno) NBUF
      (s.links.next none) with
  | some b =>
    .ok (setUse (setBuf s b { s.buf b with refcnt := (s.buf b).refcnt + 1 }) t (.acquiring b))
  | none =>
    match Links.scan s.links.prev (fun b => (s.buf b).refcnt == 0) NBUF (s.links.prev none) with
    | some b =>
      .ok (setUse (setBuf s b
        { s.buf b with dev := dev, blockno := blockno, valid := false, refcnt := 1 }) t (.acquiring b))
    | none => .error "bget: no buffers"

/-- One turn of the loop of `acquiresleep`. -/
def acquiresleep (s : Cache) (t : Nat) (b : BufId) : Cache :=
  if (s.buf b).lock = none then setUse (setBuf s b { s.buf b with lock := some t }) t (.locked b)
  else s

/-- `bread` after `bget`. -/
def breadLocked (s : Cache) (t : Nat) (b : BufId) : Cache :=
  if (s.buf b).valid then setUse s t (.holding b)
  else
    setUse { setBuf s b { s.buf b with data := s.disk (s.buf b).key, valid := true } with
      dirty := Function.update s.dirty b false } t (.holding b)

/-- The holder changes the contents. -/
def store (s : Cache) (b : BufId) (x : Data) : Cache :=
  { setBuf s b { s.buf b with data := x } with dirty := Function.update s.dirty b true }

def bwrite (s : Cache) (t : Nat) (b : BufId) : Except String Cache :=
  if (s.buf b).lock ≠ some t then .error "bwrite"
  else .ok { s with
    disk := Function.update s.disk (s.buf b).key (s.buf b).data
    dirty := Function.update s.dirty b false }

def bpin (s : Cache) (b : BufId) : Cache :=
  { setBuf s b { s.buf b with refcnt := (s.buf b).refcnt + 1 } with
    pins := Function.update s.pins b (s.pins b + 1) }

def bunpin (s : Cache) (b : BufId) : Cache :=
  { setBuf s b { s.buf b with refcnt := (s.buf b).refcnt - 1 } with
    pins := Function.update s.pins b (s.pins b - 1) }

/-- `brelse` up to `releasesleep`. -/
def brelseUnlock (s : Cache) (t : Nat) (b : BufId) : Except String Cache :=
  if (s.buf b).lock ≠ some t then .error "brelse"
  else .ok (setUse (setBuf s b { s.buf b with lock := none }) t (.releasing b))

/-- The critical section of `brelse`. -/
def brelseLink (s : Cache) (t : Nat) (b : BufId) : Cache :=
  let s := setUse (setBuf s b { s.buf b with refcnt := (s.buf b).refcnt - 1 }) t .idle
  if (s.buf b).refcnt = 0 then { s with links := (s.links.unlink b).linkFront b } else s

inductive CacheAct where
  | bget (t : Nat) (dev blockno : BitVec 32)
  /-- the next step of `bget`, of `bread` or of `brelse`, wherever the use is -/
  | next (t : Nat)
  | store (t : Nat) (x : Data)
  | bwrite (t : Nat)
  | bpin (t : Nat)
  | bunpin (b : BufId)
  | brelse (t : Nat)

/-- A step, with the contents that `bread` returns. -/
def cacheStep : CacheAct → Cache → Except String (Option Data × Cache)
  | .bget t dev blockno, s =>
    match s.use t with
    | .idle => do
      let s ← bget s t dev blockno
      return (none, s)
    | _ => .error "in use"
  | .next t, s =>
    match s.use t with
    | .acquiring b => .ok (none, acquiresleep s t b)
    | .locked b => .ok (some ((breadLocked s t b).buf b).data, breadLocked s t b)
    | .releasing b => .ok (none, brelseLink s t b)
    | _ => .error "not under way"
  | .store t x, s =>
    match s.use t with
    | .holding b => .ok (none, store s b x)
    | _ => .error "no buffer"
  | .bwrite t, s =>
    match s.use t with
    | .holding b => do
      let s ← bwrite s t b
      return (none, s)
    | _ => .error "no buffer"
  | .bpin t, s =>
    match s.use t with
    | .holding b => .ok (none, bpin s b)
    | _ => .error "no buffer"
  | .bunpin b, s => .ok (none, bunpin s b)
  | .brelse t, s =>
    match s.use t with
    | .holding b => do
      let s ← brelseUnlock s t b
      return (none, s)
    | _ => .error "no buffer"

/-! ### What the cache is for -/

structure Blocks where
  /-- the block that a use has asked for -/
  want : Nat → Key
  /-- what the last holder has left in a block, or what was on the disk -/
  contents : Key → Data

def blocksStep (m : Blocks) : CacheAct → Blocks
  | .bget t dev blockno => { m with want := Function.update m.want t (dev, blockno) }
  | .store t x => { m with contents := Function.update m.contents (m.want t) x }
  | _ => m

def blocksInit (disk : Key → Data) : Blocks := ⟨fun _ => (0, 0), disk⟩

/-! ### What the users of the cache do -/

/-- The buffer that a use holds. -/
def Use.held : Use → Option BufId
  | .holding b => some b
  | _ => none

/-- A buffer that has been changed is written or pinned before it is released, and `bunpin` undoes
a `bpin`. -/
def Disciplined (a : CacheAct) (s : Cache) : Prop :=
  match a with
  | .bunpin b => 0 < s.pins b
  | .brelse t => ∀ b ∈ (s.use t).held, s.dirty b = true → 0 < s.pins b
  | _ => True

instance decidableDisciplined (a : CacheAct) (s : Cache) : Decidable (Disciplined a s) :=
  match a with
  | .bget _ _ _ => isTrue trivial
  | .next _ => isTrue trivial
  | .store _ _ => isTrue trivial
  | .bwrite _ => isTrue trivial
  | .bpin _ => isTrue trivial
  | .bunpin b => inferInstanceAs (Decidable (0 < s.pins b))
  | .brelse t =>
    inferInstanceAs (Decidable (∀ b ∈ (s.use t).held, s.dirty b = true → 0 < s.pins b))

/-- The last pin of a buffer that has been changed is undone only while its lock is held, and no
buffer has 2^32 references. -/
def Careful (a : CacheAct) (s : Cache) : Prop :=
  match a with
  | .bunpin b => s.dirty b = true → 1 < s.pins b ∨ (s.buf b).lock ≠ none
  | .bget _ _ _ => ∀ b, (s.buf b).refcnt + 1 ≠ 0
  | .bpin t => ∀ b ∈ (s.use t).held, (s.buf b).refcnt + 1 ≠ 0
  | _ => True

instance decidableCareful (a : CacheAct) (s : Cache) : Decidable (Careful a s) :=
  match a with
  | .bget _ _ _ => inferInstanceAs (Decidable (∀ b, (s.buf b).refcnt + 1 ≠ 0))
  | .next _ => isTrue trivial
  | .store _ _ => isTrue trivial
  | .bwrite _ => isTrue trivial
  | .bpin t => inferInstanceAs (Decidable (∀ b ∈ (s.use t).held, (s.buf b).refcnt + 1 ≠ 0))
  | .bunpin b => inferInstanceAs (Decidable (s.dirty b = true → 1 < s.pins b ∨ (s.buf b).lock ≠ none))
  | .brelse _ => isTrue trivial

end Xv6.Bcache
