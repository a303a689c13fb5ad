import Xv6.Vm.Grow
import Xv6.Lib.Circle

/-!
# Umalloc — Defs

The allocator of user programs: `malloc`, `free`, `morecore`, and `sbrk` as they call it.

A `Header` is found by its address.  `ptr` and `size` are what is stored there; the memory that
`malloc` gives out is not looked at, except that a program may store anything in it (`HeapOp.use`).
Blocks are counted in units of `HEADER` bytes.
-/

namespace Xv6.Umalloc
open Xv6.Lib
open Xv6.Raid (PGSIZE MAX_SWAP)

/-- `sizeof(Header)`. -/
abbrev HEADER : Nat := 16

abbrev KERNBASE : Nat := 0x80000000

/-- What `sbrk` can give at most: each of its pages is in RAM or in a slot of the swap space. -/
abbrev MEMORY : Nat := Vm.PHYSTOP - KERNBASE + MAX_SWAP * PGSIZE

/-- A bound on the nodes of a list in memory. -/
@[irreducible] def TURNS : Nat := 2 ^ 40

/-- The address of `base`, and the size of the process when it starts. -/
structure Image where
  base : Nat
  start : Nat

/-- `base` is in the data of the program. -/
structure Image.Ok (im : Image) : Prop where
  base_pos : 0 < im.base
  base_le : im.base + HEADER ≤ im.start
  start_le : im.start ≤ Vm.TRAPFRAME

structure Arena where
  ptr : Nat → Nat
  size : Nat → Nat
  freep : Nat
  sz : Nat

/-- `sbrk(n)`: growing may fail, for `room` says whether there is memory; shrinking does not. -/
def sbrk (im : Image) (s : Arena) (n : Int) (room : Bool) : Option Nat × Arena :=
  if 0 < n ∧ (room = false ∨ s.sz + n > Vm.TRAPFRAME ∨ s.sz + n > im.start + MEMORY) then (none, s)
  else (some s.sz, { s with sz := Vm.newSize s.sz n })

/-! ### `free` -/

/-- The loop of `free` ends at `p`. -/
def between (s : Arena) (bp p : Nat) : Bool :=
  decide (bp > p ∧ bp < s.ptr p) || decide (p ≥ s.ptr p ∧ (bp > p ∨ bp < s.ptr p))

/-- `bp` takes up the block after it. -/
def joinAbove (s : Arena) (bp p : Nat) : Arena :=
  if bp + HEADER * s.size bp = s.ptr p then
    { s with
      size := Function.update s.size bp ((s.size bp + s.size (s.ptr p)) % 2 ^ 32)
      ptr := Function.update s.ptr bp (s.ptr (s.ptr p)) }
  else { s with ptr := Function.update s.ptr bp (s.ptr p) }

/-- `p` takes up the block `bp` after it. -/
def joinBelow (s : Arena) (bp p : Nat) : Arena :=
  if p + HEADER * s.size p = bp then
    { s with
      size := Function.update s.size p ((s.size p + s.size bp) % 2 ^ 32)
      ptr := Function.update s.ptr p (s.ptr bp) }
  else { s with ptr := Function.update s.ptr p bp }

def free (s : Arena) (ap : Nat) : Except String Arena :=
  let bp := ap - HEADER
  match seek s.ptr (between s bp) TURNS s.freep with
  | none => .error "free: no turn left"
  | some p => .ok { joinBelow (joinAbove s bp p) bp p with freep := p }

/-! ### `malloc` -/

/-- `none` for the null pointer, else `freep`.  The argument of `sbrk` is an `int`. -/
def morecore (im : Image) (s : Arena) (nu : Nat) (room : Bool) : Except String (Option Nat × Arena) :=
  let nu := if nu < 4096 then 4096 else nu
  match sbrk im s (BitVec.ofNat 32 (nu * HEADER)).toInt room with
  | (none, s) => .ok (none, s)
  | (some p, s) => do
    let s ← free { s with size := Function.update s.size p nu } (p + HEADER)
    return (some s.freep, s)

def nunits (nbytes : BitVec 32) : Nat := (nbytes.toNat + HEADER - 1) / HEADER + 1

/-- The block `p` is large enough: all of it is used, or its end. -/
def take (s : Arena) (nunits prevp p : Nat) : Nat × Arena :=
  if s.size p = nunits then
    (p + HEADER, { s with ptr := Function.update s.ptr prevp (s.ptr p), freep := prevp })
  else
    let q := p + HEADER * (s.size p - nunits)
    (q + HEADER, { s with
      size := Function.update (Function.update s.size p (s.size p - nunits)) q nunits
      freep := prevp })

def mallocLoop (im : Image) (nunits : Nat) (room : Bool) :
    Nat → Arena → Nat → Nat → Except String (Option Nat × Arena)
  | 0, _, _, _ => .error "malloc: no turn left"
  | turns + 1, s, prevp, p =>
    if s.size p ≥ nunits then
      match take s nunits prevp p with
      | (q, s) => .ok (some q, s)
    else if p = s.freep then do
      match ← morecore im s nunits room with
      | (none, s) => return (none, s)
      | (some p, s) => mallocLoop im nunits room turns s p (s.ptr p)
    else mallocLoop im nunits room turns s p (s.ptr p)

def malloc (im : Image) (s : Arena) (nbytes : BitVec 32) (room : Bool) :
    Except String (Option Nat × Arena) :=
  let s := if s.freep = 0 then
      { s with
        ptr := Function.update s.ptr im.base im.base
        size := Function.update s.size im.base 0
        freep := im.base }
    else s
  mallocLoop im (nunits nbytes) room TURNS s s.freep (s.ptr s.freep)

/-! ### Programs -/

/-- The memory of a program; `live` are the pointers that it has from `malloc`, with the bytes that it
asked for. -/
structure Heap where
  arena : Arena
  live : List (Nat × Nat)

inductive HeapOp where
  | malloc (nbytes : BitVec 32) (room : Bool)
  | free (ap : Nat)
  | use (words : Nat → Nat × Nat)

/-- What is stored at `h` is within the bytes that a program may use, in part at least. -/
def inUser (live : List (Nat × Nat)) (h : Nat) : Bool :=
  live.any fun b => decide (b.1 < h + HEADER ∧ h < b.1 + b.2)

def heapStep (im : Image) : HeapOp → Heap → Except String (Option Nat × Heap)
  | .malloc nbytes room, s => do
    let (p, a) ← malloc im s.arena nbytes room
    return (p, { arena := a, live := (p.map fun p => (p, nbytes.toNat)).toList ++ s.live })
  | .free ap, s => do
    let a ← free s.arena ap
    return (none, { arena := a, live := s.live.filter fun b => decide (b.1 ≠ ap) })
  | .use words, s =>
    let a := { s.arena with
      ptr := fun h => if inUser s.live h then (words h).1 else s.arena.ptr h
      size := fun h => if inUser s.live h then (words h).2 else s.arena.size h }
    .ok (none, { s with arena := a })

/-- A program frees what it has from `malloc`. -/
def HeapOp.Callable : HeapOp → Heap → Prop
  | .malloc _ _, _ => True
  | .free ap, s => ∃ b ∈ s.live, b.1 = ap
  | .use _, _ => True

instance (o : HeapOp) (s : Heap) : Decidable (o.Callable s) :=
  match o with
  | .malloc _ _ => inferInstanceAs (Decidable True)
  | .free _ => inferInstanceAs (Decidable (∃ b ∈ _, _))
  | .use _ => inferInstanceAs (Decidable True)

/-- What `malloc` may ask `sbrk` for is an `int`; or, modulo `2 ^ 32`, one unit, which is refused. -/
def HeapOp.InInt (im : Image) : HeapOp → Heap → Prop
  | .malloc nbytes room, s => nbytes.toNat + 32 ≤ 2 ^ 31 ∨
      2 ^ 32 ≤ nbytes.toNat + 15 ∧ (sbrk im s.arena HEADER room).1 = none
  | .free _, _ => True
  | .use _, _ => True

instance (im : Image) (o : HeapOp) (s : Heap) : Decidable (o.InInt im s) :=
  match o with
  | .malloc _ _ => inferInstanceAs (Decidable (_ ∨ _ ∧ _))
  | .free _ => inferInstanceAs (Decidable True)
  | .use _ => inferInstanceAs (Decidable True)

/-- A program that starts: `freep` is null. -/
def initial (im : Image) (ptr size : Nat → Nat) : Heap := ⟨⟨ptr, size, 0, im.start⟩, []⟩

end Xv6.Umalloc
