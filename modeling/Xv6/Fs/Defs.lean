import Xv6.Lib.Run

/-!
# Fs — Defs

Blocks and inodes: `balloc`, `bfree`, `bmap`, `itrunc`, `writei`, `ialloc`, `iget`, `ilock`, `iput`.

A block is its 32-bit words, as in `Log.Defs`, so that an indirect block is the array `a` of `bmap`
and an on-disk inode is 16 words.  The disk is what `bread` returns and `log_write` keeps, the
contents of the cached blocks.  There is one device.

What a caller promises (the inode is locked, there is a reference to put) is `FsOp.Callable`; a panic
is an error.
-/

namespace Xv6.Fs
open Xv6.Lib

abbrev BSIZE : Nat := 1024
abbrev NDIRECT : Nat := 12
abbrev NINDIRECT : Nat := 256
abbrev MAXFILE : Nat := NDIRECT + NINDIRECT
abbrev NINODE : Nat := 50

/-- Inodes per block. -/
abbrev IPB : Nat := 16

/-- Bitmap bits per block. -/
abbrev BPB : Nat := BSIZE * 8

abbrev Word := BitVec 32

/-- The words of a block, 256 of them. -/
abbrev Block := Nat → Word

abbrev Disk := Nat → Block

structure Super where
  size : Nat
  ninodes : Nat
  inodestart : Nat
  bmapstart : Nat

def iblock (sb : Super) (i : Nat) : Nat := i / IPB + sb.inodestart

def bblock (sb : Super) (b : Nat) : Nat := b / BPB + sb.bmapstart

/-! ### Parts of a block -/

/-- Bit `i % 8` of byte `i / 8`. -/
def Block.bit (x : Block) (i : Nat) : Bool := (x (i / 32)).getLsbD (i % 32)

def Block.setBit (x : Block) (i : Nat) (v : Bool) : Block :=
  Function.update x (i / 32) (if v then x (i / 32) ||| BitVec.twoPow 32 (i % 32)
    else x (i / 32) &&& ~~~BitVec.twoPow 32 (i % 32))

/-- Byte `i` becomes `b`. -/
def Block.setByte (x : Block) (i : Nat) (b : BitVec 8) : Block :=
  Function.update x (i / 4) (x (i / 4) &&& ~~~((0xFF : Word) <<< (8 * (i % 4))) |||
    b.setWidth 32 <<< (8 * (i % 4)))

/-- `memmove` of some bytes to offset `off`. -/
def Block.store (x : Block) : Nat → List (BitVec 8) → Block
  | _, [] => x
  | off, b :: bytes => Block.store (x.setByte off b) (off + 1) bytes

/-- Byte `i`. -/
def Block.byte (x : Block) (i : Nat) : BitVec 8 := (x (i / 4) >>> (8 * (i % 4))).setWidth 8

/-- The `m` bytes from offset `off`. -/
def Block.load (x : Block) (off m : Nat) : List (BitVec 8) :=
  (List.range m).map fun j => x.byte (off + j)

structure Dinode where
  type : BitVec 16
  major : BitVec 16
  minor : BitVec 16
  nlink : BitVec 16
  size : Word
  addrs : Fin (NDIRECT + 1) → Word

/-- The `k`th inode of a block. -/
def Block.dinode (x : Block) (k : Nat) : Dinode where
  type := (x (16 * k)).setWidth 16
  major := (x (16 * k) >>> 16).setWidth 16
  minor := (x (16 * k + 1)).setWidth 16
  nlink := (x (16 * k + 1) >>> 16).setWidth 16
  size := x (16 * k + 2)
  addrs j := x (16 * k + 3 + j)

def Dinode.word (d : Dinode) (i : Nat) : Word :=
  if i = 0 then d.major ++ d.type
  else if i = 1 then d.nlink ++ d.minor
  else if i = 2 then d.size
  else d.addrs (Fin.ofNat (NDIRECT + 1) (i - 3))

def Block.setDinode (x : Block) (k : Nat) (d : Dinode) : Block := fun i =>
  if i / 16 = k then d.word (i % 16) else x i

/-! ### Blocks -/

def setBlock (disk : Disk) (b : Nat) (x : Block) : Disk := Function.update disk b x

def bzero (disk : Disk) (b : Nat) : Disk := setBlock disk b fun _ => 0

/-- The bit of block `b` in the free map. -/
def inUse (sb : Super) (disk : Disk) (b : Nat) : Bool := (disk (bblock sb b)).bit (b % BPB)

def setInUse (sb : Super) (disk : Disk) (b : Nat) (v : Bool) : Disk :=
  setBlock disk (bblock sb b) ((disk (bblock sb b)).setBit (b % BPB) v)

/-- The two loops go through the blocks `b + bi` in order; 0 when no block is free. -/
def balloc (sb : Super) (disk : Disk) : Word × Disk :=
  match (List.range sb.size).find? fun b => !inUse sb disk b with
  | none => (0, disk)
  | some b => (BitVec.ofNat 32 b, bzero (setInUse sb disk b true) b)

def bfree (sb : Super) (disk : Disk) (b : Word) : Except String Disk :=
  if !inUse sb disk b.toNat then .error "freeing free block"
  else .ok (setInUse sb disk b.toNat false)

/-! ### Inodes on disk -/

def dinodeAt (sb : Super) (disk : Disk) (inum : Nat) : Dinode :=
  (disk (iblock sb inum)).dinode (inum % IPB)

def iupdate (sb : Super) (disk : Disk) (inum : Nat) (d : Dinode) : Disk :=
  setBlock disk (iblock sb inum) ((disk (iblock sb inum)).setDinode (inum % IPB) d)

def Dinode.setAddr (d : Dinode) (j : Fin (NDIRECT + 1)) (a : Word) : Dinode :=
  { d with addrs := Function.update d.addrs j a }

/-- `addrs[bn]` for a direct block. -/
def directSlot (bn : Nat) : Fin (NDIRECT + 1) := Fin.ofNat (NDIRECT + 1) bn

/-- `addrs[NDIRECT]`. -/
def indirectSlot : Fin (NDIRECT + 1) := Fin.last NDIRECT

/-- The block that entry `j` of an inode names, allocated if there is none. -/
def bmapSlot (sb : Super) (disk : Disk) (d : Dinode) (j : Fin (NDIRECT + 1)) :
    Word × Disk × Dinode :=
  if d.addrs j = 0 then
    match balloc sb disk with
    | (addr, disk) => if addr = 0 then (0, disk, d) else (addr, disk, d.setAddr j addr)
  else (d.addrs j, disk, d)

def bmap (sb : Super) (disk : Disk) (d : Dinode) (bn : Nat) :
    Except String (Word × Disk × Dinode) :=
  if bn < NDIRECT then .ok (bmapSlot sb disk d (directSlot bn))
  else if bn - NDIRECT < NINDIRECT then
    match bmapSlot sb disk d indirectSlot with
    | (ind, disk, d) =>
      if ind = 0 then .ok (0, disk, d)
      else if disk ind.toNat (bn - NDIRECT) = 0 then
        match balloc sb disk with
        | (addr, disk) =>
          if addr = 0 then .ok (0, disk, d)
          else .ok (addr, setBlock disk ind.toNat
            (Function.update (disk ind.toNat) (bn - NDIRECT) addr), d)
      else .ok (disk ind.toNat (bn - NDIRECT), disk, d)
  else .error "bmap: out of range"

/-- `bfree` of an address that is there. -/
def bfreeAddr (sb : Super) (disk : Disk) (a : Word) : Except String Disk :=
  if a = 0 then .ok disk else bfree sb disk a

/-- The first loop of `itrunc`, over the entries `js`. -/
def truncDirect (sb : Super) : List (Fin (NDIRECT + 1)) → Disk → Dinode →
    Except String (Disk × Dinode)
  | [], disk, d => .ok (disk, d)
  | j :: js, disk, d => do
    let disk ← bfreeAddr sb disk (d.addrs j)
    truncDirect sb js disk (d.setAddr j 0)

/-- The second loop, over the entries `js` of the indirect block `a`. -/
def truncIndirect {ι : Type} (sb : Super) (a : ι → Word) : List ι → Disk → Except String Disk
  | [], disk => .ok disk
  | j :: js, disk => do
    let disk ← bfreeAddr sb disk (a j)
    truncIndirect sb a js disk

def itrunc (sb : Super) (disk : Disk) (inum : Nat) (d : Dinode) : Except String (Disk × Dinode) := do
  let (disk, d) ← truncDirect sb ((List.range NDIRECT).map directSlot) disk d
  let (disk, d) ←
    if d.addrs indirectSlot = 0 then pure (disk, d)
    else do
      let ind := d.addrs indirectSlot
      let disk ← truncIndirect sb (disk ind.toNat) (List.range NINDIRECT) disk
      let disk ← bfree sb disk ind
      pure (disk, d.setAddr indirectSlot 0)
  let d := { d with size := 0 }
  return (iupdate sb disk inum d, d)

/-! ### Writing -/

/-- What `either_copyin` does in the turn at `tot`: the bytes that it copies, and whether it
succeeds. -/
abbrev Source := Nat → List (BitVec 8) × Bool

/-- The loop of `writei` at `off`, with `left` bytes to go and `tot` written; with a bound on the
turns. -/
def writeiLoop (sb : Super) (src : Source) :
    Nat → Disk → Dinode → Nat → Nat → Nat → Except String ((Nat × Nat) × Disk × Dinode)
  | 0, _, _, _, _, _ => .error "writei: no turn left"
  | turns + 1, disk, d, off, left, tot =>
    if left = 0 then .ok ((tot, off), disk, d)
    else do
      let (addr, disk, d) ← bmap sb disk d (off / BSIZE)
      if addr = 0 then return ((tot, off), disk, d)
      else
        let m := min left (BSIZE - off % BSIZE)
        let disk := setBlock disk addr.toNat
          ((disk addr.toNat).store (off % BSIZE) ((src tot).1.take m))
        if !(src tot).2 then return ((tot, off), disk, d)
        else writeiLoop sb src turns disk d (off + m) (left - m) (tot + m)

/-- The result is the number of bytes, or `none` for -1.  `off` and `n` are `uint`s. -/
def writei (sb : Super) (disk : Disk) (inum : Nat) (d : Dinode) (src : Source) (off n : Nat) :
    Except String (Option Nat × Disk × Dinode) :=
  if off > d.size.toNat ∨ off + n ≥ 2 ^ 32 then .ok (none, disk, d)
  else if off + n > MAXFILE * BSIZE then .ok (none, disk, d)
  else do
    let ((tot, off), disk, d) ← writeiLoop sb src (n + 1) disk d off n 0
    let d := if off > d.size.toNat then { d with size := BitVec.ofNat 32 off } else d
    return (some tot, iupdate sb disk inum d, d)

/-! ### Reading -/

/-- The loop of `readi` at `off`, with `left` bytes to go and `tot` read, which are `out`; `dst` says
whether `either_copyout` succeeds in the turn at `tot`. -/
def readiLoop (sb : Super) (dst : Nat → Bool) : Nat → Disk → Dinode → Nat → Nat → Nat →
    List (BitVec 8) → Except String ((Option Nat × List (BitVec 8)) × Disk × Dinode)
  | 0, _, _, _, _, _, _ => .error "readi: no turn left"
  | turns + 1, disk, d, off, left, tot, out =>
    if left = 0 then .ok ((some tot, out), disk, d)
    else do
      let (addr, disk, d) ← bmap sb disk d (off / BSIZE)
      if addr = 0 then return ((some tot, out), disk, d)
      else
        let m := min left (BSIZE - off % BSIZE)
        if !dst tot then return ((none, out), disk, d)
        else
          let out := out ++ (disk addr.toNat).load (off % BSIZE) m
          readiLoop sb dst turns disk d (off + m) (left - m) (tot + m) out

/-- The result, `none` for -1, and the bytes that have been copied out. -/
def readi (sb : Super) (disk : Disk) (d : Dinode) (dst : Nat → Bool) (off n : Nat) :
    Except String ((Option Nat × List (BitVec 8)) × Disk × Dinode) :=
  if off > d.size.toNat ∨ off + n ≥ 2 ^ 32 then .ok ((some 0, []), disk, d)
  else
    let n := if off + n > d.size.toNat then d.size.toNat - off else n
    readiLoop sb dst (n + 1) disk d off n 0 []

/-! ### The inode table -/

structure Inode where
  inum : Nat
  ref : Nat
  valid : Bool
  d : Dinode

structure State where
  disk : Disk
  itable : Fin NINODE → Inode

def setInode (s : State) (i : Fin NINODE) (ip : Inode) : State :=
  { s with itable := Function.update s.itable i ip }

/-- The entry that `iget` returns, and the table with one more reference to it. -/
def iget (s : State) (inum : Nat) : Except String (Fin NINODE × State) :=
  match (List.finRange NINODE).find? fun i =>
      decide (0 < (s.itable i).ref) && decide ((s.itable i).inum = inum) with
  | some i => .ok (i, setInode s i { s.itable i with ref := (s.itable i).ref + 1 })
  | none =>
    match (List.finRange NINODE).find? fun i => decide ((s.itable i).ref = 0) with
    | none => .error "iget: no inodes"
    | some i => .ok (i, setInode s i { s.itable i with inum := inum, ref := 1, valid := false })

/-- A new inode of a type: all zeros besides. -/
def newDinode (type : BitVec 16) : Dinode := ⟨type, 0, 0, 0, 0, fun _ => 0⟩

def ialloc (sb : Super) (s : State) (type : BitVec 16) : Except String (Option (Fin NINODE) × State) :=
  match ((List.range sb.ninodes).drop 1).find? fun inum =>
      decide ((dinodeAt sb s.disk inum).type = 0) with
  | none => .ok (none, s)
  | some inum => do
    let (i, s) ← iget { s with disk := iupdate sb s.disk inum (newDinode type) } inum
    return (some i, s)

/-- `ilock`, which reads the inode when it is not valid. -/
def ilock (sb : Super) (s : State) (i : Fin NINODE) : Except String State :=
  if (s.itable i).ref < 1 then .error "ilock"
  else if (s.itable i).valid then .ok s
  else if (dinodeAt sb s.disk (s.itable i).inum).type = 0 then .error "ilock: no type"
  else .ok (setInode s i { s.itable i with
    valid := true, d := dinodeAt sb s.disk (s.itable i).inum })

def iput (sb : Super) (s : State) (i : Fin NINODE) : Except String State :=
  let ip := s.itable i
  if ip.ref = 1 ∧ ip.valid = true ∧ ip.d.nlink = 0 then do
    let (disk, d) ← itrunc sb s.disk ip.inum ip.d
    let d := { d with type := 0 }
    return setInode { s with disk := iupdate sb disk ip.inum d } i
      { ip with valid := false, ref := ip.ref - 1, d := d }
  else .ok (setInode s i { ip with ref := ip.ref - 1 })

/-! ### Operations -/

/-- `link` is a change of `nlink` with the `iupdate` that goes with it. -/
inductive FsOp where
  | get (inum : Nat)
  | lock (i : Fin NINODE)
  | write (i : Fin NINODE) (src : Source) (off n : Nat)
  | trunc (i : Fin NINODE)
  | alloc (type : BitVec 16)
  | put (i : Fin NINODE)
  | link (i : Fin NINODE) (nlink : BitVec 16)

/-- The result of `writei`, and the table entry that `iget` and `ialloc` return. -/
abbrev FsResult := Option Nat

def fsStep (sb : Super) : FsOp → State → Except String (FsResult × State)
  | .get inum, s => do
    let (i, s) ← iget s inum
    return (some i, s)
  | .lock i, s => do
    let s ← ilock sb s i
    return (none, s)
  | .write i src off n, s => do
    let (res, disk, d) ← writei sb s.disk (s.itable i).inum (s.itable i).d src off n
    return (res, setInode { s with disk := disk } i { s.itable i with d := d })
  | .trunc i, s => do
    let (disk, d) ← itrunc sb s.disk (s.itable i).inum (s.itable i).d
    return (none, setInode { s with disk := disk } i { s.itable i with d := d })
  | .alloc type, s => do
    let (i, s) ← ialloc sb s type
    return (i.map Fin.val, s)
  | .put i, s => do
    let s ← iput sb s i
    return (none, s)
  | .link i nlink, s =>
    let d := { (s.itable i).d with nlink := nlink }
    return (none, setInode { s with disk := iupdate sb s.disk (s.itable i).inum d } i
      { s.itable i with d := d })

/-- The inode is locked. -/
def Held (s : State) (i : Fin NINODE) : Prop := 0 < (s.itable i).ref ∧ (s.itable i).valid = true

instance (s : State) (i : Fin NINODE) : Decidable (Held s i) := inferInstanceAs (Decidable (_ ∧ _))

/-- What the callers see to: an inode number comes from a directory, an inode is locked while it is
changed, only a reference that is there is put, and a new inode has a type. -/
def FsOp.Callable (sb : Super) : FsOp → State → Prop
  | .get inum, _ => inum < sb.ninodes
  | .lock i, s => 0 < (s.itable i).ref
  | .write i _ _ _, s => Held s i
  | .trunc i, s => Held s i
  | .alloc type, _ => type ≠ 0
  | .put i, s => 0 < (s.itable i).ref
  | .link i _, s => Held s i

instance (sb : Super) (o : FsOp) (s : State) : Decidable (o.Callable sb s) :=
  match o with
  | .get _ => inferInstanceAs (Decidable (_ < _))
  | .lock _ => inferInstanceAs (Decidable (_ < _))
  | .write _ _ _ _ => inferInstanceAs (Decidable (Held _ _))
  | .trunc _ => inferInstanceAs (Decidable (Held _ _))
  | .alloc _ => inferInstanceAs (Decidable (¬ _))
  | .put _ => inferInstanceAs (Decidable (_ < _))
  | .link _ _ => inferInstanceAs (Decidable (Held _ _))

end Xv6.Fs
