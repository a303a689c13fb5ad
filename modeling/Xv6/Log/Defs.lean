import Xv6.Lib.Run
import Xv6.Lib.Writes

/-!
# Log — Defs

The on-disk log: `write_log`, `write_head`, `install_trans`, `commit` and `recover_from_log`.

A block is its 32-bit words, so that the header block can be read as a `struct logheader`: word 0 is
`n`, word `i + 1` is `block[i]`.  `view` is what `bread` returns, the cached copy of a block or the
one on disk; `issued` lists the writes that `bwrite` has sent to the disk.  The header in memory is
the list of its first `n` block numbers.
-/

namespace Xv6.Log
open Xv6.Lib

abbrev MAXOPBLOCKS : Nat := 10
abbrev LOGBLOCKS : Nat := MAXOPBLOCKS * 3

/-- `BSIZE / sizeof(int)`. -/
abbrev WORDS : Nat := 256

abbrev BlockNo := BitVec 32
abbrev Block := Fin WORDS → BitVec 32
abbrev Disk := BlockNo → Block

/-- `n` and `block[0..n)` of the header on disk. -/
def headBlocks (b : Block) : List BlockNo :=
  (List.range (b (Fin.ofNat WORDS 0)).toInt.toNat).map fun i => b (Fin.ofNat WORDS (i + 1))

/-- A header block into which `n` and `block[0..n)` are stored; the other words stay. -/
def storeHead (b : Block) (lh : List BlockNo) : Block := fun j =>
  if j.val = 0 then BitVec.ofNat 32 lh.length
  else if h : j.val - 1 < lh.length then lh[j.val - 1]
  else b j

structure Machine where
  view : BlockNo → Block
  issued : List (BlockNo × Block)

/-- `memmove` to the data of the buffer of block `b`. -/
def Machine.store (m : Machine) (b : BlockNo) (x : Block) : Machine :=
  { m with view := Function.update m.view b x }

def Machine.bwrite (m : Machine) (b : BlockNo) : Machine :=
  { m with issued := m.issued ++ [(b, m.view b)] }

/-- The block `log.start + tail + 1`. -/
def slot (start : BlockNo) (tail : Nat) : BlockNo := start + BitVec.ofNat 32 tail + 1

/-- The loop of `install_trans` from `tail` on. -/
def installTrans (start : BlockNo) : Nat → List BlockNo → Machine → Machine
  | _, [], m => m
  | tail, b :: lh, m =>
    installTrans start (tail + 1) lh ((m.store b (m.view (slot start tail))).bwrite b)

def writeHead (start : BlockNo) (lh : List BlockNo) (m : Machine) : Machine :=
  (m.store start (storeHead (m.view start) lh)).bwrite start

/-- The loop of `write_log` from `tail` on. -/
def writeLog (start : BlockNo) : Nat → List BlockNo → Machine → Machine
  | _, [], m => m
  | tail, b :: lh, m =>
    writeLog start (tail + 1) lh
      ((m.store (slot start tail) (m.view b)).bwrite (slot start tail))

def commit (start : BlockNo) (lh : List BlockNo) (m : Machine) : Machine :=
  if lh.length > 0 then
    writeHead start [] (installTrans start 0 lh (writeHead start lh (writeLog start 0 lh m)))
  else m

/-- `recover_from_log` on a machine that has just booted from `d`. -/
def recoverFromLog (start : BlockNo) (d : Disk) : Machine :=
  writeHead start [] (installTrans start 0 (headBlocks (d start)) ⟨d, []⟩)

/-- Recovery from `d`, stopped any number of times and at last completed, leaves `d'`. -/
inductive Recovers (start : BlockNo) : Disk → Disk → Prop where
  | completed (d : Disk) : Recovers start d (applyWrites d (recoverFromLog start d).issued)
  | stopped (d : Disk) (k : Nat) {d' : Disk}
      (again : Recovers start (applyWrites d ((recoverFromLog start d).issued.take k)) d') :
      Recovers start d d'

/-- The header and the blocks after it. -/
def InLog (start b : BlockNo) : Prop := ∃ i ≤ LOGBLOCKS, b = start + BitVec.ofNat 32 i

instance decidableInLog (start b : BlockNo) : Decidable (InLog start b) :=
  decidable_of_iff (∃ i, i < LOGBLOCKS + 1 ∧ b = start + BitVec.ofNat 32 i)
    (exists_congr fun _ => and_congr_left fun _ => Nat.lt_succ_iff)

/-- The log on disk `d` is empty: `n` is 0. -/
def LogEmpty (start : BlockNo) (d : Disk) : Prop := d start (Fin.ofNat WORDS 0) = 0

end Xv6.Log
