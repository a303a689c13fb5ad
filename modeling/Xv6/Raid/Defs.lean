import Xv6.Lib.Run

/-!
# Raid — Definitions

`kernel/raid.c` and `kernel/raid.h`: four simulated disks of 512 blocks of 1024 bytes, a failure
flag for each disk, and the modes RAID-0, RAID-1 and RAID-5 over them.  A logical block number is
a `uint32`; a page is `BLOCKS_PER_PAGE` consecutive logical blocks.

A C function that may `panic` returns in `Except String`, with the panic message as the error.
Each public function runs with `raid_lock` held from its first to its last statement, so a call
is one atomic step of the machine; the lock itself is not part of the state.
-/

namespace Xv6.Raid
open Xv6.Lib

/-! ### Geometry -/

abbrev BSIZE : Nat := 1024
abbrev PGSIZE : Nat := 4096
abbrev NUM_DISKS : Nat := 4
abbrev DISK_BLOCKS : Nat := 512
abbrev BLOCKS_PER_PAGE : Nat := 4
abbrev DATA_DISKS : Nat := 3
abbrev MAX_SWAP : Nat := 128

/-- The bytes of one disk block. -/
abbrev Block := Fin BSIZE → UInt8

/-- The bytes of one page. -/
abbrev Page := Fin PGSIZE → UInt8

/-- `memset(b, 0, BSIZE)`. -/
def zeroBlock : Block := fun _ => 0

def zeroPage : Page := fun _ => 0

/-- The `BSIZE` bytes at `page + i * BSIZE`. -/
def Page.block (p : Page) (i : Fin BLOCKS_PER_PAGE) : Block :=
  fun j => p ⟨i.val * BSIZE + j.val, by
    have := i.isLt; have := j.isLt; simp only [BSIZE, PGSIZE, BLOCKS_PER_PAGE] at *; omega⟩

theorem mod_BSIZE_lt (j : Fin PGSIZE) : j.val % BSIZE < BSIZE := Nat.mod_lt _ (by decide)

/-- `memmove(page + i * BSIZE, b, BSIZE)`. -/
def Page.setBlock (p : Page) (i : Fin BLOCKS_PER_PAGE) (b : Block) : Page :=
  fun j => if j.val / BSIZE = i.val then b ⟨j.val % BSIZE, mod_BSIZE_lt j⟩ else p j

/-- `xor_block(dst, src)`. -/
def xorBlock (dst src : Block) : Block := fun i => dst i ^^^ src i

/-! ### The state -/

/-- `RAID_MODE_0`, `RAID_MODE_1`, `RAID_MODE_5`. -/
inductive RaidMode where
  | mode0
  | mode1
  | mode5
  deriving DecidableEq, Repr

/-- The integer a mode is written as in `raid.h`. -/
def RaidMode.toInt : RaidMode → Int
  | .mode0 => 0
  | .mode1 => 1
  | .mode5 => 5

/-- The static variables of `raid.c`. -/
structure State where
  simDisk : Nat → Nat → Block
  diskFailed : Nat → Bool
  raidMode : RaidMode
  raidCopyBuf : Page

/-- The statics before `raid_init`: zero-initialised. -/
def bootState : State :=
  { simDisk := fun _ _ => zeroBlock, diskFailed := fun _ => false, raidMode := .mode0,
    raidCopyBuf := zeroPage }

/-- `sim_disk` with row `blk` of disk `d` replaced by `b`. -/
def setRow (disk : Nat → Nat → Block) (d blk : Nat) (b : Block) : Nat → Nat → Block :=
  fun d' blk' => if d' = d ∧ blk' = blk then b else disk d' blk'

/-! ### Physical blocks -/

def physWriteBlock (s : State) (diskId : Int) (blk : Nat) (src : Block) : Except String State :=
  if diskId < 0 ∨ diskId ≥ NUM_DISKS then .error "raid: phys_write bad disk"
  else if blk ≥ DISK_BLOCKS then .error "raid: phys_write block out of range"
  else if s.diskFailed diskId.toNat then .ok s
  else .ok { s with simDisk := setRow s.simDisk diskId.toNat blk src }

/-- `none` is the return value `-1` of a failed disk, which leaves the buffer alone. -/
def physReadBlock (s : State) (diskId : Int) (blk : Nat) : Except String (Option Block) :=
  if diskId < 0 ∨ diskId ≥ NUM_DISKS then .error "raid: phys_read bad disk"
  else if blk ≥ DISK_BLOCKS then .error "raid: phys_read block out of range"
  else if s.diskFailed diskId.toNat then .ok none
  else .ok (some (s.simDisk diskId.toNat blk))

/-! ### RAID-0 -/

def raid0Write (s : State) (lb : Nat) (src : Block) : Except String State :=
  physWriteBlock s (lb % NUM_DISKS : Nat) (lb / NUM_DISKS) src

def raid0Read (s : State) (lb : Nat) : Except String Block := do
  match ← physReadBlock s (lb % NUM_DISKS : Nat) (lb / NUM_DISKS) with
  | some b => .ok b
  | none => .error "raid0: disk failed"

/-! ### RAID-1 -/

def raid1Write (s : State) (lb : Nat) (src : Block) : Except String State := do
  let s ← physWriteBlock s 0 lb src
  physWriteBlock s 1 lb src

def raid1Read (s : State) (lb : Nat) : Except String Block := do
  match ← physReadBlock s 0 lb with
  | some b => .ok b
  | none =>
    match ← physReadBlock s 1 lb with
    | some b => .ok b
    | none => .error "raid1: both mirrors failed"

/-! ### RAID-5 -/

def raid5ParityDisk (stripe : Nat) : Nat := stripe % NUM_DISKS

def raid5DataDisk (stripe d : Nat) : Nat := (raid5ParityDisk stripe + 1 + d) % NUM_DISKS

/-- The data block is written, then the parity is recomputed from the data blocks that can be
read; a block on a failed disk is skipped. -/
def raid5Write (s : State) (lb : Nat) (src : Block) : Except String State := do
  let stripe := lb / DATA_DISKS
  let thisD := raid5DataDisk stripe (lb % DATA_DISKS)
  let parD := raid5ParityDisk stripe
  let s ← physWriteBlock s thisD stripe src
  let parity ← (List.range DATA_DISKS).foldlM (fun parity d => do
    match ← physReadBlock s (raid5DataDisk stripe d) stripe with
    | some tmp => return xorBlock parity tmp
    | none => return parity) zeroBlock
  physWriteBlock s parD stripe parity

def raid5Read (s : State) (lb : Nat) : Except String Block := do
  let stripe := lb / DATA_DISKS
  let thisD := raid5DataDisk stripe (lb % DATA_DISKS)
  let parD := raid5ParityDisk stripe
  match ← physReadBlock s thisD stripe with
  | some b => .ok b
  | none =>
    -- reconstruction: XOR all surviving disks, data and parity
    let rec' ← (List.range DATA_DISKS).foldlM (fun acc d => do
      if raid5DataDisk stripe d = thisD then return acc
      match ← physReadBlock s (raid5DataDisk stripe d) stripe with
      | some tmp => return xorBlock acc tmp
      | none => .error "raid5: two disks failed") zeroBlock
    match ← physReadBlock s parD stripe with
    | some ptmp => .ok (xorBlock rec' ptmp)
    | none => .error "raid5: parity disk also failed"

/-! ### The public interface -/

/-- `raid_copy_buf` is static scratch space that `raid_init` leaves alone. -/
def raidInit (s : State) : State :=
  { s with raidMode := .mode0, diskFailed := fun _ => false, simDisk := fun _ _ => zeroBlock }

def raidSetmode (s : State) (mode : Int) : Except String State :=
  if mode = RaidMode.mode0.toInt then .ok { s with raidMode := .mode0 }
  else if mode = RaidMode.mode1.toInt then .ok { s with raidMode := .mode1 }
  else if mode = RaidMode.mode5.toInt then .ok { s with raidMode := .mode5 }
  else .error "raid_setmode: invalid mode"

def raidGetmode (s : State) : Int := s.raidMode.toInt

def setFailed (s : State) (d : Nat) (b : Bool) : State :=
  { s with diskFailed := Function.update s.diskFailed d b }

def raidFailDisk (s : State) (d : Int) : Except String State :=
  if d < 0 ∨ d ≥ NUM_DISKS then .error "raid_fail_disk" else .ok (setFailed s d.toNat true)

def raidRestoreDisk (s : State) (d : Int) : Except String State :=
  if d < 0 ∨ d ≥ NUM_DISKS then .error "raid_restore_disk" else .ok (setFailed s d.toNat false)

/-- The `switch(raid_mode)` of `raid_write` and of the second loop of `raid_copy`. -/
def writeBlock (s : State) (lb : Nat) (src : Block) : Except String State :=
  match s.raidMode with
  | .mode0 => raid0Write s lb src
  | .mode1 => raid1Write s lb src
  | .mode5 => raid5Write s lb src

/-- The `switch(raid_mode)` of `raid_read` and of the first loop of `raid_copy`. -/
def readBlock (s : State) (lb : Nat) : Except String Block :=
  match s.raidMode with
  | .mode0 => raid0Read s lb
  | .mode1 => raid1Read s lb
  | .mode5 => raid5Read s lb

/-- `lblock + i`, in `uint32`. -/
def lblockAt (lblock : Nat) (i : Fin BLOCKS_PER_PAGE) : Nat := (lblock + i.val) % 2 ^ 32

def raidWrite (s : State) (lblock : Nat) (src : Page) : Except String State :=
  (List.finRange BLOCKS_PER_PAGE).foldlM
    (fun s i => writeBlock s (lblockAt lblock i) (src.block i)) s

/-- `dst` is the caller's buffer; the returned page is the buffer afterwards. -/
def raidRead (s : State) (lblock : Nat) (dst : Page) : Except String Page :=
  (List.finRange BLOCKS_PER_PAGE).foldlM
    (fun dst i => do
      let b ← readBlock s (lblockAt lblock i)
      return dst.setBlock i b) dst

def raidCopy (s : State) (srcLblock dstLblock : Nat) : Except String State := do
  let buf ← raidRead s srcLblock s.raidCopyBuf
  raidWrite { s with raidCopyBuf := buf } dstLblock buf

end Xv6.Raid
