import Xv6.Lib.Run

/-!
# Virtio — Defs

The descriptors of the disk driver: `alloc_desc`, `free_desc`, `free_chain`, `alloc3_desc`, and the
calls of `virtio_disk_rw` and `virtio_disk_intr` that use them.

A step is what happens while `vdisk_lock` is held: a call runs until it sleeps or returns.  A call
that sleeps may be woken at any time, more often than `wakeup` does it.  The device is the other
party: it takes chain heads from the available ring and puts them on the used ring.

The contents of the buffers are left out; a buffer is its address.
-/

namespace Xv6.Virtio
open Xv6.Lib

abbrev NUM : Nat := 8
abbrev BSIZE : Nat := 1024

abbrev VRING_DESC_F_NEXT : BitVec 16 := 1
abbrev VRING_DESC_F_WRITE : BitVec 16 := 2
abbrev VIRTIO_BLK_T_IN : BitVec 32 := 0
abbrev VIRTIO_BLK_T_OUT : BitVec 32 := 1

/-- The address of a `struct buf`. -/
abbrev Buf := Nat

/-- What a descriptor can point to. -/
inductive Addr where
  | null
  | op (i : Nat)
  | data (b : Buf)
  | status (i : Nat)

structure Desc where
  addr : Addr
  len : BitVec 32
  flags : BitVec 16
  next : BitVec 16

def Desc.zero : Desc := ⟨.null, 0, 0, 0⟩

structure Info where
  b : Option Buf
  status : BitVec 8

structure BlkReq where
  type : BitVec 32
  reserved : BitVec 32
  sector : BitVec 64

/-- `struct disk`, with the rings, and the `disk` field of every buffer. -/
structure Disk where
  desc : Nat → Desc
  free : Nat → Bool
  info : Nat → Info
  ops : Nat → BlkReq
  availRing : Nat → Nat
  availIdx : BitVec 16
  usedRing : Nat → Nat
  /-- `used->idx` -/
  usedEnd : BitVec 16
  usedIdx : BitVec 16
  bufDisk : Buf → Bool

/-- The disk as `virtio_disk_init` leaves it. -/
def virtioDiskInit : Disk where
  desc _ := Desc.zero
  free _ := true
  info _ := ⟨none, 0⟩
  ops _ := ⟨0, 0, 0⟩
  availRing _ := 0
  availIdx := 0
  usedRing _ := 0
  usedEnd := 0
  usedIdx := 0
  bufDisk _ := false

/-! ### Descriptors -/

/-- `none` for -1. -/
def allocDesc (disk : Disk) : Option Nat × Disk :=
  match (List.range NUM).find? disk.free with
  | none => (none, disk)
  | some i => (some i, { disk with free := Function.update disk.free i false })

def freeDesc (disk : Disk) (i : Nat) : Except String Disk :=
  if i ≥ NUM then .error "free_desc 1"
  else if disk.free i then .error "free_desc 2"
  else .ok { disk with
    desc := Function.update disk.desc i Desc.zero
    free := Function.update disk.free i true }

/-- `free_chain`, with a bound on the turns: each frees a descriptor. -/
def freeChainLoop : Nat → Disk → Nat → Except String Disk
  | 0, _, _ => .error "free_chain: no turn left"
  | turns + 1, disk, i => do
    let flag := (disk.desc i).flags
    let nxt := (disk.desc i).next
    let disk ← freeDesc disk i
    if flag &&& VRING_DESC_F_NEXT ≠ 0 then freeChainLoop turns disk nxt.toNat
    else return disk

def freeChain (disk : Disk) (i : Nat) : Except String Disk := freeChainLoop (NUM + 1) disk i

/-- `free_desc` of `idx[j]`, for the `j` of a list. -/
def freeDescs (idx : Nat → Nat) : List Nat → Disk → Except String Disk
  | [], disk => .ok disk
  | j :: js, disk => do
    let disk ← freeDesc disk (idx j)
    freeDescs idx js disk

/-- The loop of `alloc3_desc` at `i`, with `turns` to go. -/
def alloc3Loop : Nat → Nat → Disk → (Nat → Nat) → Except String (Option (Nat → Nat) × Disk)
  | 0, _, disk, idx => .ok (some idx, disk)
  | turns + 1, i, disk, idx =>
    match allocDesc disk with
    | (none, disk) => do
      let disk ← freeDescs idx (List.range i) disk
      return (none, disk)
    | (some k, disk) => alloc3Loop turns (i + 1) disk (Function.update idx i k)

/-- The array `idx`, or `none` for -1. -/
def alloc3Desc (disk : Disk) : Except String (Option (Nat → Nat) × Disk) :=
  alloc3Loop 3 0 disk fun _ => 0

/-! ### Calls -/

/-- The descriptors of a request are formatted and its head goes to the available ring. -/
def submit (disk : Disk) (idx : Nat → Nat) (b : Buf) (blockno : BitVec 32) (write : Bool) : Disk :=
  let req : BlkReq := ⟨if write then VIRTIO_BLK_T_OUT else VIRTIO_BLK_T_IN, 0,
    (blockno * BitVec.ofNat 32 (BSIZE / 512)).setWidth 64⟩
  let head : Desc := ⟨.op (idx 0), 16, VRING_DESC_F_NEXT, BitVec.ofNat 16 (idx 1)⟩
  let data : Desc := ⟨.data b, BitVec.ofNat 32 BSIZE,
    (if write then 0 else VRING_DESC_F_WRITE) ||| VRING_DESC_F_NEXT, BitVec.ofNat 16 (idx 2)⟩
  let status : Desc := ⟨.status (idx 0), 1, VRING_DESC_F_WRITE, 0⟩
  { disk with
    ops := Function.update disk.ops (idx 0) req
    desc := Function.update (Function.update (Function.update disk.desc (idx 0) head)
      (idx 1) data) (idx 2) status
    info := Function.update disk.info (idx 0) ⟨some b, 0xff⟩
    bufDisk := Function.update disk.bufDisk b true
    availRing := Function.update disk.availRing (disk.availIdx.toNat % NUM) (idx 0)
    availIdx := disk.availIdx + 1 }

/-- The loop of `virtio_disk_intr`, with a bound on the turns. -/
def intrLoop : Nat → Disk → Except String Disk
  | 0, _ => .error "virtio_disk_intr: no turn left"
  | turns + 1, disk =>
    if disk.usedIdx = disk.usedEnd then .ok disk
    else
      let id := disk.usedRing (disk.usedIdx.toNat % NUM)
      if (disk.info id).status ≠ 0 then .error "virtio_disk_intr status"
      else
        match (disk.info id).b with
        | none => .error "kerneltrap"
        | some b => intrLoop turns { disk with
            bufDisk := Function.update disk.bufDisk b false
            usedIdx := disk.usedIdx + 1 }

def virtioDiskIntr (disk : Disk) : Except String Disk := intrLoop (2 ^ 16) disk

/-- Where a call of `virtio_disk_rw` is. -/
inductive Call where
  /-- It has not started, or has returned. -/
  | idle
  /-- It sleeps on `disk.free[0]`. -/
  | asleep (b : Buf) (blockno : BitVec 32) (write : Bool)
  /-- It sleeps on `b`. -/
  | waiting (b : Buf) (idx : Nat → Nat)

structure State where
  disk : Disk
  calls : Nat → Call
  /-- The device has looked this far in the available ring. -/
  seen : BitVec 16
  /-- The chain heads that the device has taken and not reported. -/
  taken : List Nat

def boot : State := ⟨virtioDiskInit, fun _ => .idle, 0, []⟩

def setCall (s : State) (c : Nat) (call : Call) : State :=
  { s with calls := Function.update s.calls c call }

/-- `virtio_disk_rw` from its `while(1)` on, until it sleeps. -/
def rwAlloc (s : State) (c : Nat) (b : Buf) (blockno : BitVec 32) (write : Bool) :
    Except String State := do
  let (idx, disk) ← alloc3Desc s.disk
  match idx with
  | none => return setCall { s with disk := disk } c (.asleep b blockno write)
  | some idx => return setCall { s with disk := submit disk idx b blockno write } c (.waiting b idx)

/-- The end of `virtio_disk_rw`, when `b` is not with the disk. -/
def rwFinish (s : State) (c : Nat) (b : Buf) (idx : Nat → Nat) : Except String State := do
  if s.disk.bufDisk b then return s
  else
    let info : Info := { s.disk.info (idx 0) with b := none }
    let disk ← freeChain { s.disk with info := Function.update s.disk.info (idx 0) info } (idx 0)
    return setCall { s with disk := disk } c .idle

inductive Op where
  /-- A call of `virtio_disk_rw`. -/
  | rw (c : Nat) (b : Buf) (blockno : BitVec 32) (write : Bool)
  /-- A call that sleeps is woken. -/
  | wake (c : Nat)
  | intr
  /-- The device takes the next chain head. -/
  | take
  /-- The device reports chain head `id`, with status 0. -/
  | report (id : Nat)

def step : Op → State → Except String (Unit × State)
  | .rw c b blockno write, s => do
    let s ← rwAlloc s c b blockno write
    return ((), s)
  | .wake c, s =>
    match s.calls c with
    | .idle => .ok ((), s)
    | .asleep b blockno write => do
      let s ← rwAlloc s c b blockno write
      return ((), s)
    | .waiting b idx => do
      let s ← rwFinish s c b idx
      return ((), s)
  | .intr, s => do
    let disk ← virtioDiskIntr s.disk
    return ((), { s with disk := disk })
  | .take, s =>
    .ok ((), { s with seen := s.seen + 1, taken := s.disk.availRing (s.seen.toNat % NUM) :: s.taken })
  | .report id, s =>
    let disk := { s.disk with
      info := Function.update s.disk.info id { s.disk.info id with status := 0 }
      usedRing := Function.update s.disk.usedRing (s.disk.usedEnd.toNat % NUM) id
      usedEnd := s.disk.usedEnd + 1 }
    .ok ((), { s with disk := disk, taken := s.taken.erase id })

def Call.isIdle : Call → Bool
  | .idle => true
  | _ => false

/-- A call starts once, and the device takes what the ring holds and reports what it has taken. -/
def Op.Callable : Op → State → Prop
  | .rw c _ _ _, s => (s.calls c).isIdle = true
  | .wake _, _ => True
  | .intr, _ => True
  | .take, s => s.seen ≠ s.disk.availIdx
  | .report id, s => id ∈ s.taken

instance (o : Op) (s : State) : Decidable (o.Callable s) :=
  match o with
  | .rw _ _ _ _ => inferInstanceAs (Decidable (_ = _))
  | .wake _ => isTrue trivial
  | .intr => isTrue trivial
  | .take => inferInstanceAs (Decidable (¬ _))
  | .report _ => inferInstanceAs (Decidable (_ ∈ _))

end Xv6.Virtio
