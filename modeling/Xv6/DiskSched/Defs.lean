import Xv6.Lib.Run

/-!
# DiskSched — Definitions

`kernel/disksched.c`: the queue of pending disk requests, its two selection policies, and the
three entry points that change it.

Each entry point takes `dq_lock` once per turn and releases it before the I/O.  `submitLocked` and
`flushLocked` are the critical sections of `disksched_submit` and of one turn of the loop of
`disksched_flush`; they return the request whose I/O the caller then performs outside the lock, or
nothing when it returns at once.  The machine at the end interleaves the critical sections and
the I/O of any number of calls.
-/

namespace Xv6.DiskSched
open Xv6.Lib

/-! ### The queue -/

abbrev MAX_DISK_QUEUE : Nat := 64
def ROTATIONAL_CONST : UInt32 := 5

/-- What the scheduler reads of a `struct buf`: which buffer it is, and its block. -/
structure Buf where
  id : Nat
  blockno : UInt32
  deriving DecidableEq, Repr

/-- `struct disk_req`. -/
structure DiskReq where
  buf : Buf
  write : Bool
  blockno : UInt32
  priority : Int
  pid : Int
  valid : Bool
  seq : UInt32
  deriving DecidableEq, Repr

/-- `DISK_SCHED_FCFS` and `DISK_SCHED_SSTF`. -/
inductive Policy where
  | fcfs
  | sstf
  deriving DecidableEq, Repr

/-- The static variables of `disksched.c`. -/
structure Sched where
  dq : Fin MAX_DISK_QUEUE → DiskReq
  dqSize : Int
  dqSeq : UInt32
  currentHead : UInt32
  schedPolicy : Policy
  totalLatency : UInt64
  totalOps : UInt64

/-- What the scheduler reads of `myproc()`: its MLFQ level, one of 0 to 3, and its pid. -/
structure CallerProc where
  level : Int
  pid : Int
  level_nonneg : 0 ≤ level
  level_le : level ≤ 3

/-- `disksched_init`, from any earlier contents of the statics. -/
def diskschedInit (s : Sched) : Sched :=
  { dq := fun i => { s.dq i with valid := false }, dqSize := 0, dqSeq := 0, currentHead := 0,
    schedPolicy := .fcfs, totalLatency := 0, totalOps := 0 }

/-- `disksched_set_policy`; any other integer panics. -/
def diskschedSetPolicy (s : Sched) (policy : Int) : Except String Sched :=
  if policy = 0 then .ok { s with schedPolicy := .fcfs }
  else if policy = 1 then .ok { s with schedPolicy := .sstf }
  else .error "disksched_set_policy: invalid policy"

/-- `dq_alloc_slot`: the first slot that is not valid; `none` is `-1`. -/
def dqAllocSlot (s : Sched) : Option (Fin MAX_DISK_QUEUE) :=
  (List.finRange MAX_DISK_QUEUE).find? fun i => !(s.dq i).valid

/-! ### Selection -/

/-- One turn of the loop of `pick_fcfs`, on `(best, best_seq)`. -/
def fcfsTurn (s : Sched) (acc : Option (Fin MAX_DISK_QUEUE) × UInt32) (i : Fin MAX_DISK_QUEUE) :
    Option (Fin MAX_DISK_QUEUE) × UInt32 :=
  if (s.dq i).valid = false then acc
  else if (s.dq i).seq < acc.2 then (some i, (s.dq i).seq)
  else acc

def pickFcfs (s : Sched) : Option (Fin MAX_DISK_QUEUE) :=
  ((List.finRange MAX_DISK_QUEUE).foldl (fcfsTurn s) (none, 0xFFFFFFFF)).1

/-- The distance of a block to the head, as both `pick_sstf` and
`compute_and_record_latency` compute it. -/
def seekDist (blockno head : UInt32) : UInt32 :=
  if blockno > head then blockno - head else head - blockno

/-- One turn of the loop of `pick_sstf`, on `(best, best_dist, best_prio)`. -/
def sstfTurn (s : Sched) (acc : Option (Fin MAX_DISK_QUEUE) × UInt32 × Int)
    (i : Fin MAX_DISK_QUEUE) : Option (Fin MAX_DISK_QUEUE) × UInt32 × Int :=
  if (s.dq i).valid = false then acc
  else
    let dist := seekDist (s.dq i).blockno s.currentHead
    if dist < acc.2.1 ∨ (dist = acc.2.1 ∧ (s.dq i).priority < acc.2.2) then
      (some i, dist, (s.dq i).priority)
    else acc

def pickSstf (s : Sched) : Option (Fin MAX_DISK_QUEUE) :=
  ((List.finRange MAX_DISK_QUEUE).foldl (sstfTurn s) (none, 0xFFFFFFFF, 0x7FFFFFFF)).1

/-- The selection by the current policy. -/
def pick (s : Sched) : Option (Fin MAX_DISK_QUEUE) :=
  match s.schedPolicy with
  | .sstf => pickSstf s
  | .fcfs => pickFcfs s

def computeAndRecordLatency (s : Sched) (blockno : UInt32) : Sched :=
  let latency := seekDist blockno s.currentHead + ROTATIONAL_CONST
  { s with totalLatency := s.totalLatency + latency.toUInt64, totalOps := s.totalOps + 1 }

/-- Take the chosen request out of the queue, record its latency and move the head. -/
def extract (s : Sched) (chosen : Fin MAX_DISK_QUEUE) : (Buf × Bool) × Sched :=
  let r := s.dq chosen
  let s := { s with dq := Function.update s.dq chosen { r with valid := false },
                    dqSize := s.dqSize - 1 }
  let s := computeAndRecordLatency s r.blockno
  ((r.buf, r.write), { s with currentHead := r.blockno })

/-! ### Critical sections -/

/-- `dq[slot].priority`: the caller's level, or `99` for the kernel without a process. -/
def reqPriority : Option CallerProc → Int
  | some p => p.level
  | none => 99

def reqPid : Option CallerProc → Int
  | some p => p.pid
  | none => -1

/-- The new request in slot `slot`. -/
def enqueue (s : Sched) (slot : Fin MAX_DISK_QUEUE) (b : Buf) (write : Bool)
    (p : Option CallerProc) : Sched :=
  let r : DiskReq :=
    { buf := b, write := write, blockno := b.blockno,
      priority := reqPriority p, pid := reqPid p, valid := true, seq := s.dqSeq }
  { s with dq := Function.update s.dq slot r, dqSeq := s.dqSeq + 1, dqSize := s.dqSize + 1 }

/-- `disksched_submit` from `acquire` to `release`. -/
def submitLocked (s : Sched) (b : Buf) (write : Bool) (p : Option CallerProc) :
    Except String (Option (Buf × Bool) × Sched) :=
  match dqAllocSlot s with
  | none => .error "disksched: queue full"
  | some slot =>
    let s := enqueue s slot b write p
    match pick s with
    | none => .ok (none, s)
    | some chosen =>
      let (req, s) := extract s chosen
      .ok (some req, s)

/-- One turn of `disksched_flush` from `acquire` to `release`. -/
def flushLocked (s : Sched) : Option (Buf × Bool) × Sched :=
  if s.dqSize = 0 then (none, s)
  else
    match pick s with
    | none => (none, s)
    | some chosen =>
      let (req, s) := extract s chosen
      (some req, s)

/-! ### Any number of calls -/

/-- Where a call is.  A submitter that has left its critical section with a request performs that
request's I/O next; a flusher then starts its next turn. -/
inductive CallState where
  | idle
  | submitting (b : Buf) (write : Bool) (p : Option CallerProc)
  | submitIo (b : Buf) (write : Bool) (chosen : Buf × Bool)
  | submitted (b : Buf) (write : Bool)
  | flushing
  | flushIo (chosen : Buf × Bool)
  | flushed

/-- An issue of `virtio_disk_rw`: by which call, and for what. -/
structure Io where
  call : Nat
  buf : Buf
  write : Bool
  deriving DecidableEq

/-- The scheduler, the calls by number, and the I/O issued so far, oldest first. -/
structure Config where
  sched : Sched
  calls : Nat → CallState
  issued : List Io

/-- A scheduling choice: which call moves, and for a new call its arguments. -/
inductive Label where
  | callSubmit (k : Nat) (b : Buf) (write : Bool) (p : Option CallerProc)
  | callFlush (k : Nat)
  | setPolicy (policy : Int)
  | move (k : Nat)

/-- A choice that is not possible, or a panic. -/
inductive Stop where
  | notEnabled
  | panic (msg : String)

def setCall (c : Config) (k : Nat) (st : CallState) : Config :=
  { c with calls := Function.update c.calls k st }

/-- One step of the system, at the granularity of `dq_lock`. -/
def step (l : Label) (c : Config) : Except Stop (Unit × Config) :=
  match l with
  | .setPolicy policy =>
    match diskschedSetPolicy c.sched policy with
    | .error msg => .error (.panic msg)
    | .ok s => .ok ((), { c with sched := s })
  | .callSubmit k b write p =>
    match c.calls k with
    | .idle => .ok ((), setCall c k (.submitting b write p))
    | _ => .error .notEnabled
  | .callFlush k =>
    match c.calls k with
    | .idle => .ok ((), setCall c k .flushing)
    | _ => .error .notEnabled
  | .move k =>
    match c.calls k with
    | .submitting b write p =>
      match submitLocked c.sched b write p with
      | .error msg => .error (.panic msg)
      | .ok (none, s) => .ok ((), setCall { c with sched := s } k (.submitted b write))
      | .ok (some chosen, s) =>
        .ok ((), setCall { c with sched := s } k (.submitIo b write chosen))
    | .submitIo b write chosen =>
      .ok ((), setCall { c with issued := c.issued ++ [⟨k, chosen.1, chosen.2⟩] } k
        (.submitted b write))
    | .flushing =>
      match flushLocked c.sched with
      | (none, s) => .ok ((), setCall { c with sched := s } k .flushed)
      | (some chosen, s) => .ok ((), setCall { c with sched := s } k (.flushIo chosen))
    | .flushIo chosen =>
      .ok ((), setCall { c with issued := c.issued ++ [⟨k, chosen.1, chosen.2⟩] } k .flushing)
    | _ => .error .notEnabled

/-- `disksched_init`, before any call. -/
def initConfig (s : Sched) : Config :=
  { sched := diskschedInit s, calls := fun _ => .idle, issued := [] }

end Xv6.DiskSched
