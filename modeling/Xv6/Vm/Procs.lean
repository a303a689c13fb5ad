import Xv6.Vm.Kernel

/-!
# Vm — Procs

Processes: the functions of `kernel/proc.c` that make, copy and free them, with the functions of
`kernel/vm.c` that they use.

`myproc()` is the parameter `p`.  A call that sleeps is cut where it sleeps: `kwait` is one pass
over the process table, and its caller passes again when it has been woken.
-/

namespace Xv6.Vm
open Xv6.Lib
open Xv6.Raid (Page zeroPage PGSIZE BLOCKS_PER_PAGE MAX_SWAP)

/-! ### Freeing a page table -/

/-- `freewalk` of the level-0 table `pa` below entry `k`.  A valid entry there is a leaf: every
leaf can be read, written or executed. -/
def freewalkL0 (s : Kernel) (r k pa : Nat) : Except String Kernel :=
  if (List.range 512).any fun i => (s.pte r (512 * k + i)).has PTE_V then .error "freewalk: leaf"
  else kfree s pa

/-- One turn of the loop of `freewalk` over a level-1 table. -/
def freewalkEntry0 (r : Nat) (s : Kernel) (k : Nat) : Except String Kernel :=
  match (s.tables r).l0 k with
  | none => .ok s
  | some pa => do
    let s ← freewalkL0 s r k pa
    return setTable s r { s.tables r with l0 := Function.update (s.tables r).l0 k none }

def freewalkL1 (s : Kernel) (r k pa : Nat) : Except String Kernel := do
  let s ← (List.range 512).foldlM (fun s i => freewalkEntry0 r s (512 * k + i)) s
  kfree s pa

/-- One turn of the loop over the root. -/
def freewalkEntry1 (r : Nat) (s : Kernel) (k : Nat) : Except String Kernel :=
  match (s.tables r).l1 k with
  | none => .ok s
  | some pa => do
    let s ← freewalkL1 s r k pa
    return setTable s r { s.tables r with l1 := Function.update (s.tables r).l1 k none }

def freewalk (s : Kernel) (r : Nat) : Except String Kernel := do
  let s ← (List.range 512).foldlM (freewalkEntry1 r) s
  kfree s r

def uvmfree (s : Kernel) (r sz : Nat) : Except String Kernel := do
  let s ← if sz > 0 then uvmunmap s r 0 (pgRoundUp sz / PGSIZE) true else pure s
  freewalk s r

/-! ### Copying memory -/

/-- One turn of the loop of `uvmcopy`, on page `v`; `false` is `goto err`. -/
def uvmcopyPage (s : Kernel) (old new : Nat) (newp : ProcId) (v : Nat) :
    Except String (Bool × Kernel) := do
  match ← walk s old (v * PGSIZE) with
  | none => return (true, s)
  | some e =>
    if e.has PTE_SWAPPED then
      match swapAlloc s with
      | (none, s) => return (false, s)
      | (some newslot, s) =>
        let newblk := SWAP_START_BLOCK + newslot * BLOCKS_PER_PAGE
        let s := setSlot s newslot
          { used := true, proc := none, va := v * PGSIZE, diskBlock := newblk }
        let raid ← Raid.raidCopy s.raid (s.swapSpace (swapIdx e)).diskBlock newblk
        let (found, s) ← walkAlloc { s with raid := raid } new (v * PGSIZE)
        if !found then return (false, s)
        else return (true, setPte s new v (swapCopyPte newslot (s.pte old v)))
    else if !e.has PTE_V then return (true, s)
    else
      match ← kallocUser s newp (v * PGSIZE) with
      | (none, s) => return (false, s)
      | (some mem, s) =>
        let s := setPage s mem (s.mem (pte2Pa e))
        let (mapped, s) ← mappages s new (v * PGSIZE) PGSIZE mem (pteFlags e)
        if mapped then return (true, s)
        else
          let s ← kfree s mem
          return (false, s)

/-- The loop of `uvmcopy` from page `v` on, with the number of pages left. -/
def uvmcopyLoop (old new : Nat) (newp : ProcId) :
    Nat → Nat → Kernel → Except String (Bool × Kernel)
  | 0, _, s => .ok (true, s)
  | n + 1, v, s => do
    let (ok, s) ← uvmcopyPage s old new newp v
    if ok then uvmcopyLoop old new newp n (v + 1) s
    else
      let s ← uvmunmap s new 0 v true
      return (false, s)

/-- `true` is the result 0. -/
def uvmcopy (s : Kernel) (old new sz : Nat) (newp : ProcId) : Except String (Bool × Kernel) :=
  uvmcopyLoop old new newp ((sz + (PGSIZE - 1)) / PGSIZE) 0 s

/-- Store `bytes` in page `pa` from offset `off` on. -/
def storeBytes (s : Kernel) (pa off : Nat) (bytes : List UInt8) : Kernel :=
  setPage s pa fun i =>
    if off ≤ i.val then (bytes[i.val - off]?).getD (s.mem pa i) else s.mem pa i

/-- The loop of `copyout` by process `p`, with a bound on the pages left to write to; `true` is the
result 0. -/
def copyoutLoop (p : ProcId) (r : Nat) :
    Nat → Kernel → Nat → List UInt8 → Except String (Bool × Kernel)
  | 0, s, _, _ => .ok (true, s)
  | n + 1, s, dstva, src =>
    if src = [] then .ok (true, s)
    else do
      let va0 := pgRoundDown dstva
      if va0 ≥ MAXVA then return (false, s)
      let pa0 ← walkaddr s r va0
      let (pa0, s) ← if pa0 = 0 then vmfault s p r va0 else pure (pa0, s)
      if pa0 = 0 then return (false, s)
      match ← walk s r va0 with
      | none => .error "copyout"
      | some e =>
        if !e.has PTE_W then return (false, s)
        else
          let len := PGSIZE - (dstva - va0)
          copyoutLoop p r n (storeBytes s pa0 (dstva - va0) (src.take len)) (va0 + PGSIZE)
            (src.drop len)

def copyout (s : Kernel) (p : ProcId) (r dstva : Nat) (src : List UInt8) :
    Except String (Bool × Kernel) :=
  copyoutLoop p r (src.length + 1) s dstva src

/-! ### Making and freeing a process -/

/-- The table is freed again when a page for it is missing. -/
def procPagetable (s : Kernel) (p : ProcId) : Except String (Option Nat × Kernel) :=
  match uvmcreate s with
  | (none, s) => .ok (none, s)
  | (some r, s) => do
    let (ok, s) ← mappages s r TRAMPOLINE PGSIZE s.trampoline (PTE_R ||| PTE_X)
    if !ok then
      let s ← uvmfree s r 0
      return (none, s)
    else
      let (ok, s) ← mappages s r TRAPFRAME PGSIZE ((s.procs p).trapframe.getD 0) (PTE_R ||| PTE_W)
      if !ok then
        let s ← uvmunmap s r TRAMPOLINE 1 false
        let s ← uvmfree s r 0
        return (none, s)
      else return (some r, s)

def procFreepagetable (s : Kernel) (r sz : Nat) : Except String Kernel := do
  let s ← uvmunmap s r TRAMPOLINE 1 false
  let s ← uvmunmap s r TRAPFRAME 1 false
  uvmfree s r sz

/-- The loop of `freeproc` over the frame table. -/
def dropFrames (ft : FrameTable) (p : ProcId) : FrameTable := fun i =>
  if (ft i).proc = some p then { ft i with used := false, proc := none } else ft i

/-- The loop of `freeproc` over the swap slots. -/
def dropSlots (sw : Nat → SwapSlot) (p : ProcId) : Nat → SwapSlot := fun i =>
  if i < MAX_SWAP ∧ (sw i).proc = some p then { sw i with used := false, proc := none } else sw i

/-- The first part of `freeproc`: the trapframe. -/
def freeTrapframe (s : Kernel) (p : ProcId) : Except String Kernel := do
  let s ← match (s.procs p).trapframe with
    | none => pure s
    | some pa => kfree s pa
  return setProc s p { s.procs p with trapframe := none }

/-- The last part of `freeproc`: the fields of the process, its frames and its slots. -/
def resetProc (s : Kernel) (p : ProcId) : Kernel :=
  let s := setProc s p { s.procs p with
    pagetable := none, sz := 0, pid := 0, parent := none, name := [], chan := none,
    killed := false, xstate := 0 }
  let s := { s with
    frameTable := dropFrames s.frameTable p, swapSpace := dropSlots s.swapSpace p }
  setProc s p { s.procs p with state := .unused }

def freeproc (s : Kernel) (p : ProcId) : Except String Kernel := do
  let s ← freeTrapframe s p
  let s ← match (s.procs p).pagetable with
    | none => pure s
    | some r => procFreepagetable s r (s.procs p).sz
  return resetProc s p

/-- The first process that is not in use. -/
def freeProc (s : Kernel) : Option ProcId :=
  (List.finRange NPROC).find? fun p => (s.procs p).state == .unused

/-- Process `p` with its counters reset, a new pid, and in state `USED`. -/
def startProc (s : Kernel) (p : ProcId) : Kernel :=
  setProc { s with nextpid := s.nextpid + 1 } p { s.procs p with
    pageFaults := 0, pagesEvicted := 0, pagesSwappedIn := 0, pagesSwappedOut := 0,
    residentPages := 0, diskReads := 0, diskWrites := 0, totalDiskLatency := 0, diskOps := 0,
    pid := s.nextpid, state := .used }

def allocproc (s : Kernel) : Except String (Option ProcId × Kernel) :=
  match freeProc s with
  | none => .ok (none, s)
  | some p =>
    match kalloc (startProc s p) with
    | (none, s) => do
      let s ← freeproc (setProc s p { s.procs p with trapframe := none }) p
      return (none, s)
    | (some pa, s) => do
      let s := setProc s p { s.procs p with trapframe := some pa }
      let (table, s) ← procPagetable s p
      let s := setProc s p { s.procs p with pagetable := table }
      if table = none then
        let s ← freeproc s p
        return (none, s)
      else return (some p, s)

/-- The first process. -/
def userinit (s : Kernel) : Except String Kernel := do
  let (p, s) ← allocproc s
  match p with
  | none => .error "userinit"
  | some p => return setProc { s with initproc := p } p { s.procs p with state := .runnable }

/-! ### Fork, exit, wait -/

/-- The child `np` of `p`, after its memory has been copied. -/
def startChild (s : Kernel) (p np : ProcId) : Kernel :=
  setProc s np { s.procs np with
    sz := (s.procs p).sz, regs := { (s.procs p).regs with a0 := 0 }, name := (s.procs p).name,
    parent := some p, state := .runnable }

/-- The pid of the child, or `none` for -1. -/
def kfork (s : Kernel) (p : ProcId) : Except String (Option Int × Kernel) := do
  match ← allocproc s with
  | (none, s) => return (none, s)
  | (some np, s) =>
    match (s.procs p).pagetable, (s.procs np).pagetable with
    | some old, some new => do
      let (ok, s) ← uvmcopy s old new (s.procs p).sz np
      if !ok then
        let s ← freeproc s np
        return (none, s)
      else return (some (s.procs np).pid, startChild s p np)
    | _, _ => .error "kfork"

/-- `wakeup` by process `p`. -/
def wakeup (s : Kernel) (p : ProcId) (chan : Option ProcId) : Kernel :=
  { s with procs := fun q =>
      if q ≠ p ∧ (s.procs q).state = .sleeping ∧ (s.procs q).chan = chan then
        { s.procs q with state := .runnable }
      else s.procs q }

def reparent (s : Kernel) (p : ProcId) : Kernel :=
  (List.finRange NPROC).foldl (fun s pp =>
    if (s.procs pp).parent = some p then
      wakeup (setProc s pp { s.procs pp with parent := some s.initproc }) p (some s.initproc)
    else s) s

def kexit (s : Kernel) (p : ProcId) (status : Int) : Except String Kernel :=
  if p = s.initproc then .error "init exiting"
  else
    let s := reparent s p
    let s := wakeup s p (s.procs p).parent
    .ok (setProc s p { s.procs p with xstate := status, state := .zombie })

/-- The four bytes of an `int`. -/
def intBytes (n : Int) : List UInt8 :=
  (List.range 4).map fun i => UInt8.ofNat ((n % 2 ^ 32).toNat / 256 ^ i)

inductive WaitResult where
  | reaped (pid : Int)
  | failed
  | asleep
  deriving DecidableEq, Repr

/-- The exit status goes to user address `addr`, unless that is 0. -/
def copyStatus (s : Kernel) (p : ProcId) (addr : Nat) (status : Int) :
    Except String (Bool × Kernel) :=
  if addr = 0 then .ok (true, s)
  else
    match (s.procs p).pagetable with
    | none => .error "kwait"
    | some r => copyout s p r addr (intBytes status)

/-- One pass of `kwait`: over the children of `p` up to the first one that has exited.  `chan` is
not cleared when `p` wakes up; it is read of sleeping processes only. -/
def kwait (s : Kernel) (p : ProcId) (addr : Nat) : Except String (WaitResult × Kernel) :=
  match (List.finRange NPROC).find? fun q =>
      (s.procs q).parent == some p && (s.procs q).state == .zombie with
  | some q => do
    let pid := (s.procs q).pid
    let (ok, s) ← copyStatus s p addr (s.procs q).xstate
    if !ok then return (.failed, s)
    else
      let s ← freeproc s q
      return (.reaped pid, s)
  | none =>
    if (∀ q, (s.procs q).parent ≠ some p) ∨ (s.procs p).killed then .ok (.failed, s)
    else .ok (.asleep, setProc s p { s.procs p with chan := some p, state := .sleeping })

end Xv6.Vm
