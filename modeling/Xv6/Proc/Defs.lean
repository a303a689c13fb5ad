import Xv6.Lib.Run

/-!
# Proc — Defs

`kfork`, `kexit` and `kwait` of `kernel/proc.c`, in the critical sections of `wait_lock` and of the
`p->lock`s.

`Pc` is the place of a process in one of the three calls; a step of the machine takes one process
to its next place.  The process that holds `wait_lock` is `waitLock`.  A `p->lock` is held from one
step to another only by a process that has exited and has not been switched away from yet, at
`swtch`.  A step that needs a lock somebody holds leaves everything as it is.

The scheduler is left out: `alive` stands for `SLEEPING`, `RUNNABLE` and `RUNNING`, and a sleeping
`kwait` may go on at any time.  What depends on the rest of the kernel (whether there is memory for a
child, whether `copyout` succeeds, whether the process has been killed) is said by the action.
-/

namespace Xv6.Proc
open Xv6.Lib

abbrev NPROC : Nat := 64
abbrev ProcId := Fin NPROC
abbrev Pid := BitVec 32
abbrev Status := BitVec 32

inductive ProcState where
  | unused | used | alive | zombie
  deriving DecidableEq

inductive Pc where
  /-- in none of the three calls -/
  | user
  /-- in the loop of `allocproc` -/
  | forkScan (i : Nat)
  /-- in `kfork`, after `release(&np->lock)` -/
  | forkBuilt (np : ProcId) (pid : Pid)
  /-- in `kfork`, after `release(&wait_lock)` -/
  | forkReady (np : ProcId) (pid : Pid)
  /-- in `kwait`, before it gets `wait_lock`, or asleep -/
  | waiting (addr : Bool)
  /-- in the loop of `kwait` -/
  | waitScan (addr : Bool) (i : Nat) (havekids : Bool)
  /-- in `kexit`, before it gets `wait_lock` -/
  | exiting (status : Status)
  | exitLocked (status : Status)
  /-- in `kexit`, after `reparent` -/
  | exitReparented (status : Status)
  /-- in `sched`, with its `p->lock` -/
  | swtch
  deriving DecidableEq

structure Procs where
  state : ProcId → ProcState
  pid : ProcId → Pid
  parent : ProcId → Option ProcId
  xstate : ProcId → Status
  pc : ProcId → Pc
  waitLock : Option ProcId
  nextpid : Pid

def initproc : ProcId := ⟨0, by decide⟩

/-- After `userinit`. -/
def userinit : Procs :=
  { state := fun p => if p = initproc then .alive else .unused
    pid := fun p => if p = initproc then 1 else 0
    parent := fun _ => none, xstate := fun _ => 0, pc := fun _ => .user
    waitLock := none, nextpid := 2 }

/-- What a step tells: with the pids of the process and of its child. -/
inductive Event where
  /-- `np->parent = p` -/
  | born (p np : Pid)
  /-- `kfork` returns the pid of the child -/
  | forked (p np : Pid)
  /-- `reparent(p)` -/
  | handed (p : Pid)
  /-- `p->state = ZOMBIE` -/
  | died (p : Pid) (status : Status)
  /-- `kwait` returns `pid`, and has copied the status if it was asked to -/
  | reaped (p pid : Pid) (status : Option Status)
  /-- `kwait` returns -1 as `havekids` is 0 -/
  | noChildren (p : Pid)
  deriving DecidableEq

def goto (s : Procs) (p : ProcId) (pc : Pc) : Procs := { s with pc := Function.update s.pc p pc }

def freeproc (s : Procs) (p : ProcId) : Procs :=
  { s with
    state := Function.update s.state p .unused
    pid := Function.update s.pid p 0
    parent := Function.update s.parent p none
    xstate := Function.update s.xstate p 0 }

/-- `allocproc` has found `np`; it and `kfork` go on up to `release(&np->lock)`. -/
def forkFound (s : Procs) (p np : ProcId) (memory : Bool) : Procs :=
  let pid := s.nextpid
  let s := { s with
    nextpid := s.nextpid + 1
    pid := Function.update s.pid np pid
    state := Function.update s.state np .used }
  if memory then goto s p (.forkBuilt np pid) else goto (freeproc s np) p .user

/-- A turn of the loop of `allocproc`. -/
def forkScan (s : Procs) (p : ProcId) (memory : Bool) (i : Nat) : Procs :=
  if h : i < NPROC then
    if s.pc ⟨i, h⟩ = .swtch then s
    else if s.state ⟨i, h⟩ = .unused then forkFound s p ⟨i, h⟩ memory
    else goto s p (.forkScan (i + 1))
  else goto s p .user

def reparent (s : Procs) (p : ProcId) : Procs :=
  { s with parent := fun pp => if s.parent pp = some p then some initproc else s.parent pp }

/-- A turn of the loop of `kwait`, or what follows it.  `answer` says whether `copyout` succeeds, or
whether the process has been killed. -/
def waitScan (s : Procs) (p : ProcId) (answer addr : Bool) (i : Nat) (havekids : Bool) :
    Option Event × Procs :=
  if h : i < NPROC then
    if s.parent ⟨i, h⟩ = some p then
      if s.pc ⟨i, h⟩ = .swtch then (none, s)
      else if s.state ⟨i, h⟩ = .zombie then
        if addr && !answer then (none, goto { s with waitLock := none } p .user)
        else
          (some (.reaped (s.pid p) (s.pid ⟨i, h⟩) (if addr then some (s.xstate ⟨i, h⟩) else none)),
            goto { freeproc s ⟨i, h⟩ with waitLock := none } p .user)
      else (none, goto s p (.waitScan addr (i + 1) true))
    else (none, goto s p (.waitScan addr (i + 1) havekids))
  else if !havekids then (some (.noChildren (s.pid p)), goto { s with waitLock := none } p .user)
  else if answer then (none, goto { s with waitLock := none } p .user)
  else (none, goto { s with waitLock := none } p (.waiting addr))

/-- The next step of a process in a call. -/
def advance (s : Procs) (p : ProcId) (answer : Bool) : Except String (Option Event × Procs) :=
  match s.pc p with
  | .user => .error "not in a call"
  | .forkScan i => .ok (none, forkScan s p answer i)
  | .forkBuilt np pid =>
    if s.waitLock = none then
      .ok (some (.born (s.pid p) pid),
        goto { s with parent := Function.update s.parent np (some p) } p (.forkReady np pid))
    else .ok (none, s)
  | .forkReady np pid =>
    .ok (some (.forked (s.pid p) pid),
      goto { s with state := Function.update s.state np .alive } p .user)
  | .waiting addr =>
    if s.waitLock = none then .ok (none, goto { s with waitLock := some p } p (.waitScan addr 0 false))
    else .ok (none, s)
  | .waitScan addr i havekids => .ok (waitScan s p answer addr i havekids)
  | .exiting status =>
    if s.waitLock = none then .ok (none, goto { s with waitLock := some p } p (.exitLocked status))
    else .ok (none, s)
  | .exitLocked status => .ok (some (.handed (s.pid p)), goto (reparent s p) p (.exitReparented status))
  | .exitReparented status =>
    .ok (some (.died (s.pid p) status), goto { s with
      xstate := Function.update s.xstate p status
      state := Function.update s.state p .zombie
      waitLock := none } p .swtch)
  | .swtch => .ok (none, goto s p .user)

inductive ProcAct where
  | kfork (p : ProcId)
  | kexit (p : ProcId) (status : Status)
  | kwait (p : ProcId) (addr : Bool)
  /-- the next step of the call that a process is in -/
  | next (p : ProcId) (answer : Bool)

/-- A process that runs in user space makes a call. -/
def enter (s : Procs) (p : ProcId) (pc : Pc) : Except String (Option Event × Procs) :=
  if s.state p = .alive ∧ s.pc p = .user then .ok (none, goto s p pc) else .error "not running"

def procStep : ProcAct → Procs → Except String (Option Event × Procs)
  | .kfork p, s => enter s p (.forkScan 0)
  | .kexit p status, s => if p = initproc then .error "init exiting" else enter s p (.exiting status)
  | .kwait p addr, s => enter s p (.waiting addr)
  | .next p answer, s => advance s p answer

def ProcAct.isFork : ProcAct → Bool
  | .kfork _ => true
  | _ => false

end Xv6.Proc
