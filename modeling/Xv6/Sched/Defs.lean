import Xv6.Vm.Kernel

/-!
# Sched — Definitions

The multi-level feedback queue: `scheduler`, `yield`, `sleep`, `wakeup`, `allocproc` and their
callers in `kernel/proc.c`, `syscall` in `kernel/syscall.c`, and the timer branches of `usertrap`
and `kerneltrap` in `kernel/trap.c`.

Every CPU runs its own copy of this code, and the copies interleave.  A step of the machine is one
critical section of a `p->lock`, or one access of the timer branches to a variable that they share
without a lock, so a state of the machine is one in which every `p->lock` is free:

* `yield` and `sleep` hold `p->lock` from the change of `p->state` until `scheduler` has done its
  accounting after `swtch`, so the two together are one step;
* a dispatch holds it from the test of `p->state` until the process releases it;
* the three boost loops, and the search of `scheduler`, take the lock of one process at a time, and
  other CPUs run between two turns of such a loop;
* `mlfq_global_ticks++` and `p->used_ticks++`, which take no lock, are a load and a store each, and
  other CPUs run in between.  `p->total_ticks[p->level]++` is one step: no other CPU writes the count.

`CpuPc` is the place of a CPU in this code.  Interrupts are off at every place but `top` and `run`.
-/

namespace Xv6.Sched
open Xv6.Lib
open Xv6.Vm (NPROC ProcId ProcState asInt)

/-! ### Processes -/

abbrev NCPU : Nat := 8
abbrev CpuId := Fin NCPU

def quantumTimes : List Nat := [2, 4, 8, 16]

/-- `quantum_times[level]`. -/
def quantum (level : Nat) : Nat := quantumTimes.getD level 0

/-- Where `swtch` resumes a process: `forkret`, or the call of `sched` in `sleep` or `yield`. -/
inductive Context where
  | forkret
  | sleep
  | yield
  deriving DecidableEq, Repr

/-- The fields of `struct proc` that the scheduler uses, and a register: `loaded` is the value of
`used_ticks` between the load and the store of `p->used_ticks++`. -/
structure Task where
  state : ProcState
  context : Context
  syscount : Nat
  level : Nat
  usedTicks : Nat
  loaded : Option Nat
  totalTicks : Nat → Nat
  timesScheduled : Nat
  sliceStartSyscount : Int

/-- The changes that kernel code makes to other processes: `allocproc`, the end of `kfork`, the
error paths of `allocproc` and `kfork`, `kwait`, and `wakeup` or `kkill`. -/
inductive Change where
  | alloc
  | start
  | abandon
  | reap
  | wake
  deriving DecidableEq, Repr

/-- What can happen to one process: while its lock is held, or by an access of its timer branch. -/
inductive Event where
  | change (k : Change)
  | dispatch
  | load
  | tick
  | charge
  | yield
  | sleep
  | exit
  | syscall
  | boost
  | trapBoost
  deriving DecidableEq, Repr

/-- The state in which a change finds its process. -/
def Change.before : Change → ProcState
  | .alloc => .unused
  | .start => .used
  | .abandon => .used
  | .reap => .zombie
  | .wake => .sleeping

def Change.apply (t : Task) : Change → Task
  | .alloc =>
      { state := .used
        context := .forkret
        syscount := 0
        level := 0
        usedTicks := 0
        loaded := none
        totalTicks := fun _ => 0
        timesScheduled := 0
        sliceStartSyscount := 0 }
  | .start => { t with state := .runnable }
  | .abandon => { t with state := .unused }
  | .reap => { t with state := .unused }
  | .wake => { t with state := .runnable }

/-- `delS`.  The subtraction is one of `uint64`s, and its result is stored in an `int`. -/
def Task.delS (t : Task) : Int := asInt (t.syscount - t.sliceStartSyscount)

/-- `scheduler` after `swtch`. -/
def Task.account (t : Task) : Task :=
  if quantum t.level ≤ t.usedTicks then
    { t with
      level := if t.delS < t.usedTicks then if t.level < 3 then t.level + 1 else t.level else t.level
      usedTicks := 0 }
  else t

/-- `scheduler` before `swtch`. -/
def Task.dispatch (t : Task) : Task :=
  { t with
    timesScheduled := t.timesScheduled + 1
    sliceStartSyscount := asInt t.syscount
    state := .running }

/-- The load of `p->used_ticks++`. -/
def Task.load (t : Task) : Task := { t with loaded := some t.usedTicks }

/-- The store of `p->used_ticks++`. -/
def Task.tick (t : Task) : Task :=
  match t.loaded with
  | some n => { t with usedTicks := n + 1, loaded := none }
  | none => t

/-- `p->total_ticks[p->level]++`. -/
def Task.charge (t : Task) : Task :=
  { t with totalTicks := fun l => if l = t.level then t.totalTicks l + 1 else t.totalTicks l }

/-- One turn of the boost loop of `scheduler`. -/
def Task.boost (t : Task) : Task :=
  if t.state = .runnable ∨ t.state = .running then { t with level := 0, usedTicks := 0 } else t

/-- One turn of the boost loop of `usertrap`, or of `kerneltrap`. -/
def Task.trapBoost (t : Task) : Task :=
  if t.state = .runnable then { t with level := 0 } else t

def Event.apply (t : Task) : Event → Task
  | .change k => k.apply t
  | .dispatch => t.dispatch
  | .load => t.load
  | .tick => t.tick
  | .charge => t.charge
  | .yield => Task.account { t with state := .runnable, context := .yield }
  | .sleep => Task.account { t with state := .sleeping, context := .sleep }
  | .exit => Task.account { t with state := .zombie }
  | .syscall => { t with syscount := (t.syscount + 1) % 2 ^ 64 }
  | .boost => t.boost
  | .trapBoost => t.trapBoost

/-! ### CPUs -/

inductive CpuPc where
  /-- The head of the loop of `scheduler`. -/
  | top
  /-- The boost loop of `scheduler`, at `proc[i]`; it holds `tickslock`. -/
  | boost (i : ProcId)
  /-- The search of `scheduler`. -/
  | scan (level offset : Nat)
  /-- The code of `p`, in user mode or in the kernel. -/
  | run (p : ProcId)
  /-- A timer branch in `p`, before `mlfq_global_ticks++`. -/
  | trapped (p : ProcId)
  /-- The same, with `n` loaded from `mlfq_global_ticks`. -/
  | counting (p : ProcId) (n : Nat)
  /-- A timer branch in `p`, before the test of `p->state`. -/
  | counted (p : ProcId)
  /-- The same, with `p->used_ticks` loaded. -/
  | ticking (p : ProcId)
  /-- A timer branch in `p`, before `p->total_ticks[p->level]++`. -/
  | charging (p : ProcId)
  /-- A timer branch in `p`, before `yield`. -/
  | ticked (p : ProcId)
  /-- A timer branch in `p`, after `yield`. -/
  | yielded (p : ProcId)
  /-- The boost loop of a timer branch in `p`, at `proc[i]`. -/
  | trapBoost (p i : ProcId)
  deriving DecidableEq, Repr

/-- `proc[]`, the CPUs, and the global variables. -/
structure System where
  tasks : ProcId → Task
  cpus : CpuId → CpuPc
  ticks : UInt32
  tickslock : Bool
  prevB : UInt32
  prevI : Nat
  mlfqGlobalTicks : Nat

/-- What a CPU does next.  `visit` is one turn of the loop that it is in. -/
inductive Act where
  | enter
  | visit
  | timer
  | load
  | store
  | yield
  | resume
  | sleep
  | exit
  | syscall
  | change (k : Change) (q : ProcId)
  deriving DecidableEq, Repr

/-- The process that a step changes, if any, and how. -/
abbrev Label := Option (ProcId × Event)

def firstProc : ProcId := ⟨0, by decide⟩

/-- `p++` in a loop over `proc[]`. -/
def nextProc (p : ProcId) : Option ProcId :=
  if h : p.val + 1 < NPROC then some ⟨p.val + 1, h⟩ else none

def setPc (s : System) (c : CpuId) (pc : CpuPc) : System :=
  { s with cpus := fun d => if d = c then pc else s.cpus d }

def touch (s : System) (p : ProcId) (e : Event) : System :=
  { s with tasks := fun q => if q = p then e.apply (s.tasks p) else s.tasks q }

/-- `&proc[(prev_i + offset) % NPROC]`. -/
def procAt (s : System) (offset : Nat) : ProcId :=
  ⟨(s.prevI + offset) % NPROC, Nat.mod_lt _ (by decide)⟩

/-- The next turn of the two loops of the search, or `wfi` and the head of the loop. -/
def scanNext (level offset : Nat) : CpuPc :=
  if offset + 1 < NPROC then .scan level (offset + 1)
  else if level + 1 < 4 then .scan (level + 1) 0
  else .top

def resumeAt (p : ProcId) : Context → CpuPc
  | .yield => .yielded p
  | _ => .run p

/-- `scheduler` switches to `p`. -/
def dispatch (s : System) (c : CpuId) (p : ProcId) : System :=
  { setPc (touch s p .dispatch) c (resumeAt p (s.tasks p).context) with
    prevI := (p.val + 1) % NPROC }

/-- `clockintr`. -/
def clockintr (c : CpuId) (s : System) : Except String System :=
  if c.val = 0 then
    if s.tickslock then .error "tickslock is held"
    else .ok { s with ticks := s.ticks + 1 }
  else .ok s

/-- One step of a CPU.  It fails if the CPU is not at a place where it can do this. -/
def step (o : CpuId × Act) (s : System) : Except String (Label × System) :=
  match s.cpus o.1, o.2 with
  | .top, .enter =>
      if s.tickslock then .error "tickslock is held"
      else if 128 ≤ s.ticks - s.prevB then
        .ok (none, { setPc s o.1 (.boost firstProc) with prevB := s.ticks, tickslock := true })
      else .ok (none, setPc s o.1 (.scan 0 0))
  | .boost i, .visit =>
      match nextProc i with
      | some j => .ok (some (i, .boost), setPc (touch s i .boost) o.1 (.boost j))
      | none =>
          .ok (some (i, .boost), { setPc (touch s i .boost) o.1 (.scan 0 0) with tickslock := false })
  | .scan level offset, .visit =>
      if (s.tasks (procAt s offset)).state = .runnable ∧ (s.tasks (procAt s offset)).level = level then
        .ok (some (procAt s offset, .dispatch), dispatch s o.1 (procAt s offset))
      else .ok (none, setPc s o.1 (scanNext level offset))
  | .top, .timer => do
      let s ← clockintr o.1 s
      return (none, s)
  | .run p, .timer => do
      let s ← clockintr o.1 s
      return (none, setPc s o.1 (.trapped p))
  | .trapped p, .load => .ok (none, setPc s o.1 (.counting p s.mlfqGlobalTicks))
  | .counting p n, .store => .ok (none, { setPc s o.1 (.counted p) with mlfqGlobalTicks := n + 1 })
  | .counted p, .load =>
      if (s.tasks p).state = .running then
        .ok (some (p, .load), setPc (touch s p .load) o.1 (.ticking p))
      else .ok (none, setPc s o.1 (.yielded p))
  | .ticking p, .store => .ok (some (p, .tick), setPc (touch s p .tick) o.1 (.charging p))
  | .charging p, .store => .ok (some (p, .charge), setPc (touch s p .charge) o.1 (.ticked p))
  | .ticked p, .yield => .ok (some (p, .yield), setPc (touch s p .yield) o.1 .top)
  | .yielded p, .resume =>
      .ok (none, setPc s o.1 (if s.mlfqGlobalTicks % 128 = 0 then .trapBoost p firstProc else .run p))
  | .trapBoost p i, .visit =>
      .ok (some (i, .trapBoost), setPc (touch s i .trapBoost) o.1
        (match nextProc i with
          | some j => .trapBoost p j
          | none => .run p))
  | .run p, .sleep => .ok (some (p, .sleep), setPc (touch s p .sleep) o.1 .top)
  | .run p, .exit => .ok (some (p, .exit), setPc (touch s p .exit) o.1 .top)
  -- `usertrap` lets a killed process exit before the timer branch
  | .trapped p, .exit => .ok (some (p, .exit), setPc (touch s p .exit) o.1 .top)
  | .run p, .syscall => .ok (some (p, .syscall), touch s p .syscall)
  | .run _, .change k q =>
      if (s.tasks q).state = k.before then .ok (some (q, .change k), touch s q (.change k))
      else .error "no such process"
  | .top, .change .wake q =>
      if (s.tasks q).state = .sleeping then .ok (some (q, .change .wake), touch s q (.change .wake))
      else .error "no such process"
  -- the `wakeup` of `clockintr`
  | .trapped _, .change .wake q =>
      if (s.tasks q).state = .sleeping then .ok (some (q, .change .wake), touch s q (.change .wake))
      else .error "no such process"
  | _, _ => .error "not at this place"

/-! ### Boot -/

/-- A zeroed `struct proc`. -/
def zeroTask : Task where
  state := .unused
  context := .forkret
  syscount := 0
  level := 0
  usedTicks := 0
  loaded := none
  totalTicks := fun _ => 0
  timesScheduled := 0
  sliceStartSyscount := 0

/-- Every CPU enters `scheduler`, after `userinit`. -/
def boot : System where
  tasks := fun p =>
    if p = firstProc then Change.apply (Change.apply zeroTask .alloc) .start else zeroTask
  cpus := fun _ => .top
  ticks := 0
  tickslock := false
  prevB := 0
  prevI := 0
  mlfqGlobalTicks := 0

/-! ### What a step does -/

/-- Where a CPU and a process stand when the CPU makes an event of the process. -/
def Allowed (s : System) (c : CpuId) (p : ProcId) : Event → Prop
  | .change k => (s.tasks p).state = k.before
  | .dispatch => (s.tasks p).state = .runnable ∧ ∃ offset, s.cpus c = .scan (s.tasks p).level offset
  | .load => (s.tasks p).state = .running ∧ s.cpus c = .counted p
  | .tick => s.cpus c = .ticking p
  | .charge => s.cpus c = .charging p
  | .yield => s.cpus c = .ticked p
  | .sleep => s.cpus c = .run p
  | .exit => s.cpus c = .run p ∨ s.cpus c = .trapped p
  | .syscall => s.cpus c = .run p
  | .boost => s.cpus c = .boost p
  | .trapBoost => ∃ q, s.cpus c = .trapBoost q p

theorem clockintr_tasks {c : CpuId} {s s' : System} (h : clockintr c s = .ok s') :
    s'.tasks = s.tasks := by
  unfold clockintr at h
  split at h
  · split at h
    · cases h
    · cases h
      rfl
  · cases h
    rfl

/-- A step changes no process, or makes one event of one process. -/
theorem step_cases {o : CpuId × Act} {s s' : System} {r : Label} (h : step o s = .ok (r, s')) :
    (r = none ∧ s'.tasks = s.tasks) ∨
      ∃ p e, r = some (p, e) ∧ s'.tasks = (touch s p e).tasks ∧ Allowed s o.1 p e := by
  unfold step at h
  split at h
  · split at h
    · cases h
    · split at h <;> cases h <;> exact .inl ⟨rfl, rfl⟩
  · rename_i i hpc _
    split at h <;> cases h <;> exact .inr ⟨i, .boost, rfl, rfl, hpc⟩
  · rename_i level offset hpc _
    split at h
    · rename_i hhit
      cases h
      refine .inr ⟨_, .dispatch, rfl, rfl, hhit.1, offset, ?_⟩
      rw [hhit.2]
      exact hpc
    · cases h
      exact .inl ⟨rfl, rfl⟩
  · obtain ⟨s₁, h₁, h⟩ := bind_eq_ok.mp h
    cases h
    exact .inl ⟨rfl, clockintr_tasks h₁⟩
  · obtain ⟨s₁, h₁, h⟩ := bind_eq_ok.mp h
    have htasks := clockintr_tasks h₁
    cases h
    exact .inl ⟨rfl, htasks⟩
  · cases h
    exact .inl ⟨rfl, rfl⟩
  · cases h
    exact .inl ⟨rfl, rfl⟩
  · rename_i p hpc _
    split at h
    · rename_i hrunning
      cases h
      exact .inr ⟨p, .load, rfl, rfl, hrunning, hpc⟩
    · cases h
      exact .inl ⟨rfl, rfl⟩
  · rename_i p hpc _
    cases h
    exact .inr ⟨p, .tick, rfl, rfl, hpc⟩
  · rename_i p hpc _
    cases h
    exact .inr ⟨p, .charge, rfl, rfl, hpc⟩
  · rename_i p hpc _
    cases h
    exact .inr ⟨p, .yield, rfl, rfl, hpc⟩
  · cases h
    exact .inl ⟨rfl, rfl⟩
  · rename_i p i hpc _
    cases h
    exact .inr ⟨i, .trapBoost, rfl, rfl, p, hpc⟩
  · rename_i p hpc _
    cases h
    exact .inr ⟨p, .sleep, rfl, rfl, hpc⟩
  · rename_i p hpc _
    cases h
    exact .inr ⟨p, .exit, rfl, rfl, .inl hpc⟩
  · rename_i p hpc _
    cases h
    exact .inr ⟨p, .exit, rfl, rfl, .inr hpc⟩
  · rename_i p hpc _
    cases h
    exact .inr ⟨p, .syscall, rfl, rfl, hpc⟩
  · rename_i k q hpc _
    split at h
    · rename_i hstate
      cases h
      exact .inr ⟨q, .change k, rfl, rfl, hstate⟩
    · cases h
  · rename_i q hpc _
    split at h
    · rename_i hstate
      cases h
      exact .inr ⟨q, .change .wake, rfl, rfl, hstate⟩
    · cases h
  · rename_i q hpc _
    split at h
    · rename_i hstate
      cases h
      exact .inr ⟨q, .change .wake, rfl, rfl, hstate⟩
    · cases h
  · cases h

end Xv6.Sched
