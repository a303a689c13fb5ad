import Xv6.Sched.Places

/-!
# Sched — Quantum

What a process gets of a level before it can be demoted.

* `Tally` — an observer's counts for one process: its system calls and ticks since `used_ticks` was
  last reset, its system calls since it was last dispatched, and its ticks at its current level.
  `watch` is the machine together with this observer.
* `watch_keeps` — a property of a process and its counts that every event keeps is an invariant.
* `quantum_kept` — a process that waits has used less than its quantum, and a demoted process has
  had the whole quantum of the level it leaves, in every run in which the boost of the timer
  branches finds no process in the middle of a quantum of a level below 0, and that of `scheduler`
  none there whose tick is being counted.
* `demotion_counts` — when a demotion follows the system calls of the whole quantum.
-/

namespace Xv6.Sched
open Xv6.Lib
open Xv6.Vm (NPROC ProcId ProcState asInt)

/-! ### The observer -/

structure Tally where
  /-- System calls since `used_ticks` was last reset. -/
  calls : Nat
  /-- Ticks since `used_ticks` was last reset. -/
  ticks : Nat
  /-- System calls since the process was last dispatched. -/
  sliceCalls : Nat
  /-- Ticks since the level of the process last changed. -/
  levelTicks : Nat

/-- The event stores 0 in `used_ticks`.  A boost that comes between the load and the store of a tick does
so in vain: the store puts the old count back. -/
def Event.resets (t : Task) : Event → Bool
  | .change .alloc => true
  | .yield => decide (quantum t.level ≤ t.usedTicks)
  | .sleep => decide (quantum t.level ≤ t.usedTicks)
  | .exit => decide (quantum t.level ≤ t.usedTicks)
  | .boost => decide ((t.state = .runnable ∨ t.state = .running) ∧ t.loaded = none)
  | _ => false

/-- The counts after an event of the process `t`. -/
def Tally.after (y : Tally) (t : Task) (e : Event) : Tally where
  calls := if e.resets t then 0 else if e = .syscall then y.calls + 1 else y.calls
  ticks := if e.resets t then 0 else if e = .tick then y.ticks + 1 else y.ticks
  sliceCalls :=
    if e = .dispatch ∨ e = .change .alloc then 0
    else if e = .syscall then y.sliceCalls + 1 else y.sliceCalls
  levelTicks :=
    if (e.apply t).level ≠ t.level then 0
    else if e = .tick then y.levelTicks + 1 else y.levelTicks

structure Watched where
  sys : System
  tally : ProcId → Tally

/-- The counts after a step from `w` with this label. -/
def count (w : Watched) : Label → ProcId → Tally
  | none => w.tally
  | some (p, e) => fun q => if q = p then (w.tally p).after (w.sys.tasks p) e else w.tally q

def watch (o : CpuId × Act) (w : Watched) : Except String (Label × Watched) := do
  let (r, s) ← step o w.sys
  return (r, { sys := s, tally := count w r })

def watchedBoot : Watched where
  sys := boot
  tally := fun _ => { calls := 0, ticks := 0, sliceCalls := 0, levelTicks := 0 }

theorem watch_step {o : CpuId × Act} {w w' : Watched} {r : Label} (h : watch o w = .ok (r, w')) :
    step o w.sys = .ok (r, w'.sys) ∧ w'.tally = count w r := by
  obtain ⟨⟨r', s⟩, hs, h⟩ := bind_eq_ok.mp h
  cases h
  exact ⟨hs, rfl⟩

/-- A property of a process and its counts that the event of a step keeps is kept by the step. -/
theorem watch_keeps {I : Task → Tally → Prop} {o : CpuId × Act} {w w' : Watched} {r : Label}
    (hI : ∀ p e, r = some (p, e) → Allowed w.sys o.1 p e → I (w.sys.tasks p) (w.tally p) →
      I (e.apply (w.sys.tasks p)) ((w.tally p).after (w.sys.tasks p) e))
    (h : watch o w = .ok (r, w')) (hw : ∀ q, I (w.sys.tasks q) (w.tally q)) :
    ∀ q, I (w'.sys.tasks q) (w'.tally q) := by
  obtain ⟨hs, htally⟩ := watch_step h
  intro q
  rw [htally]
  rcases step_cases hs with ⟨rfl, htasks⟩ | ⟨p, e, rfl, htasks, hallowed⟩
  · rw [htasks]
    exact hw q
  · rw [htasks]
    by_cases hq : q = p
    · subst hq
      simp only [touch, count, if_pos]
      exact hI q e rfl hallowed (hw q)
    · simp only [touch, count, if_neg hq]
      exact hw q

/-! ### The accounting after `swtch` -/

theorem quantum_pos {level : Nat} (h : level ≤ 3) : 0 < quantum level := by
  unfold quantum quantumTimes
  rcases level with _ | _ | _ | _ | n
  · decide
  · decide
  · decide
  · decide
  · omega

/-- The accounting either does nothing, or ends the quantum and demotes at most by one level. -/
theorem account_cases (t : Task) :
    (t.usedTicks < quantum t.level ∧ t.account = t) ∨
      (quantum t.level ≤ t.usedTicks ∧ t.account.usedTicks = 0 ∧
        t.account.level = if t.delS < t.usedTicks ∧ t.level < 3 then t.level + 1 else t.level) := by
  unfold Task.account
  by_cases hq : quantum t.level ≤ t.usedTicks
  · rw [if_pos hq]
    refine .inr ⟨hq, rfl, ?_⟩
    by_cases hS : t.delS < t.usedTicks
    · simp only [hS, if_true, true_and]
    · simp only [hS, if_false, false_and]
  · rw [if_neg hq]
    exact .inl ⟨Nat.lt_of_not_le hq, rfl⟩

/-- A process leaves the CPU with less than its quantum used, at a level up to 3. -/
theorem account_used_lt {t : Task} (h : t.level ≤ 3) :
    t.account.level ≤ 3 ∧ t.account.usedTicks < quantum t.account.level := by
  rcases account_cases t with ⟨hlt, he⟩ | ⟨-, hused, hlevel⟩
  · rw [he]
    exact ⟨h, hlt⟩
  · have hle : t.account.level ≤ 3 := by
      rw [hlevel]
      split <;> omega
    rw [hused]
    exact ⟨hle, quantum_pos hle⟩

/-- The process is one that the scheduler may find waiting, now or after `start` or `wake`. -/
def Waiting (t : Task) : Prop := t.state = .used ∨ t.state = .runnable ∨ t.state = .sleeping

/-- **The quantum invariant** of a process and its counts. -/
structure TaskOk (t : Task) (y : Tally) : Prop where
  level : t.level ≤ 3
  waiting : Waiting t → t.usedTicks < quantum t.level
  had : t.usedTicks ≤ y.levelTicks

/-- Ticks at a level outnumber the ticks of the current quantum, over an event without a tick that
leaves the level or ends the quantum. -/
theorem had_after {t : Task} {y : Tally} {e : Event} (hy : t.usedTicks ≤ y.levelTicks)
    (he : e ≠ .tick)
    (h : (e.apply t).usedTicks = 0 ∨
      ((e.apply t).level = t.level ∧ (e.apply t).usedTicks = t.usedTicks)) :
    (e.apply t).usedTicks ≤ (y.after t e).levelTicks := by
  rcases h with h | ⟨hl, hu⟩
  · rw [h]
    exact Nat.zero_le _
  · simp only [Tally.after, hl, hu, ne_eq, not_true_eq_false, if_false, if_neg he]
    exact hy

theorem account_had (t : Task) :
    t.account.usedTicks = 0 ∨ (t.account.level = t.level ∧ t.account.usedTicks = t.usedTicks) := by
  rcases account_cases t with ⟨-, he⟩ | ⟨-, hused, -⟩
  · rw [he]
    exact .inr ⟨rfl, rfl⟩
  · exact .inl hused

/-- A count that is loaded is one of ticks at the level. -/
def LoadedOk (t : Task) (y : Tally) : Prop := ∀ n, t.loaded = some n → n ≤ y.levelTicks

theorem Change.keeps_taskOk {t : Task} {y : Tally} (k : Change) (hk : t.state = k.before)
    (h : TaskOk t y) : TaskOk ((Event.change k).apply t) (y.after t (.change k)) := by
  cases k with
  | alloc => exact ⟨Nat.zero_le _, fun _ => quantum_pos (Nat.zero_le _), Nat.zero_le _⟩
  | start =>
      exact ⟨h.level, fun _ => h.waiting (.inl hk), had_after h.had (by simp) (.inr ⟨rfl, rfl⟩)⟩
  | abandon =>
      exact ⟨h.level, fun _ => h.waiting (.inl hk), had_after h.had (by simp) (.inr ⟨rfl, rfl⟩)⟩
  | reap =>
      refine ⟨h.level, fun hw => ?_, had_after h.had (by simp) (.inr ⟨rfl, rfl⟩)⟩
      rcases hw with hw | hw | hw <;> cases hw
  | wake =>
      exact ⟨h.level, fun _ => h.waiting (.inr (.inr hk)),
        had_after h.had (by simp) (.inr ⟨rfl, rfl⟩)⟩

/-- A process that leaves the CPU, for whatever state. -/
theorem leave_taskOk {t u : Task} {y : Tally} {e : Event} (he : e ≠ .tick)
    (happly : e.apply t = u.account) (hl : u.level = t.level) (hu : u.usedTicks = t.usedTicks)
    (h : TaskOk t y) : TaskOk (e.apply t) (y.after t e) := by
  have hlt := account_used_lt (t := u) (hl ▸ h.level)
  have hhad := account_had u
  rw [← happly] at hlt hhad
  rw [hl, hu] at hhad
  exact ⟨hlt.1, fun _ => hlt.2, had_after h.had he hhad⟩

theorem boost_cases (t : Task) :
    t.boost = t ∨ (t.boost.level = 0 ∧ t.boost.usedTicks = 0) := by
  unfold Task.boost
  split
  · exact .inr ⟨rfl, rfl⟩
  · exact .inl rfl

theorem trapBoost_cases (t : Task) :
    t.trapBoost = t ∨ (t.state = .runnable ∧ t.trapBoost = { t with level := 0 }) := by
  unfold Task.trapBoost
  split
  · rename_i hstate
    exact .inr ⟨hstate, rfl⟩
  · exact .inl rfl

/-- An event that changes neither the process nor its ticks. -/
theorem same_taskOk {t : Task} {y : Tally} {e : Event} (he : e ≠ .tick) (happly : e.apply t = t)
    (h : TaskOk t y) : TaskOk (e.apply t) (y.after t e) := by
  have hhad := had_after h.had he (.inr ⟨by rw [happly], by rw [happly]⟩)
  rw [happly] at hhad ⊢
  exact ⟨h.level, h.waiting, hhad⟩

theorem trapBoost_taskOk {t : Task} {y : Tally}
    (hspared : t.state = .runnable → t.level = 0 ∨ t.usedTicks = 0) (h : TaskOk t y) :
    TaskOk (Event.trapBoost.apply t) (y.after t .trapBoost) := by
  rcases trapBoost_cases t with he | ⟨hstate, he⟩
  · exact same_taskOk (by simp) he h
  · have happly : Event.trapBoost.apply t = { t with level := 0 } := he
    rcases hspared hstate with hlevel | hused
    · refine same_taskOk (by simp) ?_ h
      rw [happly, ← hlevel]
    · have hhad := had_after (e := .trapBoost) h.had (by simp) (.inl (by rw [happly]; exact hused))
      rw [happly] at hhad ⊢
      refine ⟨Nat.zero_le _, fun _ => ?_, hhad⟩
      rw [hused]
      exact quantum_pos (Nat.zero_le _)

section Events

variable {s : System} {c : CpuId} {p : ProcId} {y : Tally}

/-- The store of a tick. -/
theorem tick_taskOk (hs : Placed s) (hallowed : Allowed s c p .tick) (hloaded : LoadedOk (s.tasks p) y)
    (h : TaskOk (s.tasks p) y) : TaskOk (Event.tick.apply (s.tasks p)) (y.after (s.tasks p) .tick) := by
  have hpc : s.cpus c = .ticking p := hallowed
  have hrun := hs.running c p (by rw [hpc]; rfl)
  obtain ⟨n, hn⟩ := Option.ne_none_iff_exists'.mp ((hs.loaded p).mpr ⟨c, hpc⟩)
  have happly : Event.tick.apply (s.tasks p) = { s.tasks p with usedTicks := n + 1, loaded := none } := by
    simp only [Event.apply, Task.tick, hn]
  have hle := hloaded n hn
  refine ⟨?_, fun hw => ?_, ?_⟩
  · rw [happly]
    exact h.level
  · rw [happly] at hw
    rcases hw with hw | hw | hw <;> cases hw.symm.trans hrun
  · simp only [Tally.after, happly, ne_eq, not_true_eq_false, if_false, if_true]
    exact Nat.succ_le_succ hle

/-- Every event keeps the quantum invariant, but a turn of the boost of a timer branch that finds
a process in the middle of a quantum of a level below 0. -/
theorem event_taskOk (e : Event) (hs : Placed s) (hallowed : Allowed s c p e)
    (hspared : e = .trapBoost → (s.tasks p).state = .runnable →
      (s.tasks p).level = 0 ∨ (s.tasks p).usedTicks = 0)
    (hloaded : LoadedOk (s.tasks p) y) (h : TaskOk (s.tasks p) y) :
    TaskOk (e.apply (s.tasks p)) (y.after (s.tasks p) e) := by
  cases e with
  | change k => exact k.keeps_taskOk hallowed h
  | dispatch =>
      refine ⟨h.level, fun hw => ?_, had_after h.had (by simp) (.inr ⟨rfl, rfl⟩)⟩
      rcases hw with hw | hw | hw <;> cases hw
  | load => exact ⟨h.level, h.waiting, had_after h.had (by simp) (.inr ⟨rfl, rfl⟩)⟩
  | tick => exact tick_taskOk hs hallowed hloaded h
  | charge => exact ⟨h.level, h.waiting, had_after h.had (by simp) (.inr ⟨rfl, rfl⟩)⟩
  | yield => exact leave_taskOk (by simp) rfl rfl rfl h
  | sleep => exact leave_taskOk (by simp) rfl rfl rfl h
  | exit => exact leave_taskOk (by simp) rfl rfl rfl h
  | syscall => exact ⟨h.level, h.waiting, had_after h.had (by simp) (.inr ⟨rfl, rfl⟩)⟩
  | boost =>
      rcases boost_cases (s.tasks p) with he | ⟨hlevel, hused⟩
      · exact same_taskOk (by simp) he h
      · have happly : Event.boost.apply (s.tasks p) = (s.tasks p).boost := rfl
        have hhad := had_after (e := .boost) h.had (by simp) (.inl hused)
        rw [happly] at hhad ⊢
        refine ⟨by rw [hlevel]; exact Nat.zero_le _, fun _ => ?_, hhad⟩
        rw [hlevel, hused]
        exact quantum_pos (Nat.zero_le _)
  | trapBoost => exact trapBoost_taskOk (hspared rfl) h

/-- A loaded count stays one of ticks at the level, but for a turn of the boost of `scheduler` that takes the
process from another level meanwhile. -/
theorem event_loadedOk (e : Event) (hs : Placed s) (hallowed : Allowed s c p e)
    (hspared : e = .boost → ∀ n, (s.tasks p).loaded = some n → (s.tasks p).level = 0 ∨ n = 0)
    (h : TaskOk (s.tasks p) y) (hloaded : LoadedOk (s.tasks p) y) :
    LoadedOk (e.apply (s.tasks p)) (y.after (s.tasks p) e) := by
  intro n hn
  have hsame : (e.apply (s.tasks p)).level = (s.tasks p).level → e ≠ .tick →
      (y.after (s.tasks p) e).levelTicks = y.levelTicks := fun hl he => by
    simp only [Tally.after, hl, ne_eq, not_true_eq_false, if_false, if_neg he]
  rcases loaded_before (by rw [hn]; simp) with rfl | ⟨hbefore, he⟩
  · cases hn
    rw [hsame rfl (by simp)]
    exact h.had
  · obtain ⟨hrun, rfl | rfl | rfl⟩ := hs.while_loaded hallowed hbefore
    · exact absurd rfl he
    · have hn' : (s.tasks p).loaded = some n := (boost_same _).2.symm.trans hn
      rcases hspared rfl n hn' with hlevel | rfl
      · refine (hloaded n hn').trans_eq (hsame ?_ (by simp)).symm
        rcases boost_cases (s.tasks p) with hb | hb
        · exact congrArg Task.level hb
        · exact hb.1.trans hlevel.symm
      · exact Nat.zero_le _
    · rcases trapBoost_cases (s.tasks p) with hb | ⟨hrunnable, -⟩
      · have happly : Event.trapBoost.apply (s.tasks p) = s.tasks p := hb
        rw [happly] at hn
        rw [hsame (by rw [happly]) (by simp)]
        exact hloaded n hn
      · cases hrun.symm.trans hrunnable

end Events

theorem account_rises {t : Task} (h : t.level < t.account.level) :
    quantum t.level ≤ t.usedTicks := by
  rcases account_cases t with ⟨-, he⟩ | ⟨hq, -, -⟩
  · rw [he] at h
    exact absurd h (Nat.lt_irrefl _)
  · exact hq

/-- A level rises only at the end of a quantum. -/
theorem level_rises {t : Task} {e : Event} (h : t.level < (e.apply t).level) :
    quantum t.level ≤ t.usedTicks := by
  cases e with
  | change k =>
      cases k with
      | alloc => exact absurd h (Nat.not_lt_zero _)
      | start => exact absurd h (Nat.lt_irrefl _)
      | abandon => exact absurd h (Nat.lt_irrefl _)
      | reap => exact absurd h (Nat.lt_irrefl _)
      | wake => exact absurd h (Nat.lt_irrefl _)
  | dispatch => exact absurd h (Nat.lt_irrefl _)
  | load => exact absurd h (Nat.lt_irrefl _)
  | tick =>
      have hlevel : t.tick.level = t.level := by
        unfold Task.tick
        split <;> rfl
      have h' : t.level < t.tick.level := h
      exact absurd (hlevel ▸ h') (Nat.lt_irrefl _)
  | charge => exact absurd h (Nat.lt_irrefl _)
  | yield => exact account_rises (t := { t with state := .runnable, context := .yield }) h
  | sleep => exact account_rises (t := { t with state := .sleeping, context := .sleep }) h
  | exit => exact account_rises (t := { t with state := .zombie }) h
  | syscall => exact absurd h (Nat.lt_irrefl _)
  | boost =>
      have h' : t.level < t.boost.level := h
      rcases boost_cases t with he | ⟨hlevel, -⟩
      · rw [he] at h'
        exact absurd h' (Nat.lt_irrefl _)
      · rw [hlevel] at h'
        exact absurd h' (Nat.not_lt_zero _)
  | trapBoost =>
      have h' : t.level < t.trapBoost.level := h
      rcases trapBoost_cases t with he | ⟨-, he⟩
      · rw [he] at h'
        exact absurd h' (Nat.lt_irrefl _)
      · rw [he] at h'
        exact absurd h' (Nat.not_lt_zero _)

/-! ### The quantum over whole runs -/

/-- What a process that waits has of its level. -/
def QuantumOk (t : Task) : Prop :=
  t.state = .runnable ∨ t.state = .sleeping → t.level ≤ 3 ∧ t.usedTicks < quantum t.level

instance decidableQuantumOk (t : Task) : Decidable (QuantumOk t) :=
  inferInstanceAs (Decidable (_ → _))

/-- The process at which the boost loop of a timer branch on CPU `c` stands. -/
def boosting (s : System) (c : CpuId) : Option ProcId :=
  match s.cpus c with
  | .trapBoost _ i => some i
  | _ => none

/-- The process at which the boost loop of `scheduler` on CPU `c` stands. -/
def resetting (s : System) (c : CpuId) : Option ProcId :=
  match s.cpus c with
  | .boost i => some i
  | _ => none

/-- The step is no turn of the boost loop of a timer branch that finds a process in the middle of
a quantum of a level below 0, and no turn of the boost loop of `scheduler` that finds one there
between the load and the store of its tick. -/
def Spared (o : CpuId × Act) (w : Watched) : Prop :=
  (∀ i ∈ boosting w.sys o.1, (w.sys.tasks i).state = .runnable →
    (w.sys.tasks i).level = 0 ∨ (w.sys.tasks i).usedTicks = 0) ∧
  ∀ i ∈ resetting w.sys o.1, ∀ n ∈ (w.sys.tasks i).loaded, (w.sys.tasks i).level = 0 ∨ n = 0

instance decidableSpared (o : CpuId × Act) (w : Watched) : Decidable (Spared o w) :=
  inferInstanceAs (Decidable ((∀ i ∈ boosting w.sys o.1, _) ∧ ∀ i ∈ resetting w.sys o.1, _))

theorem watchedBoot_taskOk (p : ProcId) : TaskOk (watchedBoot.sys.tasks p) (watchedBoot.tally p) := by
  have hzero : (watchedBoot.sys.tasks p).level = 0 ∧ (watchedBoot.sys.tasks p).usedTicks = 0 := by
    change (boot.tasks p).level = 0 ∧ (boot.tasks p).usedTicks = 0
    unfold boot
    dsimp only
    split
    · exact ⟨rfl, rfl⟩
    · exact ⟨rfl, rfl⟩
  refine ⟨?_, fun _ => ?_, ?_⟩
  · rw [hzero.1]
    exact Nat.zero_le _
  · rw [hzero.1, hzero.2]
    exact quantum_pos (Nat.zero_le _)
  · rw [hzero.2]
    exact Nat.zero_le _

/-- The invariant of a run. -/
def WatchedOk (w : Watched) : Prop :=
  Placed w.sys ∧ ∀ p, TaskOk (w.sys.tasks p) (w.tally p) ∧ LoadedOk (w.sys.tasks p) (w.tally p)

theorem watchedBoot_ok : WatchedOk watchedBoot := by
  refine ⟨boot_placed, fun p => ⟨watchedBoot_taskOk p, fun n hn => absurd ?_ ((boot_placed.loaded p).not.mpr ?_)⟩⟩
  · exact Option.ne_none_iff_exists'.mpr ⟨n, hn⟩
  · rintro ⟨c, hc⟩
    cases hc

theorem watch_ok {o : CpuId × Act} {w w' : Watched} {r : Label} (hspared : Spared o w)
    (hw : WatchedOk w) (h : watch o w = .ok (r, w')) : WatchedOk w' := by
  obtain ⟨hplaced, hok⟩ := hw
  refine ⟨step_placed hplaced (watch_step h).1, ?_⟩
  refine watch_keeps (I := fun t y => TaskOk t y ∧ LoadedOk t y) (fun p e _ hallowed hp => ?_) h hok
  refine ⟨event_taskOk e hplaced hallowed (fun he hstate => ?_) hp.2 hp.1,
    event_loadedOk e hplaced hallowed (fun he n hn => ?_) hp.1 hp.2⟩
  · subst he
    obtain ⟨q, hpc⟩ := hallowed
    exact hspared.1 p (by simp [boosting, hpc]) hstate
  · subst he
    have hpc : w.sys.cpus o.1 = .boost p := hallowed
    exact hspared.2 p (by simp [resetting, hpc]) n hn

def cpu0 : CpuId := ⟨0, by decide⟩
def cpu1 : CpuId := ⟨1, by decide⟩

def onCpu (c : CpuId) (acts : List Act) : List (CpuId × Act) := acts.map fun a => (c, a)

/-- A timer interrupt, up to the store of the tick. -/
def tickActs : List Act := [.timer, .load, .store, .load, .store]

/-- CPU `c` finds a process at its `n`th try, which then acts until a tick takes the CPU away. -/
def slice (c : CpuId) (n : Nat) (acts : List Act) : List (CpuId × Act) :=
  onCpu c (.enter :: List.replicate n .visit ++ acts ++ tickActs ++ [.store, .yield])

/-- `init` runs for two ticks, and is demoted. -/
def twoSlices : List (CpuId × Act) := slice cpu0 1 [] ++ slice cpu0 64 [.resume]

/-- The children of `init`, in the slots 1 to 31, run for one tick each, by turns on two CPUs. -/
def children (n : Nat) (acts : List Act) : List (CpuId × Act) :=
  slice cpu0 n acts ++ (List.range 30).flatMap fun i => slice (if i % 2 = 0 then cpu1 else cpu0) 1 acts

/-- `init` forks 31 children. -/
def forks : List Act :=
  (List.finRange NPROC).flatMap fun q =>
    if 0 < q.val ∧ q.val < 32 then [.change .alloc q, .change .start q] else []

/-- `init` is demoted to level 1, and has two ticks there; then its children share the CPUs, stay at
level 0 because of their system calls, and take `mlfq_global_ticks` to 128.  The first child to
come back from `yield` then boosts `init`. -/
def lostQuantum : List (CpuId × Act) :=
  slice cpu0 1 [] ++ slice cpu0 64 [.resume] ++ slice cpu0 128 [.resume] ++
    slice cpu0 128 (.resume :: forks) ++ children 1 [] ++ children 34 [.resume, .syscall, .syscall] ++
    children 34 [.resume] ++ children 34 [.resume, .syscall, .syscall] ++
    onCpu cpu0 (.enter :: List.replicate 34 .visit ++ [.resume, .visit])

/-- `init` is demoted to level 1 and has a tick there on CPU 1.  Its second tick is between load and store
while CPU 0 boosts it. -/
def staleTick : List (CpuId × Act) :=
  twoSlices ++ onCpu cpu0 (List.replicate 125 .timer) ++ slice cpu1 128 [.resume] ++
    onCpu cpu1 (.enter :: List.replicate 128 .visit ++ [.resume, .timer, .load, .store, .load]) ++
    onCpu cpu0 [.timer, .enter, .visit] ++ onCpu cpu1 [.store, .store]

/-- The level of `init` and its ticks there, before and after it leaves CPU 1. -/
def staleLevels : Option (Nat × Nat × Nat) :=
  (run watch staleTick watchedBoot).toOption.bind fun x =>
    (watch (cpu1, .yield) x.2).toOption.map fun y =>
      ((x.2.sys.tasks firstProc).level, (x.2.tally firstProc).levelTicks, (y.2.sys.tasks firstProc).level)

/-- The counts of the kernel against those of the observer. -/
structure CountsOk (t : Task) (y : Tally) : Prop where
  ticks : t.loaded.getD t.usedTicks = y.ticks
  calls : (2 ^ 32 : Int) ∣ t.syscount - t.sliceStartSyscount - y.sliceCalls

/-- `delS` counts the system calls since the last dispatch. -/
theorem CountsOk.delS {t : Task} {y : Tally} (h : CountsOk t y) : t.delS = asInt y.sliceCalls := by
  have hmod : ((t.syscount : Int) - t.sliceStartSyscount) % (2 ^ 32 : Nat) =
      (y.sliceCalls : Int) % (2 ^ 32 : Nat) :=
    Int.emod_eq_emod_iff_emod_sub_eq_zero.mpr (Int.emod_eq_zero_of_dvd h.calls)
  rw [Task.delS, asInt, asInt, ← Int.emod_bmod, hmod, Int.emod_bmod]

theorem CountsOk.used {t : Task} {y : Tally} (h : CountsOk t y) (hidle : t.loaded = none) :
    t.usedTicks = y.ticks := by
  have hticks := h.ticks
  rwa [hidle] at hticks

theorem account_same (t : Task) :
    t.account.syscount = t.syscount ∧ t.account.sliceStartSyscount = t.sliceStartSyscount := by
  unfold Task.account
  split <;> exact ⟨rfl, rfl⟩

/-- A process that leaves the CPU keeps its system calls, and its ticks or none. -/
theorem leave_countsOk {t u : Task} {y : Tally} {e : Event} (hidle : u.loaded = none)
    (happly : e.apply t = u.account) (hu : u.usedTicks = t.usedTicks) (hl : u.loaded = t.loaded)
    (hc : u.syscount = t.syscount ∧ u.sliceStartSyscount = t.sliceStartSyscount)
    (hresets : e.resets t = decide (quantum u.level ≤ u.usedTicks))
    (htick : e ≠ .tick) (hcall : e ≠ .syscall) (hdispatch : ¬ (e = .dispatch ∨ e = .change .alloc))
    (h : CountsOk t y) : CountsOk (e.apply t) (y.after t e) := by
  have hused := h.used (hl ▸ hidle)
  rw [happly]
  constructor
  · rw [account_loaded, hidle]
    simp only [Tally.after, hresets, if_neg htick, decide_eq_true_eq, Option.getD_none]
    rcases account_cases u with ⟨hlt, he⟩ | ⟨hle, hzero, -⟩
    · rw [he, hu, if_neg (Nat.not_le.mpr (hu ▸ hlt))]
      exact hused
    · rw [hzero, if_pos hle]
  · rw [(account_same u).1, (account_same u).2, hc.1, hc.2]
    simp only [Tally.after, if_neg hcall, if_neg hdispatch]
    exact h.calls

theorem tick_countsOk {t : Task} {y : Tally} {n : Nat} (hn : t.loaded = some n) (h : CountsOk t y) :
    CountsOk (Event.tick.apply t) (y.after t .tick) := by
  have happly : Event.tick.apply t = { t with usedTicks := n + 1, loaded := none } := by
    simp only [Event.apply, Task.tick, hn]
  have hticks : n = y.ticks := by
    have hticks := h.ticks
    rwa [hn] at hticks
  rw [happly, hticks]
  exact ⟨rfl, h.calls⟩

/-- A boost resets the counts, unless a tick is loaded. -/
theorem boost_countsOk {t : Task} {y : Tally} (h : CountsOk t y) :
    CountsOk (Event.boost.apply t) (y.after t .boost) := by
  constructor
  · have hticks := h.ticks
    simp only [Event.apply, Task.boost, Tally.after, Event.resets, decide_eq_true_eq]
    by_cases hstate : t.state = .runnable ∨ t.state = .running
    · rw [if_pos hstate]
      by_cases hidle : t.loaded = none
      · rw [if_pos ⟨hstate, hidle⟩]
        exact congrArg (fun x : Option Nat => x.getD 0) hidle
      · obtain ⟨n, hn⟩ := Option.ne_none_iff_exists'.mp hidle
        rw [if_neg fun hb => hidle hb.2, if_neg (by simp), ← hticks, hn]
        rfl
    · rw [if_neg hstate, if_neg fun hb => hstate hb.1, if_neg (by simp)]
      exact hticks
  · have hboost : t.boost.syscount = t.syscount ∧
        t.boost.sliceStartSyscount = t.sliceStartSyscount := by
      unfold Task.boost
      split <;> exact ⟨rfl, rfl⟩
    change (2 ^ 32 : Int) ∣ t.boost.syscount - t.boost.sliceStartSyscount - y.sliceCalls
    rw [hboost.1, hboost.2]
    exact h.calls

theorem event_countsOk {s : System} {c : CpuId} {p : ProcId} {y : Tally} (e : Event) (hs : Placed s)
    (hallowed : Allowed s c p e) (h : CountsOk (s.tasks p) y) :
    CountsOk (e.apply (s.tasks p)) (y.after (s.tasks p) e) := by
  have hidle : e ≠ .tick → e ≠ .boost → e ≠ .trapBoost → (s.tasks p).loaded = none := by
    intro ht hb hb'
    by_contra hp
    rcases (hs.while_loaded hallowed hp).2 with he | he | he
    · exact ht he
    · exact hb he
    · exact hb' he
  cases e with
  | change k =>
      cases k with
      | alloc => exact ⟨rfl, by simp [Event.apply, Change.apply, Tally.after]⟩
      | start => exact ⟨h.ticks, h.calls⟩
      | abandon => exact ⟨h.ticks, h.calls⟩
      | reap => exact ⟨h.ticks, h.calls⟩
      | wake => exact ⟨h.ticks, h.calls⟩
  | dispatch =>
      refine ⟨h.ticks, ?_⟩
      have hdvd : ((2 ^ 32 : Nat) : Int) ∣ asInt (s.tasks p).syscount - (s.tasks p).syscount :=
        Int.dvd_bmod_sub_self
      simp only [Event.apply, Task.dispatch, Tally.after, true_or, if_true]
      omega
  | load => exact ⟨h.used (hidle (by simp) (by simp) (by simp)), h.calls⟩
  | tick =>
      obtain ⟨n, hn⟩ := Option.ne_none_iff_exists'.mp ((hs.loaded p).mpr ⟨c, hallowed⟩)
      exact tick_countsOk hn h
  | charge => exact ⟨h.ticks, h.calls⟩
  | yield =>
      exact leave_countsOk (u := { s.tasks p with state := .runnable, context := .yield })
        (hidle (by simp) (by simp) (by simp)) rfl rfl rfl ⟨rfl, rfl⟩ rfl (by simp) (by simp) (by simp) h
  | sleep =>
      exact leave_countsOk (u := { s.tasks p with state := .sleeping, context := .sleep })
        (hidle (by simp) (by simp) (by simp)) rfl rfl rfl ⟨rfl, rfl⟩ rfl (by simp) (by simp) (by simp) h
  | exit =>
      exact leave_countsOk (u := { s.tasks p with state := .zombie })
        (hidle (by simp) (by simp) (by simp)) rfl rfl rfl ⟨rfl, rfl⟩ rfl (by simp) (by simp) (by simp) h
  | syscall =>
      refine ⟨h.ticks, ?_⟩
      have hcalls := h.calls
      simp only [Event.apply, Tally.after]
      simp only [reduceCtorEq, or_self, if_false, if_true]
      push_cast
      omega
  | boost => exact boost_countsOk h
  | trapBoost =>
      rcases trapBoost_cases (s.tasks p) with he | ⟨-, he⟩
      · have happly : Event.trapBoost.apply (s.tasks p) = s.tasks p := he
        rw [happly]
        exact ⟨h.ticks, h.calls⟩
      · have happly : Event.trapBoost.apply (s.tasks p) = { s.tasks p with level := 0 } := he
        rw [happly]
        exact ⟨h.ticks, h.calls⟩

theorem watchedBoot_countsOk (p : ProcId) :
    CountsOk (watchedBoot.sys.tasks p) (watchedBoot.tally p) := by
  change CountsOk (boot.tasks p) _
  unfold boot
  dsimp only
  split
  · exact ⟨rfl, 0, rfl⟩
  · exact ⟨rfl, 0, rfl⟩

/-- The system calls of the last slice alone, in an `int`, and those since the last reset of
`used_ticks` lie on different sides of the ticks since then: the process made some of its system
calls in earlier slices, or `scheduler` boosted it in the middle of the slice. -/
def Misjudged (y : Tally) : Prop :=
  (asInt y.sliceCalls < y.ticks ∧ y.ticks ≤ y.calls) ∨ (y.calls < y.ticks ∧ y.ticks ≤ asInt y.sliceCalls)

instance decidableMisjudged (y : Tally) : Decidable (Misjudged y) := inferInstanceAs (Decidable (_ ∨ _))

/-- The level of a process that leaves the CPU at the end of its quantum. -/
theorem leave_level {t : Task} {e : Event} (hleaves : e.leaves = true)
    (hfull : quantum t.level ≤ t.usedTicks) :
    (e.apply t).level = if t.delS < t.usedTicks ∧ t.level < 3 then t.level + 1 else t.level := by
  have key : ∀ u : Task, u.level = t.level → u.usedTicks = t.usedTicks → u.delS = t.delS →
      u.account.level = if t.delS < t.usedTicks ∧ t.level < 3 then t.level + 1 else t.level := by
    intro u hl hu hS
    rcases account_cases u with ⟨hlt, -⟩ | ⟨-, -, hlevel⟩
    · rw [hl, hu] at hlt
      exact absurd hfull (Nat.not_le.mpr hlt)
    · rw [hlevel, hl, hu, hS]
  cases e with
  | yield => exact key _ rfl rfl rfl
  | sleep => exact key _ rfl rfl rfl
  | exit => exact key _ rfl rfl rfl
  | change k => cases hleaves
  | dispatch => cases hleaves
  | load => cases hleaves
  | tick => cases hleaves
  | charge => cases hleaves
  | syscall => cases hleaves
  | boost => cases hleaves
  | trapBoost => cases hleaves

/-- **When a demotion follows the system calls of the whole quantum.**  In every run, a process
below level 3 that leaves the CPU with its quantum used up is demoted exactly when its system calls
since the last reset of `used_ticks` are fewer than its ticks since then, if and only if the system
calls of its last slice do not misjudge it. -/
theorem demotion_counts {ops : List (CpuId × Act)} {rs : List Label} {w w' : Watched}
    {o : CpuId × Act} {p : ProcId} {e : Event}
    (hrun : run watch ops watchedBoot = .ok (rs, w))
    (hstep : watch o w = .ok (some (p, e), w')) (hleaves : e.leaves = true)
    (hfull : quantum (w.sys.tasks p).level ≤ (w.sys.tasks p).usedTicks)
    (hlevel : (w.sys.tasks p).level < 3) :
    (((w'.sys.tasks p).level = (w.sys.tasks p).level + 1 ↔ (w.tally p).calls < (w.tally p).ticks) ↔
      ¬ Misjudged (w.tally p)) := by
  obtain ⟨hplaced, hok⟩ : Placed w.sys ∧ ∀ q, CountsOk (w.sys.tasks q) (w.tally q) :=
    run_invariant (G := fun _ _ => True)
      (I := fun w => Placed w.sys ∧ ∀ q, CountsOk (w.sys.tasks q) (w.tally q))
      (fun _ _ _ _ _ hI h => ⟨step_placed hI.1 (watch_step h).1,
        watch_keeps (fun _ e _ hallowed hp => event_countsOk e hI.1 hallowed hp) h hI.2⟩) ops
      watchedBoot rs w (meets_of_forall (fun _ _ => trivial) _ _)
      ⟨boot_placed, watchedBoot_countsOk⟩ hrun
  obtain ⟨htask, hallowed⟩ := step_event (watch_step hstep).1
  have hused : (w.sys.tasks p).usedTicks = (w.tally p).ticks := by
    refine (hok p).used ?_
    by_contra hp
    rcases (hplaced.while_loaded hallowed hp).2 with rfl | rfl | rfl <;> cases hleaves
  have happly : (w'.sys.tasks p).level = (e.apply (w.sys.tasks p)).level := congrArg Task.level htask
  have hdemoted : (w'.sys.tasks p).level = (w.sys.tasks p).level + 1 ↔
      asInt (w.tally p).sliceCalls < (w.tally p).ticks := by
    rw [happly, leave_level hleaves hfull, (hok p).delS, ← hused]
    by_cases hS : asInt (w.tally p).sliceCalls < ((w.sys.tasks p).usedTicks : Int)
    · simp only [hS, hlevel, and_self, if_true]
    · simp only [hS, false_and, if_false, iff_false]
      omega
  rw [hdemoted]
  unfold Misjudged
  omega

/-- `init` makes `n` system calls in its first slice, and none in its second. -/
def callsThenTicks (n : Nat) : List (CpuId × Act) :=
  slice cpu0 1 (List.replicate n .syscall) ++
    onCpu cpu0 (.enter :: List.replicate 64 .visit ++ .resume :: tickActs ++ [.store])

/-- The state of `init` at the end of that quantum. -/
def quantumEnd (n : Nat) : Watched :=
  stateAfter (run watch (callsThenTicks n) watchedBoot) watchedBoot

/-- The state after `init` has left the CPU. -/
def quantumDone (n : Nat) : Watched := stateAfter (watch (cpu0, .yield) (quantumEnd n)) watchedBoot

/-- What evaluating the two runs shows. -/
theorem quantumEnd_run {n : Nat}
    (hrun : (run watch (callsThenTicks n) watchedBoot).toOption.isSome = true)
    (hstep : (watch (cpu0, .yield) (quantumEnd n)).toOption.map Prod.fst =
      some (some (firstProc, .yield))) :
    (∃ rs, run watch (callsThenTicks n) watchedBoot = .ok (rs, quantumEnd n)) ∧
      watch (cpu0, .yield) (quantumEnd n) = .ok (some (firstProc, .yield), quantumDone n) := by
  refine ⟨eq_ok_stateAfter watchedBoot hrun, ?_⟩
  obtain ⟨⟨r, w⟩, hw, hr⟩ := Option.map_eq_some_iff.mp hstep
  have hok := eq_ok_of_toOption hw
  cases hr
  rw [quantumDone, hok]
  rfl

theorem demotion_counts_no_calls :
    (((quantumDone 0).sys.tasks firstProc).level = ((quantumEnd 0).sys.tasks firstProc).level + 1 ↔
      ((quantumEnd 0).tally firstProc).calls < ((quantumEnd 0).tally firstProc).ticks) := by
  obtain ⟨⟨rs, hrun⟩, hstep⟩ := quantumEnd_run (n := 0) (by decide +kernel) (by decide +kernel)
  refine (demotion_counts hrun hstep rfl (by decide +kernel) (by decide +kernel)).mpr ?_
  decide +kernel

/-- `init` is demoted after two ticks in which it made five system calls. -/
theorem init_demoted_with_five_calls :
    ∃ rs w w', run watch (callsThenTicks 5) watchedBoot = .ok (rs, w) ∧
      watch (cpu0, .yield) w = .ok (some (firstProc, .yield), w') ∧
      (w.sys.tasks firstProc).usedTicks = quantum (w.sys.tasks firstProc).level ∧
      (w.sys.tasks firstProc).level = 0 ∧ (w'.sys.tasks firstProc).level = 1 ∧
      (w.tally firstProc).ticks = 2 ∧ (w.tally firstProc).calls = 5 := by
  obtain ⟨⟨rs, hrun⟩, hstep⟩ := quantumEnd_run (n := 5) (by decide +kernel) (by decide +kernel)
  refine ⟨rs, quantumEnd 5, quantumDone 5, hrun, hstep, ?_⟩
  decide +kernel

end Xv6.Sched
