import Xv6.Sched.RoundRobin

/-!
# Sched — Boost

The two boosts.  Both are loops over `proc[]` that hold one `p->lock` at a time, so other CPUs run
between two turns of such a loop; the CPU itself does nothing else until the loop is over
(`TableLoop`), and so comes to every process once (`loop_visits`).

* `boost_reaches`: the loop of `scheduler` resets every process that it finds RUNNABLE or RUNNING,
  and a process it reset needs a whole quantum to leave level 0 again, unless its tick was being
  counted.
* `boosted_once_iff`: the loop of the timer branches is entered by whoever returns from `yield` while
  `mlfq_global_ticks` is a multiple of 128, so it is executed once a period just when one process
  returns from `yield` in that time.
-/

namespace Xv6.Sched
open Xv6.Lib
open Xv6.Vm (NPROC ProcId ProcState)

/-! ### Loops over the process table -/

/-- `L i` is the place of CPU `c` in a loop over `proc[]`, before the turn of `proc[i]`. -/
def TableLoop (c : CpuId) (L : ProcId → CpuPc) : Prop :=
  ∀ i a s r s', s.cpus c = L i → step (c, a) s = .ok (r, s') →
    a = .visit ∧ ∀ j, nextProc i = some j → s'.cpus c = L j

theorem boost_tableLoop (c : CpuId) : TableLoop c .boost := by
  intro i a s r s' hpc h
  have hgoes : Goes (s.cpus c) a r (s'.cpus c) := (step_goes h).1
  rw [hpc] at hgoes
  generalize s'.cpus c = after at hgoes ⊢
  cases hgoes with
  | boost i j hj => exact ⟨rfl, fun j' hj' => congrArg CpuPc.boost (Option.some.inj (hj.symm.trans hj'))⟩
  | boosted i hi => exact ⟨rfl, fun j hj => by cases hi.symm.trans hj⟩

theorem trapBoost_tableLoop (c : CpuId) (p : ProcId) : TableLoop c (.trapBoost p) := by
  intro i a s r s' hpc h
  have hgoes : Goes (s.cpus c) a r (s'.cpus c) := (step_goes h).1
  rw [hpc] at hgoes
  generalize s'.cpus c = after at hgoes ⊢
  cases hgoes with
  | trapBoost p i j hj =>
      exact ⟨rfl, fun j' hj' => congrArg (CpuPc.trapBoost p) (Option.some.inj (hj.symm.trans hj'))⟩
  | trapBoosted p i hi => exact ⟨rfl, fun j hj => by cases hi.symm.trans hj⟩

/-- How many of the steps are made by CPU `c`. -/
def stepsOf (c : CpuId) (ops : List (CpuId × Act)) : Nat := ops.countP fun o => o.1 = c

theorem stepsOf_self (c : CpuId) (a : Act) (ops : List (CpuId × Act)) :
    stepsOf c ((c, a) :: ops) = stepsOf c ops + 1 := by
  simp [stepsOf]

theorem stepsOf_other {c d : CpuId} (h : d ≠ c) (a : Act) (ops : List (CpuId × Act)) :
    stepsOf c ((d, a) :: ops) = stepsOf c ops := by
  simp [stepsOf, h]

section Loop

variable {c : CpuId} {L : ProcId → CpuPc} (hL : TableLoop c L)

include hL

/-- A CPU in the loop that makes enough steps comes to every process that is left. -/
theorem loop_visits {ops : List (CpuId × Act)} {s₁ s₂ : System} {rs : List Label} {i j : ProcId}
    (hpc : s₁.cpus c = L i) (hrun : run step ops s₁ = .ok (rs, s₂))
    (hsteps : NPROC - i.val ≤ stepsOf c ops) (hij : i ≤ j) :
    ∃ pre post rs₁ s r s' rs₂, ops = pre ++ (c, .visit) :: post ∧
      run step pre s₁ = .ok (rs₁, s) ∧ s.cpus c = L j ∧
      step (c, .visit) s = .ok (r, s') ∧ run step post s' = .ok (rs₂, s₂) := by
  induction ops generalizing s₁ rs i with
  | nil =>
      have hlt := i.isLt
      simp only [stepsOf, List.countP_nil] at hsteps
      omega
  | cons o ops ih =>
      obtain ⟨r, rs', s', rfl, hstep, hrest⟩ := run_cons_inv hrun
      obtain ⟨d, a⟩ := o
      by_cases hd : d = c
      · subst hd
        obtain ⟨rfl, hnext⟩ := hL i a s₁ r s' hpc hstep
        by_cases hji : j = i
        · subst hji
          exact ⟨[], ops, [], s₁, r, s', rs', rfl, rfl, hpc, hstep, hrest⟩
        · have hlt : i.val + 1 < NPROC := by
            have := j.isLt
            have : i.val ≠ j.val := fun he => hji (Fin.ext he.symm)
            have : i.val ≤ j.val := hij
            omega
          have hsucc : nextProc i = some ⟨i.val + 1, hlt⟩ := dif_pos hlt
          have hle : (⟨i.val + 1, hlt⟩ : ProcId) ≤ j := by
            have : i.val ≠ j.val := fun he => hji (Fin.ext he.symm)
            have : i.val ≤ j.val := hij
            exact Fin.mk_le_of_le_val (by omega)
          have hleft : NPROC - (i.val + 1) ≤ stepsOf d ops := by
            rw [stepsOf_self] at hsteps
            omega
          obtain ⟨pre, post, rs₁, s, r', t, rs₂, rfl, h₁, h₂, h₃, h₄⟩ :=
            ih (hnext _ hsucc) hrest hleft hle
          exact ⟨(d, .visit) :: pre, post, r :: rs₁, s, r', t, rs₂, rfl, run_cons hstep h₁, h₂, h₃, h₄⟩
      · have hpc' : s'.cpus c = L i := ((step_goes hstep).2 c (Ne.symm hd)).trans hpc
        have hleft : NPROC - i.val ≤ stepsOf c ops := by rwa [stepsOf_other hd] at hsteps
        obtain ⟨pre, post, rs₁, s, r', t, rs₂, rfl, h₁, h₂, h₃, h₄⟩ := ih hpc' hrest hleft hij
        exact ⟨(d, a) :: pre, post, r :: rs₁, s, r', t, rs₂, rfl, run_cons hstep h₁, h₂, h₃, h₄⟩

/-- Where the CPU is after some of its steps. -/
theorem loop_place {ops : List (CpuId × Act)} {s₁ s₂ : System} {rs : List Label} {i : ProcId}
    (hpc : s₁.cpus c = L i) (hrun : run step ops s₁ = .ok (rs, s₂))
    (hlt : i.val + stepsOf c ops < NPROC) : s₂.cpus c = L ⟨i.val + stepsOf c ops, hlt⟩ := by
  induction ops generalizing s₁ rs i with
  | nil =>
      cases hrun
      exact hpc
  | cons o ops ih =>
      obtain ⟨r, rs', s', rfl, hstep, hrest⟩ := run_cons_inv hrun
      obtain ⟨d, a⟩ := o
      by_cases hd : d = c
      · subst hd
        have hcount := stepsOf_self d a ops
        have hlt' : i.val + 1 < NPROC := by omega
        have hnext := (hL i a s₁ r s' hpc hstep).2 ⟨i.val + 1, hlt'⟩ (dif_pos hlt')
        have hplace := ih hnext hrest (show i.val + 1 + stepsOf d ops < NPROC by omega)
        rw [hplace]
        congr 2
        change i.val + 1 + stepsOf d ops = i.val + stepsOf d ((d, a) :: ops)
        omega
      · have hcount := stepsOf_other hd a ops
        have hpc' : s'.cpus c = L i := ((step_goes hstep).2 c (Ne.symm hd)).trans hpc
        rw [ih hpc' hrest (by rwa [← hcount])]
        congr 2
        rw [hcount]

end Loop

/-! ### The boost of `scheduler` -/

/-- After `k` ticks at level 0 a process has used no more than these, or had a whole quantum. -/
def Fresh (k : Nat) (t : Task) : Prop :=
  (t.level = 0 ∧ t.usedTicks ≤ k ∧ ∀ n, t.loaded = some n → n ≤ k) ∨ quantum 0 ≤ k

/-- How many ticks an event is. -/
def Event.ticks : Event → Nat
  | .tick => 1
  | _ => 0

theorem account_fresh {k : Nat} {t : Task} (h : Fresh k t) : Fresh k t.account := by
  rcases h with ⟨hlevel, hused, hloaded⟩ | hk
  · unfold Task.account
    split
    · next hfull =>
        rw [hlevel] at hfull
        exact Or.inr (hfull.trans hused)
    · exact Or.inl ⟨hlevel, hused, hloaded⟩
  · exact Or.inr hk

theorem tick_fresh {k : Nat} {t : Task} (hlevel : t.level = 0) (hused : t.usedTicks ≤ k)
    (hloaded : ∀ n, t.loaded = some n → n ≤ k) : Fresh (k + 1) t.tick := by
  unfold Task.tick
  split
  · next n hn => exact Or.inl ⟨hlevel, Nat.succ_le_succ (hloaded n hn), fun _ hx => by cases hx⟩
  · exact Or.inl ⟨hlevel, Nat.le_succ_of_le hused, fun n hn => Nat.le_succ_of_le (hloaded n hn)⟩

theorem event_fresh {k : Nat} {t : Task} (e : Event) (h : Fresh k t) :
    Fresh (k + e.ticks) (e.apply t) := by
  cases e with
  | change x =>
      rcases h with ⟨hlevel, hused⟩ | hk
      · cases x with
        | alloc => exact Or.inl ⟨rfl, Nat.zero_le _, fun _ hx => by cases hx⟩
        | start => exact Or.inl ⟨hlevel, hused⟩
        | abandon => exact Or.inl ⟨hlevel, hused⟩
        | reap => exact Or.inl ⟨hlevel, hused⟩
        | wake => exact Or.inl ⟨hlevel, hused⟩
      · exact Or.inr hk
  | dispatch => exact h
  | load =>
      rcases h with ⟨hlevel, hused, -⟩ | hk
      · refine Or.inl ⟨hlevel, hused, fun n hn => ?_⟩
        cases hn
        exact hused
      · exact Or.inr hk
  | tick =>
      rcases h with ⟨hlevel, hused, hloaded⟩ | hk
      · exact tick_fresh hlevel hused hloaded
      · exact Or.inr (Nat.le_succ_of_le hk)
  | charge => exact h
  | yield => exact account_fresh h
  | sleep => exact account_fresh h
  | exit => exact account_fresh h
  | syscall => exact h
  | boost =>
      rcases h with ⟨hlevel, hused, hloaded⟩ | hk
      · simp only [Event.apply, Task.boost]
        split
        · exact Or.inl ⟨rfl, Nat.zero_le _, hloaded⟩
        · exact Or.inl ⟨hlevel, hused, hloaded⟩
      · exact Or.inr hk
  | trapBoost =>
      rcases h with ⟨hlevel, hused⟩ | hk
      · simp only [Event.apply, Task.trapBoost]
        split
        · exact Or.inl ⟨rfl, hused⟩
        · exact Or.inl ⟨hlevel, hused⟩
      · exact Or.inr hk

/-- The ticks of `p` in a run. -/
def ticksOf (p : ProcId) (rs : List Label) : Nat := rs.count (some (p, .tick))

/-- **A whole run**: a process leaves level 0 after a quantum of ticks only. -/
theorem run_fresh {ops : List (CpuId × Act)} {s s' : System} {rs : List Label} {p : ProcId} {k : Nat}
    (h : Fresh k (s.tasks p)) (hrun : run step ops s = .ok (rs, s')) :
    Fresh (k + ticksOf p rs) (s'.tasks p) := by
  induction ops generalizing s rs k with
  | nil =>
      cases hrun
      exact h
  | cons o ops ih =>
      obtain ⟨r, rs', s₁, rfl, hstep, hrest⟩ := run_cons_inv hrun
      rcases step_cases hstep with ⟨rfl, htasks⟩ | ⟨q, e, rfl, htasks, -⟩
      · rw [← htasks] at h
        have hcount : ticksOf p (none :: rs') = ticksOf p rs' := by simp [ticksOf]
        rw [hcount]
        exact ih h hrest
      · by_cases hq : p = q
        · subst hq
          have htask : s₁.tasks p = e.apply (s.tasks p) := (congrFun htasks p).trans (if_pos rfl)
          have hcount : ticksOf p (some (p, e) :: rs') = e.ticks + ticksOf p rs' := by
            cases e <;> simp [ticksOf, Event.ticks, Nat.add_comm]
          rw [hcount, ← Nat.add_assoc]
          exact ih (htask ▸ event_fresh e h) hrest
        · have htask : s₁.tasks p = s.tasks p := (congrFun htasks p).trans (if_neg hq)
          have hcount : ticksOf p (some (q, e) :: rs') = ticksOf p rs' := by
            simp [ticksOf, Ne.symm hq]
          rw [hcount]
          exact ih (htask ▸ h) hrest

/-- The turn of `p` in the boost loop. -/
theorem step_boost {c : CpuId} {s s' : System} {r : Label} {p : ProcId} (hpc : s.cpus c = .boost p)
    (h : step (c, .visit) s = .ok (r, s')) :
    r = some (p, .boost) ∧ s'.tasks p = (s.tasks p).boost := by
  simp only [step, hpc] at h
  split at h <;> cases h <;> exact ⟨rfl, if_pos rfl⟩

/-- **The boost reaches every process that it finds RUNNABLE or RUNNING.**  Once a CPU in the boost
loop of `scheduler` has made its 64 steps, it has come to each process.  A process that was then
RUNNABLE or RUNNING left that turn with level 0 and no used ticks.  If it is at another level at
the end it has had a whole quantum of level 0 since, to which only the ticks add that its timer
branch had loaded and not yet stored.  Any other process was left as it was. -/
theorem boost_reaches {c : CpuId} {ops : List (CpuId × Act)} {s₁ s₂ : System} {rs : List Label}
    (hpc : s₁.cpus c = .boost firstProc) (hrun : run step ops s₁ = .ok (rs, s₂))
    (hsteps : NPROC ≤ stepsOf c ops) (p : ProcId) :
    ∃ pre post rs₁ s s' rs₂, ops = pre ++ (c, .visit) :: post ∧
      run step pre s₁ = .ok (rs₁, s) ∧ s.cpus c = .boost p ∧
      step (c, .visit) s = .ok (some (p, .boost), s') ∧ run step post s' = .ok (rs₂, s₂) ∧
      ((s.tasks p).state = .runnable ∨ (s.tasks p).state = .running →
        (s'.tasks p).level = 0 ∧ (s'.tasks p).usedTicks = 0 ∧
        ((s₂.tasks p).level ≠ 0 → quantum 0 ≤ (s.tasks p).loaded.getD 0 + ticksOf p rs₂)) ∧
      (¬ ((s.tasks p).state = .runnable ∨ (s.tasks p).state = .running) →
        s'.tasks p = s.tasks p) := by
  obtain ⟨pre, post, rs₁, s, r, s', rs₂, hops, hpre, hat, hstep, hpost⟩ :=
    loop_visits (boost_tableLoop c) hpc hrun hsteps (Nat.zero_le p.val : firstProc ≤ p)
  obtain ⟨rfl, htask⟩ := step_boost hat hstep
  refine ⟨pre, post, rs₁, s, s', rs₂, hops, hpre, hat, hstep, hpost, fun hlive => ?_, fun hdead => ?_⟩
  · have hreset : s'.tasks p = { s.tasks p with level := 0, usedTicks := 0 } :=
      htask.trans (if_pos hlive)
    refine ⟨by rw [hreset], by rw [hreset], fun hlevel => ?_⟩
    have hfresh : Fresh ((s.tasks p).loaded.getD 0) (s'.tasks p) := by
      rw [hreset]
      refine Or.inl ⟨rfl, Nat.zero_le _, fun n hn => ?_⟩
      rw [show (s.tasks p).loaded = some n from hn]
      exact le_rfl
    exact (run_fresh hfresh hpost).resolve_left fun h => hlevel h.1
  · exact htask.trans (if_neg hdead)

/-- `init` is demoted and stays RUNNABLE; after 126 more ticks CPU 0 enters the boost loop. -/
def demotedWaits : List (CpuId × Act) :=
  twoSlices ++ onCpu cpu0 (List.replicate 126 .timer ++ [.enter])

def boostTurns : List (CpuId × Act) := onCpu cpu0 (List.replicate NPROC .visit)

theorem boost_reaches_init :
    ∃ rs₁ s₁ rs₂ s₂, run step demotedWaits boot = .ok (rs₁, s₁) ∧ (s₁.tasks firstProc).level = 1 ∧
      run step boostTurns s₁ = .ok (rs₂, s₂) ∧
      ∃ s s', s.cpus cpu0 = .boost firstProc ∧ step (cpu0, .visit) s = .ok (some (firstProc, .boost), s') ∧
        ((s.tasks firstProc).state = .runnable → (s'.tasks firstProc).level = 0) := by
  have heval : (run step demotedWaits boot).toOption.map (fun x =>
      decide (x.2.cpus cpu0 = .boost firstProc ∧ (x.2.tasks firstProc).level = 1) &&
        (run step boostTurns x.2).toOption.isSome) = some true := by decide +kernel
  obtain ⟨⟨rs₁, s₁⟩, hrun₁, hs₁⟩ := Option.map_eq_some_iff.mp heval
  rw [Bool.and_eq_true, decide_eq_true_eq] at hs₁
  obtain ⟨⟨hpc, hlevel⟩, hreturns⟩ := hs₁
  obtain ⟨rs₂, hrun₂⟩ := eq_ok_stateAfter boot hreturns
  obtain ⟨pre, post, rs, s, s', rs', -, -, hat, hstep, -, hlive, -⟩ :=
    boost_reaches hpc hrun₂ (by decide) firstProc
  exact ⟨rs₁, s₁, rs₂, _, eq_ok_of_toOption hrun₁, hlevel, hrun₂, s, s', hat, hstep,
    fun h => (hlive (Or.inl h)).1⟩

/-- `init` is demoted and sleeps; after 126 more ticks CPU 0 enters the boost loop. -/
def demotedSleeps : List (CpuId × Act) :=
  twoSlices ++ onCpu cpu0 (.enter :: List.replicate 128 .visit ++ [.resume, .sleep]) ++
    onCpu cpu0 (List.replicate 126 .timer ++ [.enter])

/-- A process that sleeps through the boost is still at level 1 after it. -/
theorem boost_spares_sleeping :
    ∃ rs₁ s₁ rs₂ s₂, run step demotedSleeps boot = .ok (rs₁, s₁) ∧
      s₁.cpus cpu0 = .boost firstProc ∧ run step boostTurns s₁ = .ok (rs₂, s₂) ∧
      s₂.cpus cpu0 = .scan 0 0 ∧ (s₂.tasks firstProc).state = .sleeping ∧
      (s₂.tasks firstProc).level = 1 := by
  have heval : (run step demotedSleeps boot).toOption.map (fun x =>
      decide (x.2.cpus cpu0 = .boost firstProc) &&
        ((run step boostTurns x.2).toOption.map fun y =>
          decide (y.2.cpus cpu0 = .scan 0 0 ∧ (y.2.tasks firstProc).state = .sleeping ∧
            (y.2.tasks firstProc).level = 1)) == some true) = some true := by decide +kernel
  obtain ⟨⟨rs₁, s₁⟩, hrun₁, hs₁⟩ := Option.map_eq_some_iff.mp heval
  rw [Bool.and_eq_true, decide_eq_true_eq, beq_iff_eq] at hs₁
  obtain ⟨hpc, hloop⟩ := hs₁
  obtain ⟨⟨rs₂, s₂⟩, hrun₂, hs₂⟩ := Option.map_eq_some_iff.mp hloop
  exact ⟨rs₁, s₁, rs₂, s₂, eq_ok_of_toOption hrun₁, hpc, eq_ok_of_toOption hrun₂,
    of_decide_eq_true hs₂⟩

/-! ### The boost of the timer branches -/

/-- The step is the store of `mlfq_global_ticks++`. -/
def countsTick (o : CpuId × Act) (s : System) : Bool :=
  match o.2, s.cpus o.1 with
  | .store, .counting _ _ => true
  | _, _ => false

/-- The step passes the test `mlfq_global_ticks % 128 == 0` and enters the boost loop. -/
def entersBoost (o : CpuId × Act) (s : System) : Bool :=
  match o.2, s.cpus o.1 with
  | .resume, .yielded _ => s.mlfqGlobalTicks % 128 == 0
  | _, _ => false

/-- The time from an increment that brings `mlfq_global_ticks` to a multiple of 128 in `s₁`, in a
run from boot, up to the next increment in `s₂`. -/
structure Period (s₁ : System) (ops : List (CpuId × Act)) (s₂ : System) : Prop where
  begins : ∃ before rs s o r, run step before boot = .ok (rs, s) ∧ countsTick o s = true ∧
    step o s = .ok (r, s₁)
  due : s₁.mlfqGlobalTicks % 128 = 0
  runs : ∃ rs, run step ops s₁ = .ok (rs, s₂)
  inside : Meets step (fun o s => countsTick o s = false) ops s₁
  ends : ∃ o r s₃, countsTick o s₂ = true ∧ step o s₂ = .ok (r, s₃)

/-- CPU `d` enters the boost loop in `s` and then, in the steps `post`, comes to every process. -/
def BoostExecuted (d : CpuId) (s : System) (post : List (CpuId × Act)) : Prop :=
  entersBoost (d, .resume) s = true ∧ ∃ r s' p, step (d, .resume) s = .ok (r, s') ∧
    ∀ i, ∃ a b rs t, post = a ++ (d, .visit) :: b ∧ run step a s' = .ok (rs, t) ∧
      t.cpus d = .trapBoost p i

/-- In the steps `ops` from `s₁` one CPU executes the boost loop, and none other enters it. -/
def BoostedOnce (s₁ : System) (ops : List (CpuId × Act)) : Prop :=
  ∃ pre d post rs s r s', ops = pre ++ (d, .resume) :: post ∧ run step pre s₁ = .ok (rs, s) ∧
    step (d, .resume) s = .ok (r, s') ∧ BoostExecuted d s post ∧
    Meets step (fun o s => entersBoost o s = false) pre s₁ ∧
    Meets step (fun o s => entersBoost o s = false) post s'

/-- One process returns from `yield` in these steps, and its CPU then makes 64 of them. -/
def OneReturn (ops : List (CpuId × Act)) : Prop :=
  ∃ pre d post, ops = pre ++ (d, .resume) :: post ∧ (∀ o ∈ pre, o.2 ≠ .resume) ∧
    (∀ o ∈ post, o.2 ≠ .resume) ∧ NPROC ≤ stepsOf d post

section Period

variable {o : CpuId × Act} {s s' s₁ s₂ : System} {r : Label} {ops : List (CpuId × Act)}

theorem clockintr_mlfq {c : CpuId} (h : clockintr c s = .ok s') :
    s'.mlfqGlobalTicks = s.mlfqGlobalTicks := by
  unfold clockintr at h
  split at h
  · split at h
    · cases h
    · cases h
      rfl
  · cases h
    rfl

/-- Only that store changes the counter. -/
theorem step_mlfq (h : step o s = .ok (r, s')) (hcount : countsTick o s = false) :
    s'.mlfqGlobalTicks = s.mlfqGlobalTicks := by
  unfold step at h
  split at h
  · split at h
    · cases h
    · split at h <;> cases h <;> rfl
  · split at h <;> cases h <;> rfl
  · split at h <;> cases h <;> rfl
  · obtain ⟨s₁, h₁, h⟩ := bind_eq_ok.mp h
    cases h
    exact clockintr_mlfq h₁
  · obtain ⟨s₁, h₁, h⟩ := bind_eq_ok.mp h
    have hmlfq := clockintr_mlfq h₁
    cases h
    exact hmlfq
  · cases h
    rfl
  · rename_i p n hpc hact
    rw [countsTick, hpc, hact] at hcount
    cases hcount
  · split at h <;> cases h <;> rfl
  · cases h
    rfl
  · cases h
    rfl
  · cases h
    rfl
  · cases h
    rfl
  · cases h
    rfl
  · cases h
    rfl
  · cases h
    rfl
  · cases h
    rfl
  · cases h
    rfl
  · split at h <;> cases h
    rfl
  · split at h <;> cases h
    rfl
  · split at h <;> cases h
    rfl
  · cases h

/-- A process returns from `yield` at its place only. -/
theorem step_resume {d : CpuId} (h : step (d, .resume) s = .ok (r, s')) :
    ∃ p, s.cpus d = .yielded p ∧
      (s.mlfqGlobalTicks % 128 = 0 → s'.cpus d = .trapBoost p firstProc) := by
  unfold step at h
  cases hpc : s.cpus d with
  | yielded p =>
      simp only [hpc] at h
      cases h
      refine ⟨p, rfl, fun hdue => ?_⟩
      rw [setPc_cpus, if_pos hdue]
  | top => simp only [hpc] at h; cases h
  | boost i => simp only [hpc] at h; cases h
  | scan level offset => simp only [hpc] at h; cases h
  | run p => simp only [hpc] at h; cases h
  | trapped p => simp only [hpc] at h; cases h
  | counting p n => simp only [hpc] at h; cases h
  | counted p => simp only [hpc] at h; cases h
  | ticking p => simp only [hpc] at h; cases h
  | charging p => simp only [hpc] at h; cases h
  | ticked p => simp only [hpc] at h; cases h
  | trapBoost p i => simp only [hpc] at h; cases h

/-- The counter stays until the next increment. -/
theorem run_mlfq {rs : List Label} (hrun : run step ops s = .ok (rs, s'))
    (hinside : Meets step (fun o s => countsTick o s = false) ops s) :
    s'.mlfqGlobalTicks = s.mlfqGlobalTicks := by
  induction ops generalizing s rs with
  | nil =>
      cases hrun
      rfl
  | cons o ops ih =>
      obtain ⟨r, rs', s₁, rfl, hstep, hrest⟩ := run_cons_inv hrun
      exact (ih hrest (hinside.2 r s₁ hstep)).trans (step_mlfq hstep hinside.1)

/-- While the counter is a multiple of 128, whoever returns from `yield` enters the boost loop. -/
theorem resume_entersBoost {d : CpuId} (h : step (d, .resume) s = .ok (r, s'))
    (hdue : s.mlfqGlobalTicks % 128 = 0) : entersBoost (d, .resume) s = true := by
  obtain ⟨p, hpc, -⟩ := step_resume h
  simp only [entersBoost, hpc, hdue]
  rfl

/-- Steps in which no CPU enters the loop are steps in which no process returns from `yield`. -/
theorem meets_no_entry_iff {rs : List Label} (hrun : run step ops s = .ok (rs, s'))
    (hdue : s.mlfqGlobalTicks % 128 = 0)
    (hinside : Meets step (fun o s => countsTick o s = false) ops s) :
    Meets step (fun o s => entersBoost o s = false) ops s ↔ ∀ o ∈ ops, o.2 ≠ .resume := by
  induction ops generalizing s rs with
  | nil => exact ⟨fun _ _ h => absurd h List.not_mem_nil, fun _ => trivial⟩
  | cons o ops ih =>
      obtain ⟨r, rs', s₁, rfl, hstep, hrest⟩ := run_cons_inv hrun
      have hdue' : s₁.mlfqGlobalTicks % 128 = 0 := by rw [step_mlfq hstep hinside.1, hdue]
      have hih := ih hrest hdue' (hinside.2 r s₁ hstep)
      obtain ⟨d, a⟩ := o
      constructor
      · rintro ⟨hno, hmeets⟩ x hx
        rcases List.mem_cons.mp hx with rfl | hx
        · rintro rfl
          rw [resume_entersBoost hstep hdue] at hno
          cases hno
        · exact hih.mp (hmeets r s₁ hstep) x hx
      · intro hall
        refine ⟨?_, fun r' t ht => ?_⟩
        · have ha : a ≠ .resume := hall (d, a) List.mem_cons_self
          cases a with
          | resume => exact absurd rfl ha
          | _ => rfl
        · cases hstep.symm.trans ht
          exact hih.mpr fun x hx => hall x (List.mem_cons_of_mem _ hx)

/-- A CPU that has entered the loop comes to every process just when it makes 64 steps. -/
theorem boostExecuted_iff {d : CpuId} {post : List (CpuId × Act)} {rs : List Label}
    (hstep : step (d, .resume) s = .ok (r, s')) (hdue : s.mlfqGlobalTicks % 128 = 0)
    (hpost : run step post s' = .ok (rs, s₂)) :
    BoostExecuted d s post ↔ NPROC ≤ stepsOf d post := by
  obtain ⟨p, -, hpc⟩ := step_resume hstep
  constructor
  · rintro ⟨-, r', s'', p', hstep', hall⟩
    cases hstep.symm.trans hstep'
    obtain ⟨a, b, rs', t, rfl, hrun, hat⟩ := hall ⟨NPROC - 1, by decide⟩
    have hcount : stepsOf d (a ++ (d, .visit) :: b) = stepsOf d a + (stepsOf d b + 1) := by
      rw [← stepsOf_self d .visit b, stepsOf, List.countP_append]
      rfl
    by_contra hlt
    have hfew : firstProc.val + stepsOf d a < NPROC := by
      have : firstProc.val = 0 := rfl
      omega
    have hplace := loop_place (trapBoost_tableLoop d p) (hpc hdue) hrun hfew
    rw [hat] at hplace
    injection hplace with _ hlast
    have hval := congrArg Fin.val hlast
    have : firstProc.val = 0 := rfl
    simp only at hval
    omega
  · intro hsteps
    refine ⟨resume_entersBoost hstep hdue, r, s', p, hstep, fun i => ?_⟩
    obtain ⟨a, b, rs₁, t, r', t', rs₂, hops, ha, hat, -, -⟩ :=
      loop_visits (trapBoost_tableLoop d p) (hpc hdue) hpost hsteps (Nat.zero_le i.val : firstProc ≤ i)
    exact ⟨a, b, rs₁, t, hops, ha, hat⟩

/-- **The tick-counter boost.**  In any run, from the increment that makes `mlfq_global_ticks` a
multiple of 128 to the next one, the boost loop is executed once just when one process returns
from `yield` in that time and its CPU has the time for the 64 turns. -/
theorem boosted_once_iff (h : Period s₁ ops s₂) : BoostedOnce s₁ ops ↔ OneReturn ops := by
  obtain ⟨rs, hrun⟩ := h.runs
  -- what both sides say of the steps around a return from `yield`
  have hsplit : ∀ {pre d post rs₁ s r s' rs₂}, ops = pre ++ (d, .resume) :: post →
      run step pre s₁ = .ok (rs₁, s) → step (d, .resume) s = .ok (r, s') →
      run step post s' = .ok (rs₂, s₂) →
      s.mlfqGlobalTicks % 128 = 0 ∧
      (Meets step (fun o s => entersBoost o s = false) pre s₁ ↔ ∀ o ∈ pre, o.2 ≠ .resume) ∧
      (Meets step (fun o s => entersBoost o s = false) post s' ↔ ∀ o ∈ post, o.2 ≠ .resume) := by
    intro pre d post rs₁ s r s' rs₂ hops hpre hstep hpost
    have hinside := h.inside
    rw [hops] at hinside
    have hinpre := meets_prefix hinside
    have hrest := meets_append hinside hpre
    have hdue : s.mlfqGlobalTicks % 128 = 0 := by rw [run_mlfq hpre hinpre, h.due]
    have hdue' : s'.mlfqGlobalTicks % 128 = 0 := by rw [step_mlfq hstep hrest.1, hdue]
    exact ⟨hdue, meets_no_entry_iff hpre h.due hinpre,
      meets_no_entry_iff hpost hdue' (hrest.2 r s' hstep)⟩
  constructor
  · rintro ⟨pre, d, post, rs₁, s, r, s', rfl, hpre, hstep, hexec, hnopre, hnopost⟩
    obtain ⟨rs₁', t, rs₂, hpre', hrest, -⟩ := run_append_inv hrun
    cases hpre.symm.trans hpre'
    obtain ⟨r', rs₃, t', rfl, hstep', hpost⟩ := run_cons_inv hrest
    cases hstep.symm.trans hstep'
    obtain ⟨hdue, hpreiff, hpostiff⟩ := hsplit rfl hpre hstep hpost
    exact ⟨pre, d, post, rfl, hpreiff.mp hnopre, hpostiff.mp hnopost,
      (boostExecuted_iff hstep hdue hpost).mp hexec⟩
  · rintro ⟨pre, d, post, rfl, hnopre, hnopost, hsteps⟩
    obtain ⟨rs₁, s, rs₂, hpre, hrest, -⟩ := run_append_inv hrun
    obtain ⟨r, rs₃, s', rfl, hstep, hpost⟩ := run_cons_inv hrest
    obtain ⟨hdue, hpreiff, hpostiff⟩ := hsplit rfl hpre hstep hpost
    exact ⟨pre, d, post, rs₁, s, r, s', rfl, hpre, hstep,
      (boostExecuted_iff hstep hdue hpost).mpr hsteps, hpreiff.mpr hnopre, hpostiff.mpr hnopost⟩

end Period

/-- Evaluate a period: `before`, an increment by `o`, the steps `ops`, and an increment by `o'`. -/
def periodCheck (before : List (CpuId × Act)) (o : CpuId × Act) (ops : List (CpuId × Act))
    (o' : CpuId × Act) : Bool :=
  match run step before boot with
  | .error _ => false
  | .ok (_, s) =>
    countsTick o s &&
      match step o s with
      | .error _ => false
      | .ok (_, s₁) =>
        s₁.mlfqGlobalTicks % 128 == 0 &&
          (decide (Meets step (fun o s => countsTick o s = false) ops s₁) &&
            match run step ops s₁ with
            | .error _ => false
            | .ok (_, s₂) => countsTick o' s₂ && (step o' s₂).toOption.isSome)

theorem period_of_check {before ops : List (CpuId × Act)} {o o' : CpuId × Act}
    (h : periodCheck before o ops o' = true) : ∃ s₁ s₂, Period s₁ ops s₂ := by
  unfold periodCheck at h
  split at h
  · cases h
  · next rs s hbefore =>
      rw [Bool.and_eq_true] at h
      obtain ⟨hcount, h⟩ := h
      split at h
      · cases h
      · next r s₁ hstep =>
          rw [Bool.and_eq_true, beq_iff_eq, Bool.and_eq_true, decide_eq_true_eq] at h
          obtain ⟨hdue, hinside, h⟩ := h
          split at h
          · cases h
          · next rs' s₂ hrun =>
              rw [Bool.and_eq_true] at h
              obtain ⟨r', hstep'⟩ := eq_ok_stateAfter boot h.2
              exact ⟨s₁, s₂, ⟨before, rs, s, o, r, hbefore, hcount, hstep⟩, hdue, ⟨rs', hrun⟩,
                hinside, ⟨o', r', _, h.1, hstep'⟩⟩

/-- `init` and its children take `mlfq_global_ticks` to 127; then CPU 0 runs one child. -/
def nearlyDue : List (CpuId × Act) :=
  slice cpu0 1 [] ++ slice cpu0 64 [.resume] ++ slice cpu0 128 [.resume] ++
    slice cpu0 128 (.resume :: forks) ++ children 1 [] ++ children 34 [.resume, .syscall, .syscall] ++
    children 34 [.resume] ++ slice cpu0 34 [.resume, .syscall, .syscall] ++
    ((List.range 29).flatMap fun i =>
      slice (if i % 2 = 0 then cpu1 else cpu0) 1 [.resume, .syscall, .syscall]) ++
    onCpu cpu0 [.enter, .visit, .resume, .syscall, .syscall, .timer, .load]

/-- The rest of a timer branch after the store of `mlfq_global_ticks++`. -/
def restOfTick : List Act := [.load, .store, .store, .yield]

/-- CPU 0 gives up the child, finds the next one, executes the boost loop there and takes a tick. -/
def boostInPeriod : List (CpuId × Act) :=
  onCpu cpu0 (restOfTick ++ .enter :: List.replicate 34 .visit ++ [.resume] ++ List.replicate 64 .visit ++
    [.timer, .load])

theorem boosted_once_child :
    ∃ s₁ s₂, Period s₁ boostInPeriod s₂ ∧ BoostedOnce s₁ boostInPeriod := by
  have hcheck : periodCheck nearlyDue (cpu0, .store) boostInPeriod (cpu0, .store) = true := by
    decide +kernel
  obtain ⟨s₁, s₂, hperiod⟩ := period_of_check hcheck
  refine ⟨s₁, s₂, hperiod, (boosted_once_iff hperiod).mpr ?_⟩
  exact ⟨onCpu cpu0 (restOfTick ++ .enter :: List.replicate 34 .visit), cpu0,
    onCpu cpu0 (List.replicate 64 .visit ++ [.timer, .load]), by decide, by decide, by decide, by decide⟩

/-- CPU 1 runs another child as well. -/
def bothRun : List (CpuId × Act) :=
  nearlyDue ++ onCpu cpu1 (.enter :: List.replicate 34 .visit ++ [.resume])

/-- CPU 1 takes its tick. -/
def otherTick : List (CpuId × Act) := onCpu cpu1 [.timer, .load]

/-- The tick of CPU 0 makes the counter 128 and that of CPU 1 makes it 129, before any process has
returned from `yield`. -/
theorem boost_skipped : ∃ s₁ s₂, Period s₁ otherTick s₂ ∧ ¬ BoostedOnce s₁ otherTick := by
  have hcheck : periodCheck bothRun (cpu0, .store) otherTick (cpu1, .store) = true := by decide +kernel
  obtain ⟨s₁, s₂, hperiod⟩ := period_of_check hcheck
  refine ⟨s₁, s₂, hperiod, ?_⟩
  rintro ⟨pre, d, post, rs, s, r, s', hops, -⟩
  have hmem : (d, Act.resume) ∈ otherTick := by
    rw [hops]
    exact List.mem_append_right _ List.mem_cons_self
  simp [otherTick, onCpu] at hmem

end Xv6.Sched
