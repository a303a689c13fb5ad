import Xv6.Sched.Defs

/-!
# Sched — Places

Which process each CPU runs, and where.

* `Goes`, `step_goes`: where a step leads, for its CPU and for the others.
* `Placed`: a process that a CPU runs is `RUNNING` and runs on no other CPU, and one between the load and
  the store of `p->used_ticks++` is there.
-/

namespace Xv6.Sched
open Xv6.Lib
open Xv6.Vm (NPROC ProcId ProcState)

/-! ### Where a step leads -/

/-- **The places of a CPU before and after a step**, with what the step changes. -/
inductive Goes : CpuPc → Act → Label → CpuPc → Prop where
  | enterBoost : Goes .top .enter none (.boost firstProc)
  | enterScan : Goes .top .enter none (.scan 0 0)
  | boost (i j : ProcId) (h : nextProc i = some j) : Goes (.boost i) .visit (some (i, .boost)) (.boost j)
  | boosted (i : ProcId) (h : nextProc i = none) : Goes (.boost i) .visit (some (i, .boost)) (.scan 0 0)
  | found (level offset : Nat) (p : ProcId) (x : Context) :
      Goes (.scan level offset) .visit (some (p, .dispatch)) (resumeAt p x)
  | passed (level offset : Nat) : Goes (.scan level offset) .visit none (scanNext level offset)
  | clock : Goes .top .timer none .top
  | trap (p : ProcId) : Goes (.run p) .timer none (.trapped p)
  | countLoad (p : ProcId) (n : Nat) : Goes (.trapped p) .load none (.counting p n)
  | countStore (p : ProcId) (n : Nat) : Goes (.counting p n) .store none (.counted p)
  | load (p : ProcId) : Goes (.counted p) .load (some (p, .load)) (.ticking p)
  | notRunning (p : ProcId) : Goes (.counted p) .load none (.yielded p)
  | tick (p : ProcId) : Goes (.ticking p) .store (some (p, .tick)) (.charging p)
  | charge (p : ProcId) : Goes (.charging p) .store (some (p, .charge)) (.ticked p)
  | yield (p : ProcId) : Goes (.ticked p) .yield (some (p, .yield)) .top
  | due (p : ProcId) : Goes (.yielded p) .resume none (.trapBoost p firstProc)
  | notDue (p : ProcId) : Goes (.yielded p) .resume none (.run p)
  | trapBoost (p i j : ProcId) (h : nextProc i = some j) :
      Goes (.trapBoost p i) .visit (some (i, .trapBoost)) (.trapBoost p j)
  | trapBoosted (p i : ProcId) (h : nextProc i = none) :
      Goes (.trapBoost p i) .visit (some (i, .trapBoost)) (.run p)
  | sleep (p : ProcId) : Goes (.run p) .sleep (some (p, .sleep)) .top
  | exit (p : ProcId) : Goes (.run p) .exit (some (p, .exit)) .top
  | killed (p : ProcId) : Goes (.trapped p) .exit (some (p, .exit)) .top
  | syscall (p : ProcId) : Goes (.run p) .syscall (some (p, .syscall)) (.run p)
  | change (p : ProcId) (k : Change) (q : ProcId) :
      Goes (.run p) (.change k q) (some (q, .change k)) (.run p)
  | wake (q : ProcId) : Goes .top (.change .wake q) (some (q, .change .wake)) .top
  | clockWake (p q : ProcId) : Goes (.trapped p) (.change .wake q) (some (q, .change .wake)) (.trapped p)

theorem clockintr_cpus {c : CpuId} {s s' : System} (h : clockintr c s = .ok s') :
    s'.cpus = s.cpus := by
  unfold clockintr at h
  split at h
  · split at h
    · cases h
    · cases h
      rfl
  · cases h
    rfl

theorem setPc_cpus (s : System) (c : CpuId) (pc : CpuPc) : (setPc s c pc).cpus c = pc := by
  simp [setPc]

/-- A CPU goes on, and the others stay where they are. -/
theorem step_goes {o : CpuId × Act} {s s' : System} {r : Label} (h : step o s = .ok (r, s')) :
    Goes (s.cpus o.1) o.2 r (s'.cpus o.1) ∧ ∀ c, c ≠ o.1 → s'.cpus c = s.cpus c := by
  have hset : ∀ {t : System} {pc : CpuPc}, t.cpus = (setPc s o.1 pc).cpus → Goes (s.cpus o.1) o.2 r pc →
      Goes (s.cpus o.1) o.2 r (t.cpus o.1) ∧ ∀ c, c ≠ o.1 → t.cpus c = s.cpus c := by
    intro t pc ht hg
    rw [ht, setPc_cpus]
    exact ⟨hg, fun c hc => if_neg hc⟩
  unfold step at h
  split at h
  · rename_i hpc ha
    rw [hpc, ha] at hset ⊢
    split at h
    · cases h
    · split at h
      · cases h
        exact hset rfl .enterBoost
      · cases h
        exact hset rfl .enterScan
  · rename_i i hpc ha
    rw [hpc, ha] at hset ⊢
    split at h
    · next j hj =>
        cases h
        exact hset rfl (.boost i j hj)
    · next hi =>
        cases h
        exact hset rfl (.boosted i hi)
  · rename_i level offset hpc ha
    rw [hpc, ha] at hset ⊢
    split at h
    · cases h
      exact hset rfl (.found level offset _ _)
    · cases h
      exact hset rfl (.passed level offset)
  · rename_i hpc ha
    obtain ⟨s₁, h₁, h⟩ := bind_eq_ok.mp h
    cases h
    rw [clockintr_cpus h₁, hpc, ha]
    exact ⟨.clock, fun _ _ => rfl⟩
  · rename_i p hpc ha
    rw [hpc, ha] at hset ⊢
    obtain ⟨s₁, h₁, h⟩ := bind_eq_ok.mp h
    cases h
    exact hset (by simp only [setPc, clockintr_cpus h₁]) (.trap p)
  · rename_i p hpc ha
    rw [hpc, ha] at hset ⊢
    cases h
    exact hset rfl (.countLoad p _)
  · rename_i p n hpc ha
    rw [hpc, ha] at hset ⊢
    cases h
    exact hset rfl (.countStore p n)
  · rename_i p hpc ha
    rw [hpc, ha] at hset ⊢
    split at h
    · cases h
      exact hset rfl (.load p)
    · cases h
      exact hset rfl (.notRunning p)
  · rename_i p hpc ha
    rw [hpc, ha] at hset ⊢
    cases h
    exact hset rfl (.tick p)
  · rename_i p hpc ha
    rw [hpc, ha] at hset ⊢
    cases h
    exact hset rfl (.charge p)
  · rename_i p hpc ha
    rw [hpc, ha] at hset ⊢
    cases h
    exact hset rfl (.yield p)
  · rename_i p hpc ha
    rw [hpc, ha] at hset ⊢
    cases h
    refine hset rfl ?_
    split
    · exact .due p
    · exact .notDue p
  · rename_i p i hpc ha
    rw [hpc, ha] at hset ⊢
    cases h
    refine hset rfl ?_
    split
    · next j hj => exact .trapBoost p i j hj
    · next hi => exact .trapBoosted p i hi
  · rename_i p hpc ha
    rw [hpc, ha] at hset ⊢
    cases h
    exact hset rfl (.sleep p)
  · rename_i p hpc ha
    rw [hpc, ha] at hset ⊢
    cases h
    exact hset rfl (.exit p)
  · rename_i p hpc ha
    rw [hpc, ha] at hset ⊢
    cases h
    exact hset rfl (.killed p)
  · rename_i p hpc ha
    cases h
    exact ⟨hpc ▸ ha ▸ .syscall p, fun _ _ => rfl⟩
  · rename_i p k q hpc ha
    split at h
    · cases h
      exact ⟨hpc ▸ ha ▸ .change p k q, fun _ _ => rfl⟩
    · cases h
  · rename_i q hpc ha
    split at h
    · cases h
      exact ⟨hpc ▸ ha ▸ .wake q, fun _ _ => rfl⟩
    · cases h
  · rename_i p q hpc ha
    split at h
    · cases h
      exact ⟨hpc ▸ ha ▸ .clockWake p q, fun _ _ => rfl⟩
    · cases h
  · cases h

/-! ### The process of a CPU -/

/-- The process whose code a CPU is running. -/
def CpuPc.holds : CpuPc → Option ProcId
  | .run p => some p
  | .trapped p => some p
  | .counting p _ => some p
  | .counted p => some p
  | .ticking p => some p
  | .charging p => some p
  | .ticked p => some p
  | .yielded p => some p
  | .trapBoost p _ => some p
  | _ => none

/-- The process of a CPU after a step of the CPU with this label. -/
def holdsAfter (before : Option ProcId) : Label → Option ProcId
  | some (p, .dispatch) => some p
  | some (_, .yield) => none
  | some (_, .sleep) => none
  | some (_, .exit) => none
  | _ => before

theorem holds_resumeAt (p : ProcId) (x : Context) : (resumeAt p x).holds = some p := by
  cases x <;> rfl

theorem holds_scanNext (level offset : Nat) : (scanNext level offset).holds = none := by
  unfold scanNext
  split
  · rfl
  · split <;> rfl

theorem dispatch_holds (s : System) (c : CpuId) (p : ProcId) :
    ((dispatch s c p).cpus c).holds = some p := by
  rw [show (dispatch s c p).cpus c = resumeAt p (s.tasks p).context from setPc_cpus _ _ _]
  exact holds_resumeAt p _

theorem step_holds {o : CpuId × Act} {s s' : System} {r : Label} (h : step o s = .ok (r, s')) :
    (s'.cpus o.1).holds = holdsAfter (s.cpus o.1).holds r := by
  have hgoes := (step_goes h).1
  generalize s.cpus o.1 = before at hgoes ⊢
  generalize o.2 = act at hgoes
  generalize s'.cpus o.1 = after at hgoes ⊢
  cases hgoes with
  | found level offset p x => exact holds_resumeAt p x
  | passed level offset => exact holds_scanNext level offset
  | _ => rfl

/-! ### Processes in their places -/

/-- A CPU comes before the store of `used_ticks` by the load. -/
theorem step_load {o : CpuId × Act} {s s' : System} {r : Label} {p : ProcId} (h : step o s = .ok (r, s')) :
    s'.cpus o.1 = .ticking p ↔ r = some (p, .load) := by
  have hgoes := (step_goes h).1
  generalize s.cpus o.1 = before at hgoes
  generalize o.2 = act at hgoes
  generalize s'.cpus o.1 = after at hgoes ⊢
  cases hgoes with
  | found level offset q x => cases x <;> simp [resumeAt]
  | passed level offset =>
      rw [scanNext]
      split
      · simp
      · split <;> simp
  | load q => simp
  | _ => simp

/-- The next step of such a CPU is the store. -/
theorem step_ticking {o : CpuId × Act} {s s' : System} {r : Label} {p : ProcId}
    (hpc : s.cpus o.1 = .ticking p) (h : step o s = .ok (r, s')) : r = some (p, .tick) := by
  have hgoes := (step_goes h).1
  rw [hpc] at hgoes
  generalize o.2 = act at hgoes
  generalize s'.cpus o.1 = after at hgoes
  cases hgoes
  rfl

/-- **Every process is in its place.** -/
structure Placed (s : System) : Prop where
  running : ∀ c p, (s.cpus c).holds = some p → (s.tasks p).state = .running
  one : ∀ c d p, (s.cpus c).holds = some p → (s.cpus d).holds = some p → c = d
  loaded : ∀ p, (s.tasks p).loaded ≠ none ↔ ∃ c, s.cpus c = .ticking p

/-- The process leaves the CPU. -/
def Event.leaves : Event → Bool
  | .yield => true
  | .sleep => true
  | .exit => true
  | _ => false

@[simp] theorem account_state (t : Task) : t.account.state = t.state := by
  unfold Task.account
  split <;> rfl

@[simp] theorem account_loaded (t : Task) : t.account.loaded = t.loaded := by
  unfold Task.account
  split <;> rfl

theorem boost_same (t : Task) : t.boost.state = t.state ∧ t.boost.loaded = t.loaded := by
  unfold Task.boost
  split <;> exact ⟨rfl, rfl⟩

theorem trapBoost_same (t : Task) : t.trapBoost.state = t.state ∧ t.trapBoost.loaded = t.loaded := by
  unfold Task.trapBoost
  split <;> exact ⟨rfl, rfl⟩

theorem tick_same (t : Task) : t.tick.state = t.state ∧ t.tick.loaded = none := by
  unfold Task.tick
  split
  · exact ⟨rfl, rfl⟩
  · next hnone => exact ⟨rfl, hnone⟩

/-- A value that is loaded after an event is that of the event, or was there before. -/
theorem loaded_before {t : Task} {e : Event} (h : (e.apply t).loaded ≠ none) :
    e = .load ∨ (t.loaded ≠ none ∧ e ≠ .tick) := by
  cases e with
  | change k =>
      cases k with
      | alloc => exact absurd rfl h
      | start => exact .inr ⟨h, by simp⟩
      | abandon => exact .inr ⟨h, by simp⟩
      | reap => exact .inr ⟨h, by simp⟩
      | wake => exact .inr ⟨h, by simp⟩
  | dispatch => exact .inr ⟨h, by simp⟩
  | load => exact .inl rfl
  | tick => exact absurd (tick_same t).2 h
  | charge => exact .inr ⟨h, by simp⟩
  | yield => exact .inr ⟨account_loaded { t with state := .runnable, context := .yield } ▸ h, by simp⟩
  | sleep => exact .inr ⟨account_loaded { t with state := .sleeping, context := .sleep } ▸ h, by simp⟩
  | exit => exact .inr ⟨account_loaded { t with state := .zombie } ▸ h, by simp⟩
  | syscall => exact .inr ⟨h, by simp⟩
  | boost => exact .inr ⟨(boost_same t).2 ▸ h, by simp⟩
  | trapBoost => exact .inr ⟨(trapBoost_same t).2 ▸ h, by simp⟩

section Placed

variable {s s' : System} {o : CpuId × Act} {c : CpuId} {p : ProcId} {e : Event} {r : Label}

/-- The CPU that makes an event of a `RUNNING` process, but for the boosts, is that of the process. -/
theorem Allowed.own (h : Allowed s c p e) (hs : (s.tasks p).state = .running) (he : e ≠ .boost)
    (he' : e ≠ .trapBoost) : (s.cpus c).holds = some p := by
  cases e with
  | change k => cases k <;> cases hs.symm.trans h
  | dispatch => cases hs.symm.trans h.1
  | load => rw [h.2]; rfl
  | tick => rw [show s.cpus c = .ticking p from h]; rfl
  | charge => rw [show s.cpus c = .charging p from h]; rfl
  | yield => rw [show s.cpus c = .ticked p from h]; rfl
  | sleep => rw [show s.cpus c = .run p from h]; rfl
  | exit =>
      rcases h with h | h
      · rw [h]
        rfl
      · rw [h]
        rfl
  | syscall => rw [show s.cpus c = .run p from h]; rfl
  | boost => exact absurd rfl he
  | trapBoost => exact absurd rfl he'

/-- A `RUNNING` process stays so until it leaves the CPU. -/
theorem Allowed.stays (h : Allowed s c p e) (hs : (s.tasks p).state = .running) (he : e.leaves = false) :
    (e.apply (s.tasks p)).state = .running := by
  cases e with
  | change k => cases k <;> cases hs.symm.trans h
  | dispatch => rfl
  | load => exact hs
  | tick => exact (tick_same _).1.trans hs
  | charge => exact hs
  | yield => cases he
  | sleep => cases he
  | exit => cases he
  | syscall => exact hs
  | boost => exact (boost_same _).1.trans hs
  | trapBoost => exact (trapBoost_same _).1.trans hs

/-- A process that a CPU has after a step was dispatched there, or it was there and does not leave. -/
theorem holdsAfter_cases {before : Option ProcId} (h : holdsAfter before r = some p) :
    r = some (p, .dispatch) ∨ (before = some p ∧ ∀ q e, r = some (q, e) → e.leaves = false) := by
  match r, h with
  | none, h => exact .inr ⟨h, fun _ _ hr => by cases hr⟩
  | some (q, e), h =>
      cases e with
      | dispatch =>
          cases h
          exact .inl rfl
      | yield => cases h
      | sleep => cases h
      | exit => cases h
      | change k => exact .inr ⟨h, fun _ _ hr => by cases hr; rfl⟩
      | load => exact .inr ⟨h, fun _ _ hr => by cases hr; rfl⟩
      | tick => exact .inr ⟨h, fun _ _ hr => by cases hr; rfl⟩
      | charge => exact .inr ⟨h, fun _ _ hr => by cases hr; rfl⟩
      | syscall => exact .inr ⟨h, fun _ _ hr => by cases hr; rfl⟩
      | boost => exact .inr ⟨h, fun _ _ hr => by cases hr; rfl⟩
      | trapBoost => exact .inr ⟨h, fun _ _ hr => by cases hr; rfl⟩

theorem holds_before (h : step o s = .ok (r, s')) (hc : (s'.cpus c).holds = some p) :
    (c = o.1 ∧ r = some (p, .dispatch)) ∨
      ((s.cpus c).holds = some p ∧ ∀ q e, c = o.1 → r = some (q, e) → e.leaves = false) := by
  by_cases hco : c = o.1
  · rw [hco, step_holds h] at hc
    rcases holdsAfter_cases hc with hr | ⟨hbefore, hstays⟩
    · exact .inl ⟨hco, hr⟩
    · exact .inr ⟨hco ▸ hbefore, fun q e _ => hstays q e⟩
  · rw [(step_goes h).2 _ hco] at hc
    exact .inr ⟨hc, fun _ _ ho => absurd ho hco⟩

/-- The event of a step of its process. -/
theorem step_event (h : step o s = .ok (some (p, e), s')) :
    s'.tasks p = e.apply (s.tasks p) ∧ Allowed s o.1 p e := by
  rcases step_cases h with ⟨hr, -⟩ | ⟨q, e', hr, htasks, hallowed⟩
  · cases hr
  · cases hr
    exact ⟨(congrFun htasks p).trans (if_pos rfl), hallowed⟩

theorem Placed.step_running (hs : Placed s) (h : step o s = .ok (r, s')) (hc : (s'.cpus c).holds = some p) :
    (s'.tasks p).state = .running := by
  rcases holds_before h hc with ⟨-, rfl⟩ | ⟨hbefore, hstays⟩
  · rw [(step_event h).1]
    rfl
  · have hrun := hs.running c p hbefore
    rcases step_cases h with ⟨-, htasks⟩ | ⟨q, e, rfl, htasks, hallowed⟩
    · rw [htasks]
      exact hrun
    · rw [htasks]
      by_cases hpq : p = q
      · subst hpq
        -- the process leaves only by a step of its own CPU, which then does not have it any more
        have hleaves : e.leaves = false := by
          by_contra hleaves
          have hown := hallowed.own hrun (fun he => hleaves (he ▸ rfl)) fun he => hleaves (he ▸ rfl)
          exact hleaves (hstays p e (hs.one c o.1 p hbefore hown) rfl)
        exact (congrArg Task.state (if_pos rfl)).trans (hallowed.stays hrun hleaves)
      · exact (congrArg Task.state (if_neg hpq)).trans hrun

theorem Placed.step_one (hs : Placed s) (h : step o s = .ok (r, s')) {d : CpuId}
    (hc : (s'.cpus c).holds = some p) (hd : (s'.cpus d).holds = some p) : c = d := by
  -- a process that is dispatched was `RUNNABLE`, and so on no CPU
  have hnew : ∀ {x : CpuId}, r = some (p, .dispatch) → (s.cpus x).holds ≠ some p := by
    rintro x rfl hx
    cases (hs.running x p hx).symm.trans (step_event h).2.1
  rcases holds_before h hc with ⟨rfl, hr⟩ | ⟨hc, -⟩
  · rcases holds_before h hd with ⟨rfl, -⟩ | ⟨hd, -⟩
    · rfl
    · exact absurd hd (hnew hr)
  · rcases holds_before h hd with ⟨-, hr⟩ | ⟨hd, -⟩
    · exact absurd hc (hnew hr)
    · exact hs.one c d p hc hd

/-- While a tick is loaded, the process is `RUNNING` and only the store and the boosts can come to it. -/
theorem Placed.while_loaded (hs : Placed s) (h : Allowed s c p e) (hp : (s.tasks p).loaded ≠ none) :
    (s.tasks p).state = .running ∧ (e = .tick ∨ e = .boost ∨ e = .trapBoost) := by
  obtain ⟨d, hd⟩ := (hs.loaded p).mp hp
  have hholds : (s.cpus d).holds = some p := by rw [hd]; rfl
  have hrun := hs.running d p hholds
  refine ⟨hrun, ?_⟩
  by_cases hb : e = .boost
  · exact .inr (.inl hb)
  by_cases ht : e = .trapBoost
  · exact .inr (.inr ht)
  -- any other event is one of the CPU that has loaded the tick, and that CPU stores it next
  have hcd := hs.one c d p (h.own hrun hb ht) hholds
  rw [← hcd] at hd
  cases e with
  | tick => exact .inl rfl
  | change k => cases k <;> cases hrun.symm.trans h
  | dispatch => cases hrun.symm.trans h.1
  | load => cases hd.symm.trans h.2
  | charge => cases hd.symm.trans h
  | yield => cases hd.symm.trans h
  | sleep => cases hd.symm.trans h
  | exit =>
      rcases h with h | h
      · cases hd.symm.trans h
      · cases hd.symm.trans h
  | syscall => cases hd.symm.trans h
  | boost => exact absurd rfl hb
  | trapBoost => exact absurd rfl ht

/-- A tick that is loaded stays so until it is stored. -/
theorem Placed.step_keeps_loaded (hs : Placed s) (h : step o s = .ok (r, s')) (hp : (s.tasks p).loaded ≠ none)
    (hr : r ≠ some (p, .tick)) : (s'.tasks p).loaded ≠ none := by
  rcases step_cases h with ⟨-, htasks⟩ | ⟨q, e, rfl, htasks, -⟩
  · rwa [htasks]
  · by_cases hpq : p = q
    · subst hpq
      obtain ⟨htask, hallowed⟩ := step_event h
      rw [htask]
      rcases (hs.while_loaded hallowed hp).2 with rfl | rfl | rfl
      · exact absurd rfl hr
      · exact (boost_same _).2.symm ▸ hp
      · exact (trapBoost_same _).2.symm ▸ hp
    · rw [htasks]
      exact (congrArg Task.loaded (if_neg hpq)).symm ▸ hp

theorem Placed.step_loaded (hs : Placed s) (h : step o s = .ok (r, s')) :
    (s'.tasks p).loaded ≠ none ↔ ∃ c, s'.cpus c = .ticking p := by
  by_cases hload : r = some (p, .load)
  · subst hload
    refine iff_of_true ?_ ⟨o.1, (step_load h).mpr rfl⟩
    rw [(step_event h).1]
    simp [Event.apply, Task.load]
  constructor
  · intro hp
    -- the value was there before the step, and the step did not store it
    have hbefore : (s.tasks p).loaded ≠ none ∧ r ≠ some (p, .tick) := by
      rcases step_cases h with ⟨rfl, htasks⟩ | ⟨q, e, rfl, htasks, -⟩
      · rw [htasks] at hp
        exact ⟨hp, by simp⟩
      · by_cases hpq : p = q
        · subst hpq
          rw [(step_event h).1] at hp
          rcases loaded_before hp with rfl | ⟨hp, he⟩
          · exact absurd rfl hload
          · exact ⟨hp, fun hr => he (by cases hr; rfl)⟩
        · rw [htasks] at hp
          exact ⟨(congrArg Task.loaded (if_neg hpq)) ▸ hp, fun hr => hpq (by cases hr; rfl)⟩
    obtain ⟨c, hc⟩ := (hs.loaded p).mp hbefore.1
    have hne : c ≠ o.1 := by
      rintro rfl
      exact hbefore.2 (step_ticking hc h)
    exact ⟨c, ((step_goes h).2 _ hne).trans hc⟩
  · rintro ⟨c, hc⟩
    have hne : c ≠ o.1 := by
      rintro rfl
      exact hload ((step_load h).mp hc)
    rw [(step_goes h).2 _ hne] at hc
    refine hs.step_keeps_loaded h ((hs.loaded p).mpr ⟨c, hc⟩) ?_
    rintro rfl
    have hown : s.cpus o.1 = .ticking p := (step_event h).2
    exact hne (hs.one c o.1 p (by rw [hc]; rfl) (by rw [hown]; rfl))

theorem step_placed (hs : Placed s) (h : step o s = .ok (r, s')) : Placed s' :=
  ⟨fun _ _ => hs.step_running h, fun _ _ _ => hs.step_one h, fun _ => hs.step_loaded h⟩

theorem boot_placed : Placed boot := by
  refine ⟨fun c p hc => (by cases hc), fun c d p hc => (by cases hc), fun p => iff_of_false (not_not.mpr ?_) ?_⟩
  · unfold boot
    dsimp only
    split <;> rfl
  · rintro ⟨c, hc⟩
    cases hc

end Placed

end Xv6.Sched
