import Xv6.Sched.RoundRobin

/-!
# Sched — Dispatch

One search of `scheduler`, with no other CPU in between.

The two loops, over the levels and over the table from `prev_i`, are one loop of 256 tries:
try `n` looks at the process `n % 64` places after the cursor for level `n / 64` (`tryPc`).  Each
process of a level up to 3 has one try that takes it, its *turn*, and turns are ordered by level
and then by the circular order from the cursor.  The search stops at the first turn of a RUNNABLE
process.
-/

namespace Xv6.Sched
open Xv6.Lib
open Xv6.Vm (NPROC ProcId ProcState)

/-! ### The tries of a search -/

abbrev TRIES : Nat := 4 * NPROC

/-- Where the CPU is before try `n`; after the last one it is back at the head of the loop. -/
def tryPc (n : Nat) : CpuPc :=
  if n < TRIES then .scan (n / NPROC) (n % NPROC) else .top

theorem scanNext_try {n : Nat} (h : n < TRIES) : scanNext (n / NPROC) (n % NPROC) = tryPc (n + 1) := by
  simp only [scanNext, tryPc, TRIES, NPROC] at *
  by_cases hoff : n % 64 + 1 < 64
  · rw [if_pos hoff, if_pos (by omega), show (n + 1) / 64 = n / 64 by omega,
      show (n + 1) % 64 = n % 64 + 1 by omega]
  · rw [if_neg hoff]
    by_cases hlevel : n / 64 + 1 < 4
    · rw [if_pos hlevel, if_pos (by omega), show (n + 1) / 64 = n / 64 + 1 by omega,
        show (n + 1) % 64 = 0 by omega]
    · rw [if_neg hlevel, if_neg (by omega)]

/-- Try `n` finds a process. -/
def Hit (s : System) (n : Nat) : Prop := Eligible s (n / NPROC) (procAt s (n % NPROC))

/-- The try that looks for `p` at its level. -/
def turnOf (s : System) (p : ProcId) : Nat := (s.tasks p).level * NPROC + distance s.prevI p

theorem turnOf_div (s : System) (p : ProcId) : turnOf s p / NPROC = (s.tasks p).level := by
  have hlt := distance_lt s.prevI p
  simp only [turnOf, NPROC] at *
  omega

theorem turnOf_mod (s : System) (p : ProcId) : turnOf s p % NPROC = distance s.prevI p := by
  have hlt := distance_lt s.prevI p
  simp only [turnOf, NPROC] at *
  omega

theorem hit_turnOf {s : System} {p : ProcId} (h : (s.tasks p).state = .runnable) :
    Hit s (turnOf s p) := by
  rw [Hit, turnOf_div, turnOf_mod, procAt_distance]
  exact ⟨h, rfl⟩

/-- A try that finds a process is that process's turn. -/
theorem Hit.turnOf_eq {s : System} {n : Nat} (h : Hit s n) :
    turnOf s (procAt s (n % NPROC)) = n := by
  rw [turnOf, h.2, distance_procAt s (Nat.mod_lt n (by decide))]
  exact Nat.div_add_mod' n NPROC

/-! ### A search -/

section Search

variable {s : System} {c : CpuId}

theorem setPc_setPc (s : System) (c : CpuId) (a b : CpuPc) : setPc (setPc s c a) c b = setPc s c b := by
  simp only [setPc]
  congr 1
  funext d
  split <;> rfl

theorem setPc_self (h : s.cpus c = .scan 0 0) : setPc s c (tryPc 0) = s := by
  have hcpus : (fun d => if d = c then tryPc 0 else s.cpus d) = s.cpus := by
    funext d
    split
    · next hd => rw [hd, h]; rfl
    · rfl
  rw [setPc, hcpus]

theorem dispatch_setPc (s : System) (c : CpuId) (pc : CpuPc) (p : ProcId) :
    dispatch (setPc s c pc) c p = dispatch s c p := by
  have hpc : ∀ a, setPc (touch (setPc s c pc) p .dispatch) c a = setPc (touch s p .dispatch) c a :=
    setPc_setPc (touch s p .dispatch) c pc
  rw [dispatch, hpc]
  rfl

theorem tryPc_cpus {n : Nat} (hn : n < TRIES) :
    (setPc s c (tryPc n)).cpus c = .scan (n / NPROC) (n % NPROC) := by
  rw [setPc_cpus, tryPc, if_pos hn]

/-- A try that finds nothing changes nothing. -/
theorem step_miss {n : Nat} (hn : n < TRIES) (h : ¬ Hit s n) :
    step (c, .visit) (setPc s c (tryPc n)) = .ok (none, setPc s c (tryPc (n + 1))) := by
  simp only [step, tryPc_cpus hn]
  refine (if_neg h).trans ?_
  rw [setPc_setPc, scanNext_try hn]

theorem step_hit {n : Nat} (hn : n < TRIES) (h : Hit s n) :
    step (c, .visit) (setPc s c (tryPc n)) =
      .ok (some (procAt s (n % NPROC), .dispatch), dispatch s c (procAt s (n % NPROC))) := by
  simp only [step, tryPc_cpus hn]
  refine (if_pos h).trans ?_
  rw [dispatch_setPc]
  rfl

/-- Tries that find nothing, one after the other. -/
theorem run_misses {n : Nat} (hn : n ≤ TRIES) (hpc : s.cpus c = .scan 0 0)
    (hmiss : ∀ m, m < n → ¬ Hit s m) :
    run step (List.replicate n (c, .visit)) s =
      .ok (List.replicate n none, setPc s c (tryPc n)) := by
  induction n with
  | zero =>
      rw [setPc_self hpc]
      rfl
  | succ n ih =>
      rw [List.replicate_succ', List.replicate_succ']
      refine run_append (ih (Nat.le_of_lt hn) fun m hm => hmiss m (hm.trans n.lt_succ_self)) ?_
      exact run_cons (step_miss hn (hmiss n n.lt_succ_self)) (run_nil _)

end Search

/-- **The dispatcher picks the highest priority.**  A search that no other CPU disturbs either
finds no RUNNABLE process, and then changes nothing, or dispatches one: of the least level of all
that are RUNNABLE, and the first of that level from the cursor.  That process alone becomes RUNNING
and the cursor stands after it. -/
theorem dispatcher_picks {s : System} {c : CpuId} (hpc : s.cpus c = .scan 0 0)
    (hlevel : ∀ p, (s.tasks p).state = .runnable → (s.tasks p).level ≤ 3) :
    ((∃ p, (s.tasks p).state = .runnable) ∧
      ∃ n p s', n < TRIES ∧
        run step (List.replicate (n + 1) (c, .visit)) s =
          .ok (List.replicate n none ++ [some (p, .dispatch)], s') ∧
        (s.tasks p).state = .runnable ∧
        (∀ q, (s.tasks q).state = .runnable → (s.tasks p).level ≤ (s.tasks q).level) ∧
        (∀ q, (s.tasks q).state = .runnable → (s.tasks q).level = (s.tasks p).level →
          distance s.prevI p ≤ distance s.prevI q) ∧
        (s'.tasks p).state = .running ∧ (∀ q, q ≠ p → s'.tasks q = s.tasks q) ∧
        s'.prevI = (p.val + 1) % NPROC) ∨
    ((∀ p, (s.tasks p).state ≠ .runnable) ∧
      run step (List.replicate TRIES (c, .visit)) s =
        .ok (List.replicate TRIES none, setPc s c .top)) := by
  have hturn : ∀ q, (s.tasks q).state = .runnable → turnOf s q < TRIES := fun q hq => by
    have hl := hlevel q hq
    have hd := distance_lt s.prevI q
    simp only [turnOf, TRIES, NPROC] at *
    omega
  by_cases hex : ∃ p, (s.tasks p).state = .runnable
  · refine Or.inl ⟨hex, ?_⟩
    have hhit : ∃ n, Hit s n := by
      obtain ⟨p, hp⟩ := hex
      exact ⟨_, hit_turnOf hp⟩
    classical
    -- the first try that finds a process
    obtain ⟨n, hn, hfirst⟩ : ∃ n, Hit s n ∧ ∀ m, m < n → ¬ Hit s m :=
      ⟨Nat.find hhit, Nat.find_spec hhit, fun m hm => Nat.find_min hhit hm⟩
    have hle : ∀ q, (s.tasks q).state = .runnable → n ≤ turnOf s q := fun q hq =>
      not_lt.mp fun hlt => hfirst _ hlt (hit_turnOf hq)
    generalize hp : procAt s (n % NPROC) = p
    have hrunnable : (s.tasks p).state = .runnable := hp ▸ hn.1
    have hnp : turnOf s p = n := hp ▸ hn.turnOf_eq
    have hlt : n < TRIES := hnp ▸ hturn p hrunnable
    have hstep := step_hit (c := c) hlt hn
    rw [hp] at hstep
    refine ⟨n, p, dispatch s c p, hlt, ?_, hrunnable, fun q hq => ?_, fun q hq hsame => ?_, ?_,
      fun q hq => if_neg hq, rfl⟩
    · rw [List.replicate_succ']
      exact run_append (run_misses hlt.le hpc hfirst) (run_cons hstep (run_nil _))
    · rw [← turnOf_div s p, ← turnOf_div s q, hnp]
      exact Nat.div_le_div_right (hle q hq)
    · have hq := hle q hq
      rw [← hnp, turnOf, turnOf, hsame] at hq
      omega
    · have htask : (dispatch s c p).tasks p = (s.tasks p).dispatch := if_pos rfl
      rw [htask]
      rfl
  · have hnone := not_exists.mp hex
    refine Or.inr ⟨hnone, run_misses le_rfl hpc fun m _ hm => hnone _ hm.1⟩

/-- Two children of `init`, in the slots 1 and 2, are at level 1; `init` has woken up at level 0, and CPU 0
begins a search behind all three. -/
def lastSearch : System :=
  stateAfter (run step (forkTwo ++ slice cpu0 1 [] ++ slice cpu0 1 [] ++ slice cpu0 63 [.resume] ++
    slice cpu0 1 [.resume] ++ onCpu cpu0 [.change .wake firstProc, .enter]) boot) boot

theorem dispatcher_picks_init :
    (lastSearch.tasks slot1).state = .runnable ∧ (lastSearch.tasks slot1).level = 1 ∧
      (lastSearch.tasks slot2).state = .runnable ∧ (lastSearch.tasks slot2).level = 1 ∧
      lastSearch.prevI = 3 ∧
      ∃ n s', run step (List.replicate (n + 1) (cpu0, .visit)) lastSearch =
          .ok (List.replicate n none ++ [some (firstProc, .dispatch)], s') ∧
        (s'.tasks firstProc).state = .running ∧ s'.prevI = 1 := by
  refine ⟨by decide +kernel, by decide +kernel, by decide +kernel, by decide +kernel, by decide +kernel, ?_⟩
  have hinit : (lastSearch.tasks firstProc).state = .runnable ∧ (lastSearch.tasks firstProc).level = 0 := by
    decide +kernel
  have htop : ∀ p, (lastSearch.tasks p).state = .runnable → (lastSearch.tasks p).level ≤ 3 ∧
      ((lastSearch.tasks p).level = 0 → p = firstProc) := by
    decide +kernel
  rcases dispatcher_picks (c := cpu0) (by decide +kernel) fun p hp => (htop p hp).1 with
    ⟨-, n, p, s', -, hrun, hp, hleast, -, hstate, -, hcursor⟩ | ⟨hnone, -⟩
  · have hzero : (lastSearch.tasks p).level = 0 :=
      Nat.le_zero.mp ((hleast firstProc hinit.1).trans_eq hinit.2)
    cases (htop p hp).2 hzero
    exact ⟨n, s', hrun, hstate, hcursor⟩
  · exact absurd hinit.1 (hnone firstProc)

end Xv6.Sched
