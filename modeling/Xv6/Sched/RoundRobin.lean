import Xv6.Sched.Quantum

/-!
# Sched — Round robin

Whether two processes of one level take turns, on one CPU.

The search of `scheduler` starts at the cursor `prev_i`, which every dispatch moves, at whatever
level.  `distance k p` is the number of tries after which a search from the cursor `k` comes to `p`.

* `Stretch` — a part of a run on one CPU between two consecutive dispatches of a process `A`, in
  which `A` and `B` want the CPU at one level.
* `round_robin` — `B` is dispatched in such a stretch exactly when, until then, each search of the
  level that is left with `A` and `B` starts at a cursor from which `B` comes before `A`.
-/

namespace Xv6.Sched
open Xv6.Lib
open Xv6.Vm (NPROC ProcId ProcState asInt)

/-! ### The process of the CPU -/

/-- Only the process of CPU `c` is `RUNNING`. -/
def Seated (c : CpuId) (s : System) : Prop :=
  ∀ p, (s.tasks p).state = .running → (s.cpus c).holds = some p

/-- A process that an event leaves `RUNNING` was so before, or is dispatched. -/
theorem running_before {t : Task} {e : Event} (h : (e.apply t).state = .running) :
    e = .dispatch ∨ (t.state = .running ∧ e.leaves = false) := by
  cases e with
  | change k =>
      cases k with
      | alloc => cases h
      | start => cases h
      | abandon => cases h
      | reap => cases h
      | wake => cases h
  | dispatch => exact .inl rfl
  | load => exact .inr ⟨h, rfl⟩
  | tick => exact .inr ⟨(tick_same t).1.symm.trans h, rfl⟩
  | charge => exact .inr ⟨h, rfl⟩
  | yield => cases (account_state _).symm.trans h
  | sleep => cases (account_state _).symm.trans h
  | exit => cases (account_state _).symm.trans h
  | syscall => exact .inr ⟨h, rfl⟩
  | boost => exact .inr ⟨(boost_same t).1.symm.trans h, rfl⟩
  | trapBoost => exact .inr ⟨(trapBoost_same t).1.symm.trans h, rfl⟩

/-- A process that takes or leaves the CPU is the only one the CPU can have. -/
theorem holdsAfter_other {s : System} {c : CpuId} {p q : ProcId} {e : Event} (hne : p ≠ q)
    (hallowed : Allowed s c q e) (h : (s.cpus c).holds = some p) :
    holdsAfter (s.cpus c).holds (some (q, e)) = some p := by
  cases e with
  | dispatch =>
      obtain ⟨-, offset, hpc⟩ := hallowed
      rw [hpc] at h
      cases h
  | yield =>
      rw [show s.cpus c = .ticked q from hallowed] at h
      cases h
      exact absurd rfl hne
  | sleep =>
      rw [show s.cpus c = .run q from hallowed] at h
      cases h
      exact absurd rfl hne
  | exit =>
      have hq : (s.cpus c).holds = some q := by
        rcases hallowed with hpc | hpc
        · rw [hpc]
          rfl
        · rw [hpc]
          rfl
      exact absurd (Option.some.inj (h.symm.trans hq)) hne
  | change k => exact h
  | load => exact h
  | tick => exact h
  | charge => exact h
  | syscall => exact h
  | boost => exact h
  | trapBoost => exact h

theorem step_seated {c : CpuId} {a : Act} {s s' : System} {r : Label} (hs : Seated c s)
    (h : step (c, a) s = .ok (r, s')) : Seated c s' := by
  intro p hp
  rw [step_holds h]
  rcases step_cases h with ⟨rfl, htasks⟩ | ⟨q, e, rfl, htasks, hallowed⟩
  · rw [htasks] at hp
    exact hs p hp
  · rw [htasks] at hp
    by_cases hpq : p = q
    · subst hpq
      simp only [touch, if_pos] at hp
      rcases running_before hp with rfl | ⟨hbefore, hstays⟩
      · rfl
      · have hseat := hs p hbefore
        cases e with
        | dispatch => rfl
        | yield => cases hstays
        | sleep => cases hstays
        | exit => cases hstays
        | change k => exact hseat
        | load => exact hseat
        | tick => exact hseat
        | charge => exact hseat
        | syscall => exact hseat
        | boost => exact hseat
        | trapBoost => exact hseat
    · simp only [touch, if_neg hpq] at hp
      exact holdsAfter_other hpq hallowed (hs p hp)

theorem boot_seated (c : CpuId) : Seated c boot := by
  intro p hp
  unfold boot at hp
  dsimp only at hp
  split at hp
  · cases hp
  · cases hp

/-- On one CPU, the process of the CPU is the only one that is `RUNNING`. -/
theorem run_seated {c : CpuId} {ops : List (CpuId × Act)} (hone : ∀ x ∈ ops, x.1 = c)
    {s s' : System} {rs : List Label} (hs : Seated c s) (h : run step ops s = .ok (rs, s')) :
    Seated c s' := by
  induction ops generalizing s rs with
  | nil =>
      cases h
      exact hs
  | cons o ops ih =>
      obtain ⟨r, rs', s₁, rfl, h₁, h₂⟩ := run_cons_inv h
      obtain ⟨c', a⟩ := o
      have hc : c' = c := hone (c', a) (List.mem_cons_self)
      subst hc
      exact ih (fun x hx => hone x (List.mem_cons_of_mem _ hx)) (step_seated hs h₁) h₂

/-! ### The search -/

/-- After how many tries a search from the cursor `k` comes to `p`. -/
def distance (k : Nat) (p : ProcId) : Nat := (p.val + (NPROC - k % NPROC)) % NPROC

theorem distance_lt (k : Nat) (p : ProcId) : distance k p < NPROC := Nat.mod_lt _ (by decide)

theorem procAt_distance (s : System) (p : ProcId) : procAt s (distance s.prevI p) = p := by
  apply Fin.ext
  have hp := p.isLt
  simp only [procAt, distance, NPROC] at *
  omega

theorem distance_procAt (s : System) {offset : Nat} (h : offset < NPROC) :
    distance s.prevI (procAt s offset) = offset := by
  simp only [procAt, distance, NPROC] at *
  omega

/-- The process is one that the search of this level takes. -/
def Eligible (s : System) (level : Nat) (p : ProcId) : Prop :=
  (s.tasks p).state = .runnable ∧ (s.tasks p).level = level

/-- A try of the search. -/
theorem step_scan {c : CpuId} {a : Act} {s s' : System} {r : Label} {level offset : Nat}
    (hpc : s.cpus c = .scan level offset) (h : step (c, a) s = .ok (r, s')) :
    (Eligible s level (procAt s offset) ∧ r = some (procAt s offset, .dispatch) ∧
        s' = dispatch s c (procAt s offset)) ∨
      (¬ Eligible s level (procAt s offset) ∧ r = none ∧ s' = setPc s c (scanNext level offset)) := by
  unfold step at h
  rw [hpc] at h
  cases a with
  | visit =>
      simp only at h
      split at h
      · rename_i hhit
        cases h
        exact .inl ⟨hhit, rfl, rfl⟩
      · rename_i hmiss
        cases h
        exact .inr ⟨hmiss, rfl, rfl⟩
  | enter => cases h
  | timer => cases h
  | load => cases h
  | store => cases h
  | yield => cases h
  | resume => cases h
  | sleep => cases h
  | exit => cases h
  | syscall => cases h
  | change k q => cases h

/-- A search that has made a try came there by a try that found nothing. -/
theorem step_scan_succ {c : CpuId} {a : Act} {s s' : System} {r : Label} {level offset : Nat}
    (h : step (c, a) s = .ok (r, s')) (hpc' : s'.cpus c = .scan level (offset + 1)) :
    s.cpus c = .scan level offset ∧ offset + 1 < NPROC := by
  have hgoes : Goes (s.cpus c) a r (s'.cpus c) := (step_goes h).1
  rw [hpc'] at hgoes
  generalize hafter : CpuPc.scan level (offset + 1) = after at hgoes
  generalize s.cpus c = before at hgoes ⊢
  cases hgoes with
  | found level₁ offset₁ p x => cases x <;> cases hafter
  | passed level₁ offset₁ =>
      rw [scanNext] at hafter
      split at hafter
      · rename_i hlt
        cases hafter
        exact ⟨rfl, hlt⟩
      · split at hafter <;> cases hafter
  | _ => cases hafter

/-- A search in progress, traced back to where it started. -/
theorem search_start {c : CpuId} {level offset : Nat} {s₁ s₂ : System} {mid : List (CpuId × Act)}
    {rs : List Label} (hone : ∀ x ∈ mid, x.1 = c) (hrun : run step mid s₁ = .ok (rs, s₂))
    (hstart : (s₁.cpus c).holds ≠ none) (hpc : s₂.cpus c = .scan level offset) :
    ∃ m₁ m₂ rs₁ rs₂ s, mid = m₁ ++ m₂ ∧ rs = rs₁ ++ rs₂ ∧ run step m₁ s₁ = .ok (rs₁, s) ∧
      s.cpus c = .scan level 0 ∧ s.tasks = s₂.tasks ∧ s.prevI = s₂.prevI ∧ offset < NPROC ∧
      ∀ k < offset, ¬ Eligible s₂ level (procAt s₂ k) := by
  induction offset generalizing mid rs s₂ with
  | zero => exact ⟨mid, [], rs, [], s₂, by simp, by simp, hrun, hpc, rfl, rfl, by decide, by simp⟩
  | succ offset ih =>
      rcases List.eq_nil_or_concat mid with rfl | ⟨m, o, rfl⟩
      · cases hrun
        rw [hpc] at hstart
        exact absurd rfl hstart
      · rw [List.concat_eq_append] at hone hrun ⊢
        obtain ⟨rs₁, s, rs₂, h₁, h₂, rfl⟩ := run_append_inv hrun
        obtain ⟨r, rs', s', rfl, hstep, hnil⟩ := run_cons_inv h₂
        cases hnil
        obtain ⟨c', a⟩ := o
        have hc : c' = c := hone (c', a) (by simp)
        subst hc
        obtain ⟨hpc₁, hlt⟩ := step_scan_succ hstep hpc
        rcases step_scan hpc₁ hstep with ⟨-, -, rfl⟩ | ⟨hmiss, -, rfl⟩
        · have hholds := dispatch_holds s c' (procAt s offset)
          rw [hpc] at hholds
          cases hholds
        · obtain ⟨m₁, m₂, rs₁', rs₂', t, rfl, rfl, hrun₁, hpc₀, htasks, hprev, -, hmissed⟩ :=
            ih (fun x hx => hone x (List.mem_append_left _ hx)) h₁ hpc₁
          refine ⟨m₁, m₂ ++ [(c', a)], rs₁', rs₂' ++ [r], t, by simp, by simp, hrun₁, hpc₀, htasks,
            hprev, hlt, fun k hk => ?_⟩
          rcases Nat.lt_succ_iff_lt_or_eq.mp hk with hk | rfl
          · exact hmissed k hk
          · exact hmiss

/-- A search of a level in which no process comes before `A` dispatches no other. -/
theorem search_finds {c : CpuId} {level offset : Nat} {A p : ProcId} {s s' : System}
    {ops : List (CpuId × Act)} {rs : List Label} (hone : ∀ x ∈ ops, x.1 = c)
    (hrun : run step ops s = .ok (rs, s')) (hpc : s.cpus c = .scan level offset)
    (hle : offset ≤ distance s.prevI A) (hA : Eligible s level A)
    (hfirst : ∀ q, Eligible s level q → distance s.prevI A ≤ distance s.prevI q)
    (hp : some (p, Event.dispatch) ∈ rs) : some (A, Event.dispatch) ∈ rs := by
  induction ops generalizing offset s rs with
  | nil =>
      cases hrun
      cases hp
  | cons o ops ih =>
      obtain ⟨r, rs', s₁, rfl, hstep, hrest⟩ := run_cons_inv hrun
      obtain ⟨c', a⟩ := o
      have hc : c' = c := hone (c', a) List.mem_cons_self
      subst hc
      have hlt : offset < NPROC := lt_of_le_of_lt hle (distance_lt _ _)
      rcases step_scan hpc hstep with ⟨hhit, rfl, -⟩ | ⟨hmiss, rfl, rfl⟩
      · have hdist := hfirst _ hhit
        rw [distance_procAt s hlt] at hdist
        have hA' : procAt s offset = A := by
          rw [le_antisymm hle hdist]
          exact procAt_distance s A
        rw [hA']
        exact List.mem_cons_self
      · have hne : offset ≠ distance s.prevI A := by
          rintro rfl
          rw [procAt_distance] at hmiss
          exact hmiss hA
        have hnext : scanNext level offset = .scan level (offset + 1) := by
          have := distance_lt s.prevI A
          exact if_pos (by omega)
        rw [hnext] at hrest
        have hp' : some (p, Event.dispatch) ∈ rs' := by simpa using hp
        have hle' : offset + 1 ≤ distance s.prevI A := by omega
        have hmem := ih (s := setPc s c' (.scan level (offset + 1)))
          (fun x hx => hone x (List.mem_cons_of_mem _ hx)) hrest (setPc_cpus _ _ _) hle' hA hfirst hp'
        exact List.mem_cons_of_mem _ hmem

/-! ### Turns -/

/-- The process wants the CPU, or has it, at this level. -/
def Wants (level : Nat) (t : Task) : Prop :=
  (t.state = .runnable ∨ t.state = .running) ∧ t.level = level

/-- `A` and `B` want the CPU, at the same level. -/
def Together (A B : ProcId) (level : Nat) (s : System) : Prop :=
  Wants level (s.tasks A) ∧ Wants level (s.tasks B)

instance decidableWants (level : Nat) (t : Task) : Decidable (Wants level t) :=
  inferInstanceAs (Decidable (_ ∧ _))

instance decidableTogether (A B : ProcId) (level : Nat) (s : System) :
    Decidable (Together A B level s) :=
  inferInstanceAs (Decidable (_ ∧ _))

/-- No process is `RUNNING` during a search, so the search may take one that wants the CPU. -/
theorem Wants.eligible {p : ProcId} {level offset l : Nat} {c : CpuId} {s : System}
    (h : Wants level (s.tasks p)) (hseated : Seated c s) (hpc : s.cpus c = .scan l offset) :
    Eligible s level p := by
  obtain ⟨hstate, hlevel⟩ := h
  refine ⟨hstate.resolve_right fun hrunning => ?_, hlevel⟩
  have hholds := hseated p hrunning
  rw [hpc] at hholds
  cases hholds

/-- The step is a turn of a boost loop. -/
def boosts : Label → Bool
  | some (_, .boost) => true
  | some (_, .trapBoost) => true
  | _ => false

/-- A stretch of a run on CPU `c` alone, from a dispatch of `A`, which leads to `s₁`, to the next
one, which is made in `s₂`; `A` and `B` are together throughout, and nothing is boosted. -/
structure Stretch (c : CpuId) (A B : ProcId) (level : Nat) (s₁ : System)
    (mid : List (CpuId × Act)) (rs : List Label) (s₂ : System) : Prop where
  first : ∃ pre rs₀ s₀, (∀ x ∈ pre, x.1 = c) ∧ run step pre boot = .ok (rs₀, s₀) ∧
    step (c, .visit) s₀ = .ok (some (A, .dispatch), s₁)
  one : ∀ x ∈ mid, x.1 = c
  between : run step mid s₁ = .ok (rs, s₂)
  next : ∃ s₃, step (c, .visit) s₂ = .ok (some (A, .dispatch), s₃)
  consecutive : some (A, Event.dispatch) ∉ rs
  together : Meets step (fun _ s => Together A B level s) (mid ++ [(c, .visit)]) s₁
  noBoost : ∀ r ∈ rs, boosts r = false

/-- CPU `c` starts to search a level in which no process comes before both `A` and `B`. -/
def LeftWith (A B : ProcId) (level : Nat) (c : CpuId) (s : System) : Prop :=
  s.cpus c = .scan level 0 ∧ ∀ q, Eligible s level q →
    distance s.prevI A ≤ distance s.prevI q ∨ distance s.prevI B ≤ distance s.prevI q

/-- As long as `B` is not dispatched, every search that is left with `A` and `B` starts at a cursor
from which `B` comes before `A`. -/
def CursorKept (c : CpuId) (A B : ProcId) (level : Nat) (s₁ : System) (mid : List (CpuId × Act)) :
    Prop :=
  ∀ m₁ m₂ rs₁ s, mid = m₁ ++ m₂ → run step m₁ s₁ = .ok (rs₁, s) →
    some (B, Event.dispatch) ∉ rs₁ → LeftWith A B level c s →
      distance s.prevI B < distance s.prevI A

/-- **Turns within a level.**  Between two consecutive dispatches of `A`, `B` is dispatched exactly
when the cursor is kept for it. -/
theorem round_robin {c : CpuId} {A B : ProcId} {level : Nat} {s₁ s₂ : System}
    {mid : List (CpuId × Act)} {rs : List Label} (h : Stretch c A B level s₁ mid rs s₂) :
    some (B, Event.dispatch) ∈ rs ↔ CursorKept c A B level s₁ mid := by
  obtain ⟨pre, rs₀, s₀, hpre, hrun₀, hfirst⟩ := h.first
  have hseated₁ : Seated c s₁ := step_seated (run_seated hpre (boot_seated c) hrun₀) hfirst
  constructor
  · intro hB m₁ m₂ rs₁ s hmid hrun₁ hB₁ ⟨hpc, hleft⟩
    by_contra hlt
    subst hmid
    obtain ⟨rs₁', s', rs₂, h₁, h₂, hrs⟩ := run_append_inv h.between
    cases hrun₁.symm.trans h₁
    rw [hrs] at hB
    have hB₂ : some (B, Event.dispatch) ∈ rs₂ := (List.mem_append.mp hB).resolve_left hB₁
    have hone₁ : ∀ x ∈ m₁, x.1 = c := fun x hx => h.one x (List.mem_append_left _ hx)
    have hone₂ : ∀ x ∈ m₂, x.1 = c := fun x hx => h.one x (List.mem_append_right _ hx)
    have htogether : Together A B level s := by
      have hall := h.together
      rw [List.append_assoc] at hall
      have hmeets := meets_append hall h₁
      cases m₂ with
      | nil => exact hmeets.1
      | cons o m₂ => exact hmeets.1
    have hA : Eligible s level A :=
      htogether.1.eligible (run_seated hone₁ hseated₁ h₁) hpc
    have hAfirst : ∀ q, Eligible s level q → distance s.prevI A ≤ distance s.prevI q := by
      intro q hq
      rcases hleft q hq with hle | hle
      · exact hle
      · exact le_trans (not_lt.mp hlt) hle
    have hmem := search_finds hone₂ h₂ hpc (Nat.zero_le _) hA hAfirst hB₂
    exact h.consecutive (hrs ▸ List.mem_append_right _ hmem)
  · intro hcond
    by_contra hB
    obtain ⟨s₃, hnext⟩ := h.next
    have htogether : Together A B level s₂ := (meets_append h.together h.between).1
    have hstart : (s₁.cpus c).holds ≠ none := by
      rw [step_holds hfirst]
      simp [holdsAfter]
    rcases step_cases hnext with ⟨hr, -⟩ | ⟨p, e, hr, -, hallowed⟩
    · cases hr
    cases hr
    obtain ⟨-, offset, hpc⟩ := hallowed
    rw [htogether.1.2] at hpc
    obtain ⟨m₁, m₂, rs₁, rs₂, s, hmid, hrs, hrun₁, hpc₀, htasks, hprev, hlt, hmissed⟩ :=
      search_start h.one h.between hstart hpc
    have hA : distance s₂.prevI A = offset := by
      rcases step_scan hpc hnext with ⟨-, hr, -⟩ | ⟨-, hr, -⟩
      · cases hr
        exact distance_procAt s₂ hlt
      · cases hr
    -- whoever the search would have met before `A` was not to be taken
    have hbefore : ∀ q, Eligible s₂ level q → offset ≤ distance s₂.prevI q := by
      intro q hq
      by_contra hlt'
      refine hmissed (distance s₂.prevI q) (not_le.mp hlt') ?_
      rw [procAt_distance]
      exact hq
    have hBs₂ : Eligible s₂ level B :=
      htogether.2.eligible (run_seated h.one hseated₁ h.between) hpc
    have hfirstB := hcond m₁ m₂ rs₁ s hmid hrun₁
      (fun hm => hB (hrs ▸ List.mem_append_left _ hm))
      ⟨hpc₀, fun q hq => .inl (by
        rw [hprev, hA]
        rw [Eligible, htasks] at hq
        exact hbefore q hq)⟩
    rw [hprev, hA] at hfirstB
    exact absurd (hbefore B hBs₂) (not_le.mpr hfirstB)

/-! ### Stretches from boot -/

section Evaluated

variable (c : CpuId) (pre mid : List (CpuId × Act))

/-- The state in which the stretch starts, after `pre` and one more try. -/
def stretchStart : System :=
  stateAfter (step (c, .visit) (stateAfter (run step pre boot) boot)) boot

def stretchLabels : List Label :=
  ((run step mid (stretchStart c pre)).toOption.map Prod.fst).getD []

def stretchEnd : System := stateAfter (run step mid (stretchStart c pre)) boot

/-- The label of a try in `s`. -/
def tryLabel (s : System) : Option Label := (step (c, .visit) s).toOption.map Prod.fst

variable {c pre mid}

theorem step_of_tryLabel {s : System} {r : Label} (h : tryLabel c s = some r) :
    step (c, .visit) s = .ok (r, stateAfter (step (c, .visit) s) boot) := by
  obtain ⟨⟨r', s'⟩, hs, rfl⟩ := Option.map_eq_some_iff.mp h
  rw [eq_ok_of_toOption hs]
  rfl

/-- What evaluating a run shows of a stretch. -/
theorem stretch_of_eval {A B : ProcId} {level : Nat}
    (hone : ∀ x ∈ pre ++ mid, x.1 = c)
    (hpre : (run step pre boot).toOption.isSome = true)
    (hfirst : tryLabel c (stateAfter (run step pre boot) boot) = some (some (A, .dispatch)))
    (hmid : (run step mid (stretchStart c pre)).toOption.isSome = true)
    (hnext : tryLabel c (stretchEnd c pre mid) = some (some (A, .dispatch)))
    (hconsecutive : some (A, Event.dispatch) ∉ stretchLabels c pre mid)
    (htogether : Meets step (fun _ s => Together A B level s) (mid ++ [(c, .visit)])
      (stretchStart c pre))
    (hboost : ∀ r ∈ stretchLabels c pre mid, boosts r = false) :
    Stretch c A B level (stretchStart c pre) mid (stretchLabels c pre mid)
      (stretchEnd c pre mid) := by
  obtain ⟨rs₀, hrun₀⟩ := eq_ok_stateAfter boot hpre
  obtain ⟨rs, hrun⟩ := eq_ok_stateAfter boot hmid
  have hlabels : stretchLabels c pre mid = rs := by
    rw [stretchLabels, hrun]
    rfl
  refine ⟨⟨pre, rs₀, _, fun x hx => hone x (List.mem_append_left _ hx), hrun₀,
    step_of_tryLabel hfirst⟩, fun x hx => hone x (List.mem_append_right _ hx), ?_,
    ⟨_, step_of_tryLabel hnext⟩, hconsecutive, htogether, hboost⟩
  rw [hlabels]
  exact hrun

end Evaluated

def slot1 : ProcId := ⟨1, by decide⟩
def slot2 : ProcId := ⟨2, by decide⟩

/-- `init` forks two processes, which get the slots 1 and 2, and sleeps. -/
def forkTwo : List (CpuId × Act) :=
  onCpu cpu0 [.enter, .visit, .change .alloc slot1, .change .start slot1, .change .alloc slot2,
    .change .start slot2, .sleep]

/-- The processes in slots 1 and 2 each have one tick. -/
def oneTickEach : List (CpuId × Act) :=
  onCpu cpu0 (tickActs ++ [.store, .yield, .enter, .visit] ++ tickActs ++ [.store, .yield, .enter] ++
    List.replicate 62 .visit)

/-- The state in which the process in slot 1 is dispatched for the first time. -/
def forkedTwo : System := stretchStart cpu0 (forkTwo ++ onCpu cpu0 [.enter])

theorem round_robin_two :
    (∃ rs s₂, Stretch cpu0 slot1 slot2 0 forkedTwo oneTickEach rs s₂) ∧
      CursorKept cpu0 slot1 slot2 0 forkedTwo oneTickEach := by
  have hstretch : Stretch cpu0 slot1 slot2 0 forkedTwo oneTickEach
      (stretchLabels cpu0 (forkTwo ++ onCpu cpu0 [.enter]) oneTickEach)
      (stretchEnd cpu0 (forkTwo ++ onCpu cpu0 [.enter]) oneTickEach) :=
    stretch_of_eval (by decide +kernel) (by decide +kernel) (by decide +kernel) (by decide +kernel)
      (by decide +kernel) (by decide +kernel) (by decide +kernel) (by decide +kernel)
  exact ⟨⟨_, _, hstretch⟩, (round_robin hstretch).mp (by decide +kernel)⟩

/-- The processes in slots 1 and 2 use up their first quantum and are demoted to level 1; then the
scheduler searches levels 0 and 1 up to slot 0. -/
def demoteTwo : List (CpuId × Act) :=
  forkTwo ++ slice cpu0 1 [] ++ slice cpu0 1 [] ++ slice cpu0 63 [.resume] ++ slice cpu0 1 [.resume] ++
    onCpu cpu0 (.enter :: List.replicate 126 .visit)

/-- While the process in slot 1 runs, `init` wakes up, in slot 0; it preempts that process at its
next tick, and sleeps again. -/
def initInBetween : List (CpuId × Act) :=
  onCpu cpu0 ([.resume, .change .wake firstProc] ++ tickActs ++ [.store, .yield, .enter] ++
    List.replicate 63 .visit ++ [.sleep, .enter] ++ List.replicate 64 .visit)

/-- The process in slot 1 is dispatched twice, and the one in slot 2 not at all in between. -/
theorem slot1_dispatched_twice :
    ∃ s₁ rs s₂, Stretch cpu0 slot1 slot2 1 s₁ initInBetween rs s₂ ∧
      some (slot2, Event.dispatch) ∉ rs := by
  have hstretch : Stretch cpu0 slot1 slot2 1 (stretchStart cpu0 demoteTwo) initInBetween
      (stretchLabels cpu0 demoteTwo initInBetween) (stretchEnd cpu0 demoteTwo initInBetween) :=
    stretch_of_eval (by decide +kernel) (by decide +kernel) (by decide +kernel) (by decide +kernel)
      (by decide +kernel) (by decide +kernel) (by decide +kernel) (by decide +kernel)
  refine ⟨stretchStart cpu0 demoteTwo, stretchLabels cpu0 demoteTwo initInBetween,
    stretchEnd cpu0 demoteTwo initInBetween, hstretch, ?_⟩
  decide +kernel

end Xv6.Sched
