import Mathlib.Tactic

/-!
# Lib — Run

A machine is a partial step function `step : Op → σ → Except ε (ρ × σ)`: an operation either
stops the machine with an error (a kernel panic) or returns a result and the next state.
`run step ops s` performs `ops` in order and collects the results.

* `Meets step G ops s`: every operation of the run from `s` satisfies the guard `G` in the state
  in which it is issued.
* `Trace A ops a rs a'`: an abstract run, along a relation `A op a r a'` on abstract states.
* `run_simulates`: a step-by-step forward simulation lifts to whole runs; it also says that the
  concrete run does not stop.
* `run_invariant`: the special case of an invariant.
* `run_tracks`, `run_refines`: the runs that return are matched by an abstract function or relation.
* `run_history`: an invariant of the state and the results so far.
* `run_agree`: two machines that agree step by step, errors included, agree on runs.
* `run_ok_iff`: if a condition says which steps succeed, it says which runs do.
* `runFn f ops a`: the run of a total abstract machine `f : Op → α → ρ × α`.
* `run_exact`: if each step keeps the concrete state's view in agreement with `f` exactly when a
  condition holds of it, then a whole run, with all its prefixes, agrees with `f` exactly when
  the condition holds of every step.
-/

namespace Xv6.Lib

variable {σ α Op ρ ε : Type}

/-! ### Computations that may stop -/

@[simp] theorem ok_bind {β γ : Type} (x : β) (f : β → Except ε γ) :
    ((Except.ok x : Except ε β) >>= f) = f x := rfl

@[simp] theorem error_bind {β γ : Type} (e : ε) (f : β → Except ε γ) :
    ((Except.error e : Except ε β) >>= f) = Except.error e := rfl

@[simp] theorem pure_eq_ok {β : Type} (x : β) : (pure x : Except ε β) = Except.ok x := rfl

/-- A computation that returned did so through its first part. -/
theorem bind_eq_ok {β γ : Type} {x : Except ε β} {f : β → Except ε γ} {c : γ} :
    (x >>= f) = Except.ok c ↔ ∃ b, x = Except.ok b ∧ f b = Except.ok c := by
  cases x with
  | error e => simp
  | ok b => simp

/-- What a computation that is known to return returns. -/
theorem eq_ok_getD {β : Type} {x : Except ε β} (d : β) (h : x.toOption.isSome = true) :
    x = .ok (x.toOption.getD d) := by
  cases x with
  | error e => cases h
  | ok b => rfl

theorem eq_ok_of_toOption {β : Type} {x : Except ε β} {b : β} (h : x.toOption = some b) :
    x = .ok b := by
  cases x with
  | error e => cases h
  | ok b' =>
      cases h
      rfl

/-- The error with which a computation stops. -/
def errorOf {β : Type} : Except ε β → Option ε
  | .ok _ => none
  | .error e => some e

theorem eq_error_of_errorOf {β : Type} {x : Except ε β} {e : ε} (h : errorOf x = some e) :
    x = .error e := by
  cases x with
  | error e' =>
      cases h
      rfl
  | ok b => cases h

/-- The state that a computation leaves, or `d` if it stops. -/
def stateAfter {β : Type} (x : Except ε (β × σ)) (d : σ) : σ :=
  match x with
  | .ok (_, s) => s
  | .error _ => d

theorem eq_ok_stateAfter {β : Type} {x : Except ε (β × σ)} (d : σ) (h : x.toOption.isSome = true) :
    ∃ b, x = .ok (b, stateAfter x d) := by
  cases x with
  | error e => cases h
  | ok y => exact ⟨y.1, rfl⟩

/-- The state that goes with a known result. -/
theorem eq_ok_of_result {β : Type} {x : Except ε (β × σ)} {b : β}
    (h : x.toOption.map Prod.fst = some b) : ∃ s, x = .ok (b, s) := by
  cases x with
  | error e => cases h
  | ok y =>
      cases h
      exact ⟨y.2, rfl⟩

theorem forall_ok_iff {β : Type} {P : σ → Prop} (b : β) (s : σ) :
    P s ↔ ∀ b' s', (Except.ok (b, s) : Except ε (β × σ)) = .ok (b', s') → P s' := by
  refine ⟨fun hP b' s' h => ?_, fun h => h b s rfl⟩
  cases h
  exact hP

theorem forall_error {β : Type} {P : σ → Prop} (e : ε) :
    ∀ b' s', (Except.error e : Except ε (β × σ)) = .ok (b', s') → P s' := by
  intro b' s' h
  cases h

/-- A property of the state that a computation leaves is decided by performing it. -/
instance decidableForallOk {β : Type} {P : σ → Prop} [DecidablePred P] (x : Except ε (β × σ)) :
    Decidable (∀ b s, x = .ok (b, s) → P s) :=
  match x with
  | .ok (b, s) => decidable_of_iff (P s) (forall_ok_iff b s)
  | .error e => isTrue (forall_error e)

/-- An invariant of the body of a loop is an invariant of the loop. -/
theorem foldlM_invariant {β : Type} {f : σ → β → Except ε σ} {I : σ → Prop}
    (hf : ∀ s x s', I s → f s x = .ok s' → I s') :
    ∀ (l : List β) (s s' : σ), I s → l.foldlM f s = .ok s' → I s' := by
  intro l
  induction l with
  | nil =>
      intro s s' hI h
      cases h
      exact hI
  | cons x l ih =>
      intro s s' hI h
      rw [List.foldlM_cons] at h
      obtain ⟨s₁, h₁, h₂⟩ := bind_eq_ok.mp h
      exact ih s₁ s' (hf s x s₁ hI h₁) h₂

/-! ### Runs -/

/-- Perform the operations in order, collecting their results. -/
def run (step : Op → σ → Except ε (ρ × σ)) : List Op → σ → Except ε (List ρ × σ)
  | [], s => .ok ([], s)
  | o :: os, s => do
      let (r, s₁) ← step o s
      let (rs, s₂) ← run step os s₁
      return (r :: rs, s₂)

/-- Every operation of the run from `s` satisfies `G` in the state in which it is issued. -/
def Meets (step : Op → σ → Except ε (ρ × σ)) (G : Op → σ → Prop) : List Op → σ → Prop
  | [], _ => True
  | o :: os, s => G o s ∧ ∀ r s', step o s = .ok (r, s') → Meets step G os s'

/-- An abstract run: each operation `o` with result `r` moves the abstract state along `A`. -/
inductive Trace (A : Op → α → ρ → α → Prop) : List Op → α → List ρ → α → Prop where
  | nil (a : α) : Trace A [] a [] a
  | cons {o : Op} {os : List Op} {r : ρ} {rs : List ρ} {a a₁ a' : α}
      (h : A o a r a₁) (t : Trace A os a₁ rs a') : Trace A (o :: os) a (r :: rs) a'

/-- The run of a total machine. -/
def runFn (f : Op → α → ρ × α) : List Op → α → List ρ × α
  | [], a => ([], a)
  | o :: os, a =>
      let rest := runFn f os (f o a).2
      ((f o a).1 :: rest.1, rest.2)

variable {step : Op → σ → Except ε (ρ × σ)} {G : Op → σ → Prop}

theorem run_nil (s : σ) : run step [] s = .ok ([], s) := rfl

theorem run_cons {o : Op} {os : List Op} {s s₁ s₂ : σ} {r : ρ} {rs : List ρ}
    (h : step o s = .ok (r, s₁)) (t : run step os s₁ = .ok (rs, s₂)) :
    run step (o :: os) s = .ok (r :: rs, s₂) := by
  simp [run, h, t]

/-- The first step of a run that returned. -/
theorem run_cons_inv {o : Op} {os : List Op} {s s₂ : σ} {rs : List ρ}
    (h : run step (o :: os) s = .ok (rs, s₂)) :
    ∃ r rs' s₁, rs = r :: rs' ∧ step o s = .ok (r, s₁) ∧ run step os s₁ = .ok (rs', s₂) := by
  obtain ⟨⟨r, s₁⟩, h₁, h⟩ := bind_eq_ok.mp h
  obtain ⟨⟨rs', s₂'⟩, h₂, h⟩ := bind_eq_ok.mp h
  cases h
  exact ⟨r, rs', s₁, rfl, h₁, h₂⟩

theorem run_append {os os' : List Op} {s s₁ s₂ : σ} {rs rs' : List ρ}
    (h : run step os s = .ok (rs, s₁)) (h' : run step os' s₁ = .ok (rs', s₂)) :
    run step (os ++ os') s = .ok (rs ++ rs', s₂) := by
  induction os generalizing s rs with
  | nil =>
      cases h
      exact h'
  | cons o os ih =>
      obtain ⟨r, rs₁, s', rfl, h₁, h₂⟩ := run_cons_inv h
      exact run_cons h₁ (ih h₂)

/-- A run that returned, cut in two. -/
theorem run_append_inv {os os' : List Op} {s s₂ : σ} {rs : List ρ}
    (h : run step (os ++ os') s = .ok (rs, s₂)) :
    ∃ rs₁ s₁ rs₂, run step os s = .ok (rs₁, s₁) ∧ run step os' s₁ = .ok (rs₂, s₂) ∧
      rs = rs₁ ++ rs₂ := by
  induction os generalizing s rs with
  | nil => exact ⟨[], s, rs, rfl, h, rfl⟩
  | cons o os ih =>
      obtain ⟨r, rs', s', rfl, h₁, h₂⟩ := run_cons_inv h
      obtain ⟨rs₁, s₁, rs₂, h₃, h₄, rfl⟩ := ih h₂
      exact ⟨r :: rs₁, s₁, rs₂, run_cons h₁ h₃, h₄, rfl⟩

/-- The rest of a run that meets a guard meets it. -/
theorem meets_append {os os' : List Op} {s s₁ : σ} {rs : List ρ}
    (hm : Meets step G (os ++ os') s) (h : run step os s = .ok (rs, s₁)) : Meets step G os' s₁ := by
  induction os generalizing s rs with
  | nil =>
      cases h
      exact hm
  | cons o os ih =>
      obtain ⟨r, rs', s', rfl, h₁, h₂⟩ := run_cons_inv h
      exact ih (hm.2 r s' h₁) h₂

/-- The beginning of a run that meets a guard meets it. -/
theorem meets_prefix {os os' : List Op} {s : σ} (hm : Meets step G (os ++ os') s) :
    Meets step G os s := by
  induction os generalizing s with
  | nil => trivial
  | cons o os ih => exact ⟨hm.1, fun r s' h => ih (hm.2 r s' h)⟩

/-- A guard that holds of every operation in every state is met by every run. -/
theorem meets_of_forall (h : ∀ o s, G o s) : ∀ (os : List Op) (s : σ), Meets step G os s
  | [], _ => trivial
  | o :: os, s => ⟨h o s, fun _ s' _ => meets_of_forall h os s'⟩

theorem meets_cons_ok {o : Op} {os : List Op} {s s₁ : σ} {r : ρ} (h : step o s = .ok (r, s₁)) :
    G o s ∧ Meets step G os s₁ ↔ Meets step G (o :: os) s := by
  refine and_congr_right fun _ => ⟨fun hm r' s' h' => ?_, fun hm => hm r s₁ h⟩
  cases h.symm.trans h'
  exact hm

theorem meets_cons_error {o : Op} {os : List Op} {s : σ} {e : ε} (h : step o s = .error e) :
    G o s ↔ Meets step G (o :: os) s := by
  refine ⟨fun hG => ⟨hG, fun r s' h' => ?_⟩, And.left⟩
  cases h.symm.trans h'

/-- Whether a run meets a decidable guard is decided by performing it. -/
def Meets.decide [∀ o s, Decidable (G o s)] : ∀ (os : List Op) (s : σ), Decidable (Meets step G os s)
  | [], _ => isTrue trivial
  | o :: os, s =>
      match h : step o s with
      | .error _ => decidable_of_iff _ (meets_cons_error h)
      | .ok (_, s₁) =>
          have := Meets.decide os s₁
          decidable_of_iff _ (meets_cons_ok h)

instance Meets.instDecidable [∀ o s, Decidable (G o s)] (os : List Op) (s : σ) : Decidable (Meets step G os s) :=
  Meets.decide os s

/-- **Forward simulation.**  If every guarded step from related states succeeds and is matched
by an abstract step into related states, then every guarded run succeeds and is matched by an
abstract run. -/
theorem run_simulates {R : σ → α → Prop} {A : Op → α → ρ → α → Prop}
    (hstep : ∀ o s a, G o s → R s a → ∃ r s' a', step o s = .ok (r, s') ∧ A o a r a' ∧ R s' a') :
    ∀ (os : List Op) (s : σ) (a : α), Meets step G os s → R s a →
      ∃ rs s' a', run step os s = .ok (rs, s') ∧ Trace A os a rs a' ∧ R s' a' := by
  intro os
  induction os with
  | nil => exact fun s a _ hR => ⟨[], s, a, rfl, .nil a, hR⟩
  | cons o os ih =>
      intro s a ⟨hG, hrest⟩ hR
      obtain ⟨r, s₁, a₁, h₁, hA, hR₁⟩ := hstep o s a hG hR
      obtain ⟨rs, s₂, a₂, h₂, hT, hR₂⟩ := ih s₁ a₁ (hrest r s₁ h₁) hR₁
      exact ⟨r :: rs, s₂, a₂, run_cons h₁ h₂, .cons hA hT, hR₂⟩

/-- An invariant of the guarded steps is an invariant of the guarded runs. -/
theorem run_invariant {I : σ → Prop}
    (hstep : ∀ o s r s', G o s → I s → step o s = .ok (r, s') → I s') :
    ∀ (os : List Op) (s : σ) (rs : List ρ) (s' : σ), Meets step G os s → I s →
      run step os s = .ok (rs, s') → I s' := by
  intro os
  induction os with
  | nil =>
      intro s rs s' _ hI h
      cases h
      exact hI
  | cons o os ih =>
      intro s rs s' ⟨hG, hrest⟩ hI h
      obtain ⟨r, rs₁, s₁, rfl, h₁, h₂⟩ := run_cons_inv h
      exact ih s₁ rs₁ s' (hrest r s₁ h₁) (hstep o s r s₁ hG hI h₁) h₂

/-- An invariant that relates the state to what a total function makes of the operations. -/
theorem run_tracks {I : σ → α → Prop} {f : α → Op → α}
    (hstep : ∀ o s a r s', G o s → I s a → step o s = .ok (r, s') → I s' (f a o)) :
    ∀ (os : List Op) (s : σ) (a : α) (rs : List ρ) (s' : σ), Meets step G os s → I s a →
      run step os s = .ok (rs, s') → I s' (os.foldl f a) := by
  intro os
  induction os with
  | nil =>
      intro s a rs s' _ hI h
      cases h
      exact hI
  | cons o os ih =>
      intro s a rs s' ⟨hG, hrest⟩ hI h
      obtain ⟨r, rs₁, s₁, rfl, h₁, h₂⟩ := run_cons_inv h
      exact ih s₁ (f a o) rs₁ s' (hrest r s₁ h₁) (hstep o s a r s₁ hG hI h₁) h₂

/-- **Refinement.**  If every guarded step that returns is matched by an abstract step, so is every
guarded run that returns. -/
theorem run_refines {R : σ → α → Prop} {A : Op → α → ρ → α → Prop}
    (hstep : ∀ o s a r s', G o s → R s a → step o s = .ok (r, s') → ∃ a', A o a r a' ∧ R s' a') :
    ∀ (os : List Op) (s : σ) (a : α) (rs : List ρ) (s' : σ), Meets step G os s → R s a →
      run step os s = .ok (rs, s') → ∃ a', Trace A os a rs a' ∧ R s' a' := by
  intro os
  induction os with
  | nil =>
      intro s a rs s' _ hR h
      cases h
      exact ⟨a, .nil a, hR⟩
  | cons o os ih =>
      intro s a rs s' ⟨hG, hrest⟩ hR h
      obtain ⟨r, rs₁, s₁, rfl, h₁, h₂⟩ := run_cons_inv h
      obtain ⟨a₁, hA, hR₁⟩ := hstep o s a r s₁ hG hR h₁
      obtain ⟨a₂, hT, hR₂⟩ := ih s₁ a₁ rs₁ s' (hrest r s₁ h₁) hR₁ h₂
      exact ⟨a₂, .cons hA hT, hR₂⟩

/-- If `G` says which steps guarded by `H` succeed, it says which runs guarded by `H` do. -/
theorem run_ok_iff {H : Op → σ → Prop} {I : σ → Prop}
    (hok : ∀ o s, H o s → I s → ((∃ r s', step o s = .ok (r, s')) ↔ G o s))
    (hstep : ∀ o s r s', H o s → I s → step o s = .ok (r, s') → I s') :
    ∀ (os : List Op) (s : σ), Meets step H os s → I s →
      ((∃ rs s', run step os s = .ok (rs, s')) ↔ Meets step G os s) := by
  intro os
  induction os with
  | nil => exact fun s _ _ => ⟨fun _ => trivial, fun _ => ⟨[], s, rfl⟩⟩
  | cons o os ih =>
      intro s ⟨hH, hrest⟩ hI
      constructor
      · rintro ⟨rs, s', hrun⟩
        obtain ⟨r, rs₁, s₁, rfl, h₁, h₂⟩ := run_cons_inv hrun
        refine ⟨(hok o s hH hI).mp ⟨r, s₁, h₁⟩, fun r' s₂ h' => ?_⟩
        cases h₁.symm.trans h'
        exact (ih s₁ (hrest r s₁ h₁) (hstep o s r s₁ hH hI h₁)).mp ⟨rs₁, s', h₂⟩
      · rintro ⟨hG, hmeets⟩
        obtain ⟨r, s₁, h₁⟩ := (hok o s hH hI).mpr hG
        obtain ⟨rs, s', h₂⟩ := (ih s₁ (hrest r s₁ h₁) (hstep o s r s₁ hH hI h₁)).mpr
          (hmeets r s₁ h₁)
        exact ⟨r :: rs, s', run_cons h₁ h₂⟩

/-- A run together with its results so far. -/
theorem run_history {I : List ρ → σ → Prop}
    (hstep : ∀ rs o s r s', I rs s → step o s = .ok (r, s') → I (rs ++ [r]) s') :
    ∀ (os : List Op) (rs₀ rs : List ρ) (s s' : σ), I rs₀ s → run step os s = .ok (rs, s') →
      I (rs₀ ++ rs) s' := by
  intro os
  induction os with
  | nil =>
      intro rs₀ rs s s' hI h
      cases h
      rwa [List.append_nil]
  | cons o os ih =>
      intro rs₀ rs s s' hI h
      obtain ⟨r, rs₁, s₁, rfl, h₁, h₂⟩ := run_cons_inv h
      have := ih (rs₀ ++ [r]) rs₁ s₁ s' (hstep rs₀ o s r s₁ hI h₁) h₂
      rwa [List.append_assoc, List.singleton_append] at this

/-- Two computations have one result, and leave related states, or one error. -/
def Agree {β : Type} (R : σ → α → Prop) : Except ε (β × σ) → Except ε (β × α) → Prop
  | .ok (r, s), .ok (r', a) => r = r' ∧ R s a
  | .error e, .error e' => e = e'
  | _, _ => False

theorem Agree.ok {β : Type} {R : σ → α → Prop} {r : β} {s : σ} {y : Except ε (β × α)}
    (h : Agree R (.ok (r, s)) y) : ∃ a, y = .ok (r, a) ∧ R s a := by
  cases y with
  | error e => cases h
  | ok y =>
      obtain ⟨rfl, hR⟩ := h
      exact ⟨y.2, rfl, hR⟩

theorem Agree.map_fst {β : Type} {R : σ → α → Prop} {x : Except ε (β × σ)} {y : Except ε (β × α)}
    (h : Agree R x y) : x.map Prod.fst = y.map Prod.fst := by
  match x, y with
  | .ok x, .ok y => exact congrArg Except.ok h.1
  | .error e, .error e' => exact congrArg Except.error h
  | .ok x, .error e => cases h
  | .error e, .ok y => cases h

theorem Agree.bind {β γ : Type} {R : σ → α → Prop} {x : Except ε (β × σ)} {y : Except ε (β × α)}
    {f : β × σ → Except ε (γ × σ)} {g : β × α → Except ε (γ × α)} (h : Agree R x y)
    (hfg : ∀ b s a, R s a → Agree R (f (b, s)) (g (b, a))) : Agree R (x >>= f) (y >>= g) := by
  match x, y with
  | .ok (b, s), .ok (b', a) =>
      obtain ⟨rfl, hR⟩ := h
      exact hfg b s a hR
  | .error e, .error e' => exact h
  | .ok x, .error e => cases h
  | .error e, .ok y => cases h

/-- **Bisimulation.**  Two machines whose steps agree from related states have runs that agree. -/
theorem run_agree {step' : Op → α → Except ε (ρ × α)} {R : σ → α → Prop}
    (hstep : ∀ o s a, R s a → Agree R (step o s) (step' o a)) :
    ∀ (os : List Op) (s : σ) (a : α), R s a → Agree R (run step os s) (run step' os a) := by
  intro os
  induction os with
  | nil => exact fun s a hR => ⟨rfl, hR⟩
  | cons o os ih =>
      intro s a hR
      refine (hstep o s a hR).bind fun r s₁ a₁ hR₁ => ?_
      exact (ih s₁ a₁ hR₁).bind fun rs s₂ a₂ hR₂ => ⟨rfl, hR₂⟩

section Exact

variable {H : Op → σ → Prop} {I : σ → Prop} {v : σ → α} {P : σ → α → Prop}
  {f : Op → α → ρ × α}

/-- **Exact simulation.**  From states satisfying `I`, a step guarded by `H` returns what `f`
returns and keeps `I`; its view is `f`'s next state exactly when `G` holds of the step.  `P s a`
is any way to observe that the view of `s` is `a`.  Then the runs of all prefixes of `os` agree
with `f` exactly when every step of `os` satisfies `G`. -/
theorem run_exact (hP : ∀ s a, I s → (P s a ↔ v s = a))
    (hstep : ∀ o s, H o s → I s → ∃ s', step o s = .ok ((f o (v s)).1, s') ∧ I s' ∧
      (v s' = (f o (v s)).2 ↔ G o s)) :
    ∀ (os : List Op) (s : σ), Meets step H os s → I s →
      ((∀ pre, pre <+: os → ∃ s', run step pre s = .ok ((runFn f pre (v s)).1, s') ∧
        P s' (runFn f pre (v s)).2) ↔ Meets step G os s) := by
  intro os
  induction os with
  | nil =>
      intro s _ hI
      refine ⟨fun _ => trivial, fun _ pre hpre => ?_⟩
      rw [List.prefix_nil.mp hpre]
      exact ⟨s, rfl, (hP s _ hI).mpr rfl⟩
  | cons o os ih =>
      intro s ⟨hH, hrest⟩ hI
      obtain ⟨s₁, h₁, hI₁, hiff⟩ := hstep o s hH hI
      have ih₁ := ih s₁ (hrest _ s₁ h₁) hI₁
      constructor
      · intro hall
        -- the prefix `[o]` forces the condition of the first step
        obtain ⟨t, ht, hv⟩ := hall [o] (by simp)
        obtain ⟨r, rs, t₁, he, ht₁, ht'⟩ := run_cons_inv ht
        cases h₁.symm.trans ht₁
        cases ht'
        have hv₁ : v s₁ = (f o (v s)).2 := (hP s₁ _ hI₁).mp hv
        refine ⟨hiff.mp hv₁, fun r s' h' => ?_⟩
        cases h₁.symm.trans h'
        refine ih₁.mp fun pre hpre => ?_
        obtain ⟨t, ht, hvt⟩ := hall (o :: pre) (List.cons_prefix_cons.mpr ⟨rfl, hpre⟩)
        obtain ⟨r, rs, t₁, he, ht₁, ht'⟩ := run_cons_inv ht
        cases h₁.symm.trans ht₁
        cases he
        rw [hv₁]
        exact ⟨t, ht', hvt⟩
      · rintro ⟨hG, hmeets⟩ pre hpre
        have hv₁ : v s₁ = (f o (v s)).2 := hiff.mpr hG
        cases pre with
        | nil => exact ⟨s, rfl, (hP s _ hI).mpr rfl⟩
        | cons o' pre =>
            obtain ⟨rfl, hpre'⟩ := List.cons_prefix_cons.mp hpre
            obtain ⟨t, ht, hvt⟩ := ih₁.mpr (hmeets _ s₁ h₁) pre hpre'
            rw [hv₁] at ht hvt
            exact ⟨t, run_cons h₁ ht, hvt⟩

end Exact

end Xv6.Lib
