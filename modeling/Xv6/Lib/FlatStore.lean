import Xv6.Lib.Run

/-!
# Lib — FlatStore

The flat store: a function from addresses to values, with writes, reads and copies.  It is what a
storage layer with any internal layout is to its clients.

`flatStep` is the store's step and `flatRun` its runs.  A layer whose state has a view
`σ → ι → β` *refines* the flat store when its steps act on the view as `flatStep` does
(`Refines`); `Refines.run` carries this to whole runs: the layer's run does not stop, returns what
the flat store returns, and ends in a state whose view is the flat store's contents.
-/

namespace Xv6.Lib

variable {ι β σ ε : Type}

/-- A request to a store: write a value, read one, or copy one address onto another. -/
inductive StoreOp (ι β : Type) where
  | write (i : ι) (v : β)
  | read (i : ι)
  | copy (src dst : ι)

/-- The address an operation stores to. -/
def StoreOp.target : StoreOp ι β → Option ι
  | .write i _ => some i
  | .read _ => none
  | .copy _ dst => some dst

variable [DecidableEq ι]

/-- One operation of the flat store: its result and the contents afterwards. -/
def flatStep : StoreOp ι β → (ι → β) → Option β × (ι → β)
  | .write i v, m => (none, Function.update m i v)
  | .read i, m => (some (m i), m)
  | .copy src dst, m => (none, Function.update m dst (m src))

/-- A run of the flat store: the results and the contents afterwards. -/
def flatRun : List (StoreOp ι β) → (ι → β) → List (Option β) × (ι → β) := runFn flatStep

/-- An operation changes no address but its target. -/
theorem flatStep_other {o : StoreOp ι β} {m : ι → β} {i : ι} (h : o.target ≠ some i) :
    (flatStep o m).2 i = m i := by
  cases o with
  | write j v => exact Function.update_of_ne (fun e => h (by simp [StoreOp.target, e])) _ _
  | read j => rfl
  | copy a b => exact Function.update_of_ne (fun e => h (by simp [StoreOp.target, e])) _ _

/-- A run changes no address that is not a target of one of its operations. -/
theorem flatRun_other {i : ι} : ∀ (os : List (StoreOp ι β)) (m : ι → β),
    (∀ o ∈ os, o.target ≠ some i) → (flatRun os m).2 i = m i
  | [], _, _ => rfl
  | o :: os, m, h => by
      have ih := flatRun_other os (flatStep o m).2 fun o' ho' => h o' (List.mem_cons_of_mem o ho')
      exact ih.trans (flatStep_other (h o List.mem_cons_self))

/-- The steps of a layer act on its view as the flat store's do, from states satisfying `I`. -/
def Refines (step : StoreOp ι β → σ → Except ε (Option β × σ)) (I : σ → Prop)
    (view : σ → ι → β) : Prop :=
  ∀ o s, I s → ∃ s', step o s = .ok ((flatStep o (view s)).1, s') ∧ I s' ∧
    view s' = (flatStep o (view s)).2

/-- **A layer that refines the flat store step by step does so over whole runs.** -/
theorem Refines.run {step : StoreOp ι β → σ → Except ε (Option β × σ)} {I : σ → Prop}
    {view : σ → ι → β} (h : Refines step I view) (os : List (StoreOp ι β)) (s : σ) (hI : I s) :
    ∃ s', Lib.run step os s = .ok ((flatRun os (view s)).1, s') ∧ I s' ∧
      view s' = (flatRun os (view s)).2 := by
  have htrace : ∀ (os : List (StoreOp ι β)) (m : ι → β) (rs : List (Option β)) (m' : ι → β),
      Trace (fun o m r m' => flatStep o m = (r, m')) os m rs m' → flatRun os m = (rs, m') := by
    intro os m rs m' t
    induction t with
    | nil a => rfl
    | cons h _ ih =>
        simp only [flatRun] at ih ⊢
        simp only [runFn, h, ih]
  obtain ⟨rs, s', m', hrun, t, hI', rfl⟩ :=
    run_simulates (G := fun _ _ => True) (R := fun s m => I s ∧ view s = m)
      (A := fun o m r m' => flatStep o m = (r, m'))
      (fun o s m _ ⟨hI, hm⟩ => by
        subst hm
        obtain ⟨s', hs, hI', hv⟩ := h o s hI
        exact ⟨_, s', _, hs, rfl, hI', hv⟩)
      os s (view s) (meets_of_forall (fun _ _ => trivial) os s) ⟨hI, rfl⟩
  have hflat := htrace _ _ _ _ t
  exact ⟨s', by rw [hrun, hflat], hI', by rw [hflat]⟩

end Xv6.Lib
