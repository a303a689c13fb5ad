import Xv6.Vm.Charge

/-!
# Vm — Kill

`kkill` and `setkilled`, over the life of processes.

`kkill` looks for a pid in the whole process table.  A slot that is not in use has pid 0, so
`kkill(0)` finds one and marks it, and the next process in that slot starts out killed.

* `Clean`: a slot that is not in use has pid 0 and is not marked.
* `LifeOp.Aimed`: the calls of `kkill` that cannot find such a slot.
* `lifeStep_clean`: each operation keeps the slots clean.
* `kill_hits_live`: so a kill hits a live process, and a new process is not killed, in every state
  of a run.
-/

namespace Xv6.Vm
open Xv6.Lib

variable {s s' : Kernel} {p q np : ProcId} {pid : Int}

/-! ### The source -/

/-- `true` is the result 0. -/
def kkill (s : Kernel) (pid : Int) : Bool × Kernel :=
  match (List.finRange NPROC).find? fun p => (s.procs p).pid == pid with
  | some p => (true, setProc s p { s.procs p with
      killed := true,
      state := if (s.procs p).state = .sleeping then .runnable else (s.procs p).state })
  | none => (false, s)

def setkilled (s : Kernel) (p : ProcId) : Kernel :=
  setProc s p { s.procs p with killed := true }

/-! ### The machine -/

inductive LifeOp where
  | fork (p : ProcId)
  | exit (p : ProcId) (status : Int)
  | wait (p : ProcId) (addr : Nat)
  | setkilled (p : ProcId)
  | kill (p : ProcId) (pid : Int)

/-- The process that performs the operation. -/
def LifeOp.proc : LifeOp → ProcId
  | .fork p => p
  | .exit p _ => p
  | .wait p _ => p
  | .setkilled p => p
  | .kill p _ => p

inductive LifeResult where
  | child (pid : Option Int)
  | exited
  | waited (res : WaitResult)
  | marked
  | killed (ok : Bool)
  deriving DecidableEq

/-- An operation of a process that is there. -/
def lifeOp : LifeOp → Kernel → Except String (LifeResult × Kernel)
  | .fork p, s => do
    let (pid, s) ← kfork s p
    return (.child pid, s)
  | .exit p status, s => do
    let s ← kexit s p status
    return (.exited, s)
  | .wait p addr, s => do
    let (res, s) ← kwait s p addr
    return (.waited res, s)
  | .setkilled p, s => .ok (.marked, setkilled s p)
  | .kill _ pid, s => .ok (.killed (kkill s pid).1, (kkill s pid).2)

def lifeStep (o : LifeOp) (s : Kernel) : Except String (LifeResult × Kernel) :=
  if (s.procs o.proc).state = .unused then .error "no process" else lifeOp o s

/-! ### Slots that are not in use -/

/-- A slot that is not in use has pid 0 and no mark. -/
def Clean (s : Kernel) : Prop :=
  ∀ q, (s.procs q).state = .unused → (s.procs q).pid = 0 ∧ (s.procs q).killed = false

instance decidableClean (s : Kernel) : Decidable (Clean s) := inferInstanceAs (Decidable (∀ _, _))

/-- A kill is aimed at a pid other than 0, or there is no slot that it could find instead. -/
def AimedAt (s : Kernel) (pid : Int) : Prop := pid = 0 → ∀ q, (s.procs q).state ≠ .unused

instance decidableAimedAt (s : Kernel) (pid : Int) : Decidable (AimedAt s pid) :=
  inferInstanceAs (Decidable (_ → _))

def LifeOp.Aimed (o : LifeOp) (s : Kernel) : Prop :=
  match o with
  | .kill _ pid => AimedAt s pid
  | _ => True

instance LifeOp.decidableAimed (o : LifeOp) (s : Kernel) : Decidable (o.Aimed s) :=
  match o with
  | .kill _ pid => decidableAimedAt s pid
  | .fork _ => isTrue trivial
  | .exit _ _ => isTrue trivial
  | .wait _ _ => isTrue trivial
  | .setkilled _ => isTrue trivial

/-- One slot changes. -/
theorem Clean.change (h : Clean s) (hothers : ∀ y, y ≠ q → (s'.procs y).label = (s.procs y).label)
    (hself : (s'.procs q).state = .unused → (s'.procs q).pid = 0 ∧ (s'.procs q).killed = false) :
    Clean s' := by
  intro y hy
  by_cases hyq : y = q
  · subst hyq
    exact hself hy
  · have hl := hothers y hyq
    simp only [Proc.label, Prod.mk.injEq] at hl
    rw [hl.2.1, hl.2.2]
    exact h y (hl.1.symm.trans hy)

theorem Clean.quiet (h : Clean s) (hq : Quiet p s s') : Clean s' := by
  refine h.change (q := p) (fun y _ => hq.label y) fun hun => ?_
  have hl := hq.label p
  simp only [Proc.label, Prod.mk.injEq] at hl
  rw [hl.2.1, hl.2.2]
  exact h p (hl.1.symm.trans hun)

/-- A slot that has been freed is clean. -/
theorem Clean.freeproc (h : Clean s) (hrun : freeproc s q = .ok s') : Clean s' := by
  obtain ⟨-, hself, hothers⟩ := freeproc_charged (p := q) hrun
  refine h.change hothers fun _ => ?_
  simp only [Proc.label, Prod.mk.injEq] at hself
  exact ⟨hself.2.1, hself.2.2⟩

theorem Clean.setProc {x : Proc} (h : Clean s) (hx : x.state ≠ .unused) : Clean (setProc s q x) := by
  refine h.change (q := q) (fun y hy => ?_) fun hun => absurd ?_ hx
  · simp [Vm.setProc, hy]
  · simpa [Vm.setProc] using hun

theorem Clean.relabelled (h : Clean s) (hr : Relabelled s s') : Clean s' := by
  intro q hq
  obtain ⟨hpid, hkilled⟩ := h q ((hr.unused q).mp hq)
  have h₁ := congrArg Proc.pid (hr.bare q)
  have h₂ := congrArg Proc.killed (hr.bare q)
  exact ⟨h₁.trans hpid, h₂.trans hkilled⟩

/-- **`kfork`** takes a clean slot, or leaves it clean. -/
theorem kfork_clean {x : Option Int × Kernel} (h : Clean s) (hrun : kfork s p = .ok x) :
    Clean x.2 := by
  cases hnp : freeProc s with
  | none =>
      rw [kfork_none hrun hnp]
      exact h
  | some np =>
      obtain ⟨⟨res, s₁⟩, h₁, hrun⟩ := bind_eq_ok.mp hrun
      obtain ⟨-, hres, hl⟩ := allocproc_charged hnp h₁
      have hclean₁ : Clean s₁ := by
        refine h.change hl.others fun hun => ?_
        rcases hres with hres | hres
        · have hmade := hl.made hres
          simp only [Proc.label, Prod.mk.injEq] at hmade
          rw [hmade.1] at hun
          cases hun
        · have hfailed := hl.failed hres
          simp only [Proc.label, Prod.mk.injEq] at hfailed
          exact ⟨hfailed.2.1, hfailed.2.2⟩
      cases res with
      | none =>
          cases hrun
          exact hclean₁
      | some np' =>
          simp only at hrun
          split at hrun
          · obtain ⟨⟨ok, s₂⟩, h₂, hrun⟩ := bind_eq_ok.mp hrun
            have hclean₂ : Clean s₂ := hclean₁.quiet (uvmcopyLoop_quiet _ _ _ _ h₂)
            simp only at hrun
            split at hrun
            · obtain ⟨s₃, h₃, hrun⟩ := bind_eq_ok.mp hrun
              cases hrun
              exact hclean₂.freeproc h₃
            · cases hrun
              exact hclean₂.setProc (by simp)
          · cases hrun

theorem kwait_clean {addr : Nat} {x : WaitResult × Kernel} (h : Clean s)
    (hrun : kwait s p addr = .ok x) : Clean x.2 := by
  unfold kwait at hrun
  split at hrun
  · obtain ⟨⟨ok, s₁⟩, h₁, hrun⟩ := bind_eq_ok.mp hrun
    have hclean₁ : Clean s₁ := h.quiet (copyStatus_quiet h₁)
    simp only at hrun
    split at hrun
    · cases hrun
      exact hclean₁
    · obtain ⟨s₂, h₂, hrun⟩ := bind_eq_ok.mp hrun
      cases hrun
      exact hclean₁.freeproc h₂
  · split at hrun
    · cases hrun
      exact h
    · cases hrun
      exact h.setProc (by simp)

/-! ### Kills -/

/-- The kill of `pid` has hit one live process, and nothing else. -/
def KillsOne (s s' : Kernel) (pid : Int) : Prop :=
  ∃ p, (s.procs p).state ≠ .unused ∧ (s.procs p).pid = pid ∧ (s'.procs p).killed = true ∧
    ∀ q, q ≠ p → s'.procs q = s.procs q

/-- **`kkill`** with the slots clean and a pid that is aimed. -/
theorem kkill_spec (h : Clean s) (haim : AimedAt s pid) (hkill : kkill s pid = (true, s')) :
    KillsOne s s' pid ∧ Clean s' := by
  unfold kkill at hkill
  split at hkill
  · next p hp =>
      cases hkill
      have hpid := List.find?_some hp
      simp only [beq_iff_eq] at hpid
      have hlive : (s.procs p).state ≠ .unused := by
        intro hun
        have h0 : pid = 0 := hpid.symm.trans (h p hun).1
        exact haim h0 p hun
      refine ⟨⟨p, hlive, hpid, by simp [setProc], fun q hq => by simp [setProc, hq]⟩, h.setProc ?_⟩
      simp only
      split
      · simp
      · exact hlive
  · cases hkill

theorem kkill_missed (hkill : kkill s pid = (false, s')) : s' = s := by
  unfold kkill at hkill
  split at hkill
  · cases hkill
  · cases hkill
    rfl

/-! ### Runs -/

/-- **Each operation keeps the slots clean**, if its kill is aimed. -/
theorem lifeStep_clean {o : LifeOp} {res : LifeResult} (h : Clean s) (ho : o.Aimed s)
    (hstep : lifeStep o s = .ok (res, s')) : Clean s' := by
  unfold lifeStep at hstep
  split at hstep
  · cases hstep
  · next hlive =>
      cases o with
      | fork p =>
          obtain ⟨x, hx, hstep⟩ := bind_eq_ok.mp hstep
          cases hstep
          exact kfork_clean h hx
      | exit p status =>
          obtain ⟨x, hx, hstep⟩ := bind_eq_ok.mp hstep
          cases hstep
          exact h.relabelled (kexit_relabelled hlive hx)
      | wait p addr =>
          obtain ⟨x, hx, hstep⟩ := bind_eq_ok.mp hstep
          cases hstep
          exact kwait_clean h hx
      | setkilled p =>
          cases hstep
          exact h.setProc hlive
      | kill p pid =>
          cases hstep
          cases hkill : kkill s pid with
          | mk ok s₁ =>
              cases ok with
              | true => exact (kkill_spec h ho hkill).2
              | false =>
                  rw [kkill_missed hkill]
                  exact h

/-- **A kill hits live processes only**, and a new process is not killed, in every state of a run
whose kills are aimed. -/
theorem kill_hits_live {ops : List LifeOp} {rs : List LifeResult} (h : Clean s)
    (hm : Meets lifeStep LifeOp.Aimed ops s) (hrun : run lifeStep ops s = .ok (rs, s')) :
    (∀ pid s'', AimedAt s' pid → kkill s' pid = (true, s'') → KillsOne s' s'' pid) ∧
      ∀ np s'', allocproc s' = .ok (some np, s'') → (s''.procs np).killed = false := by
  have hclean : Clean s' := run_invariant (fun o s r s' ho hI hs => lifeStep_clean hI ho hs)
    ops s rs s' hm h hrun
  refine ⟨fun pid s'' haim hkill => (kkill_spec hclean haim hkill).1, fun np s'' halloc => ?_⟩
  cases hnp : freeProc s' with
  | none =>
      simp only [allocproc, hnp] at halloc
      cases halloc
  | some np' =>
      obtain ⟨-, hres, hl⟩ := allocproc_charged hnp halloc
      rcases hres with hres | hres
      · cases hres
        have hmade := hl.made rfl
        simp only [Proc.label, Prod.mk.injEq] at hmade
        rw [hmade.2.2]
        exact (hclean np (freeProc_some hnp)).2
      · cases hres

theorem firstKernel_clean : Clean firstKernel := by decide +kernel

/-- A process forks, kills its child, waits for it, and forks again. -/
def killedChildRun : List LifeOp :=
  [.fork firstProc, .kill firstProc 2, .exit secondProc 1, .wait firstProc 0, .fork firstProc]

theorem kill_hits_live_child : ∃ rs s', Meets lifeStep LifeOp.Aimed killedChildRun firstKernel ∧
    run lifeStep killedChildRun firstKernel = .ok (rs, s') ∧
    ∀ pid s'', AimedAt s' pid → kkill s' pid = (true, s'') → KillsOne s' s'' pid := by
  have hm : Meets lifeStep LifeOp.Aimed killedChildRun firstKernel := by decide +kernel
  obtain ⟨rs, hrun⟩ : ∃ rs, run lifeStep killedChildRun firstKernel =
      .ok (rs, stateAfter (run lifeStep killedChildRun firstKernel) firstKernel) :=
    eq_ok_stateAfter firstKernel (by decide +kernel)
  exact ⟨rs, _, hm, hrun, (kill_hits_live firstKernel_clean hm hrun).1⟩

/-- The kernel after `kkill(0)`. -/
def markedKernel : Kernel := (kkill firstKernel 0).2

/-- `kkill(0)` returns 0, though no process has pid 0, and the next process is born killed. -/
theorem kkill_zero_marks_unused : Clean firstKernel ∧
    run lifeStep [.kill firstProc 0] firstKernel = .ok ([.killed true], markedKernel) ∧
    (¬ ∃ p, (firstKernel.procs p).state ≠ .unused ∧ (firstKernel.procs p).pid = 0) ∧
    ∃ np s', allocproc markedKernel = .ok (some np, s') ∧ (s'.procs np).killed = true := by
  refine ⟨firstKernel_clean, ?_, by decide +kernel, ?_⟩
  · have hlive : (firstKernel.procs (LifeOp.kill firstProc 0).proc).state ≠ .unused := by
      decide +kernel
    have hok : (kkill firstKernel 0).1 = true := by decide +kernel
    have hstep : lifeStep (.kill firstProc 0) firstKernel = .ok (.killed true, markedKernel) := by
      rw [lifeStep, if_neg hlive, lifeOp, hok]
      rfl
    exact run_cons hstep (run_nil markedKernel)
  · have hsome : (allocproc markedKernel).toOption.bind Prod.fst = some secondProc := by decide +kernel
    obtain ⟨res, hrun⟩ : ∃ res, allocproc markedKernel =
        .ok (res, stateAfter (allocproc markedKernel) markedKernel) :=
      eq_ok_stateAfter markedKernel (by decide +kernel)
    refine ⟨secondProc, stateAfter (allocproc markedKernel) markedKernel, ?_, by decide +kernel⟩
    rw [hrun] at hsome
    have hres : res = some secondProc := hsome
    rw [← hres]
    exact hrun

end Xv6.Vm
