import Xv6.Lib.Refs
import Xv6.Proc.Defs

/-!
# Proc — Family

The processes are a family: every process that was forked is reaped at most once, by the parent it
has then, and orphans belong to `initproc`.

* `Family`, `FamilyStep`: what the three calls are for, on pids.
* `Slots s`: the invariant of the process table.  What a process relies on at its place in a call is
  `PcOk`.
* `Reflects s f`: the parent pointers and the states of the slots are those of the family.
* `procs_family`: every run of the three calls is a run of a family.
-/

namespace Xv6.Proc
open Xv6.Lib

/-! ### Families -/

structure Family where
  /-- the parent of a child that has not been reaped, and its status if it has exited -/
  member : Pid → Option (Pid × Option Status)
  /-- the pids that have been given to a child -/
  used : Pid → Prop

inductive FamilyStep : Family → Option Event → Family → Prop where
  | quiet (f : Family) : FamilyStep f none f
  /-- a child gets a new pid -/
  | born {f : Family} {p c : Pid} (h : ¬ f.used c) : FamilyStep f (some (.born p c))
      ⟨Function.update f.member c (some (p, none)), fun k => f.used k ∨ k = c⟩
  | forked {f : Family} {p c : Pid} (h : f.member c = some (p, none)) : FamilyStep f (some (.forked p c)) f
  /-- the children of `p` become children of the first process -/
  | handed {f : Family} {p : Pid} : FamilyStep f (some (.handed p))
      { f with member := fun k => (f.member k).map fun m => (if m.1 = p then 1 else m.1, m.2) }
  /-- a process exits, without children -/
  | died {f : Family} {p q : Pid} {status : Status} (h : f.member p = some (q, none))
      (hno : ∀ k m, f.member k = some m → m.1 ≠ p) : FamilyStep f (some (.died p status))
      { f with member := Function.update f.member p (some (q, some status)) }
  /-- a parent gets the pid and the status of a child that has exited -/
  | reaped {f : Family} {p c : Pid} {status : Status} {delivered : Option Status}
      (h : f.member c = some (p, some status)) (hstatus : ∀ d ∈ delivered, d = status) :
      FamilyStep f (some (.reaped p c delivered)) { f with member := Function.update f.member c none }
  | noChildren {f : Family} {p : Pid} (h : ∀ k m, f.member k = some m → m.1 ≠ p) :
      FamilyStep f (some (.noChildren p)) f

/-- The first process has no parent. -/
def firstFamily : Family := ⟨fun _ => none, fun k => k = 1⟩

/-- A run of a family, whatever the actions are. -/
abbrev FamilyRun : List ProcAct → Family → List (Option Event) → Family → Prop :=
  Trace fun _ => FamilyStep

def reapedPid : Option Event → Option Pid
  | some (.reaped _ c _) => some c
  | _ => none

/-- Every child has a pid that has been used. -/
def Family.Numbered (f : Family) : Prop := ∀ k m, f.member k = some m → f.used k

theorem FamilyStep.numbered {f f' : Family} {r : Option Event} (h : FamilyStep f r f')
    (hf : f.Numbered) : f'.Numbered := by
  intro k m hm
  cases h with
  | quiet => exact hf k m hm
  | @born p c _ =>
      by_cases hk : k = c
      · exact Or.inr hk
      · dsimp only at hm
        rw [Function.update_of_ne hk] at hm
        exact Or.inl (hf k m hm)
  | forked _ => exact hf k m hm
  | handed =>
      obtain ⟨m₀, hm₀, -⟩ := Option.map_eq_some_iff.mp hm
      exact hf k m₀ hm₀
  | @died p q _ hp _ =>
      by_cases hk : k = p
      · rw [hk]
        exact hf p _ hp
      · dsimp only at hm
        rw [Function.update_of_ne hk] at hm
        exact hf k m hm
  | @reaped p c _ _ _ _ =>
      by_cases hk : k = c
      · dsimp only at hm
        rw [hk, Function.update_self] at hm
        cases hm
      · dsimp only at hm
        rw [Function.update_of_ne hk] at hm
        exact hf k m hm
  | noChildren _ => exact hf k m hm

/-- A pid that has been used and is nobody's is not given again. -/
theorem FamilyStep.gone {f f' : Family} {r : Option Event} {c : Pid} (h : FamilyStep f r f')
    (hused : f.used c) (hc : f.member c = none) :
    f'.used c ∧ f'.member c = none ∧ reapedPid r ≠ some c := by
  cases h with
  | quiet => exact ⟨hused, hc, (Option.some_ne_none c).symm⟩
  | @born p k hk =>
      have hne : c ≠ k := by
        rintro rfl
        exact hk hused
      exact ⟨Or.inl hused, (Function.update_of_ne hne ..).trans hc, (Option.some_ne_none c).symm⟩
  | forked _ => exact ⟨hused, hc, (Option.some_ne_none c).symm⟩
  | handed => exact ⟨hused, by simp only [hc, Option.map_none], (Option.some_ne_none c).symm⟩
  | @died p q _ hp _ =>
      have hne : c ≠ p := by
        rintro rfl
        rw [hc] at hp
        cases hp
      exact ⟨hused, (Function.update_of_ne hne ..).trans hc, (Option.some_ne_none c).symm⟩
  | @reaped p k _ _ hk _ =>
      have hne : c ≠ k := by
        rintro rfl
        rw [hc] at hk
        cases hk
      exact ⟨hused, (Function.update_of_ne hne ..).trans hc, fun he => hne (Option.some.inj he).symm⟩
  | noChildren _ => exact ⟨hused, hc, (Option.some_ne_none c).symm⟩

theorem FamilyRun.not_reaped {acts : List ProcAct} {f f' : Family} {rs : List (Option Event)} {c : Pid}
    (h : FamilyRun acts f rs f') (hused : f.used c) (hc : f.member c = none) :
    c ∉ rs.filterMap reapedPid := by
  induction h with
  | nil _ => exact List.not_mem_nil
  | @cons _ _ r rs f f₁ f' hstep _ ih =>
      obtain ⟨hused₁, hc₁, hne⟩ := hstep.gone hused hc
      have ih := ih hused₁ hc₁
      rw [List.filterMap_cons]
      split
      · exact ih
      · rename_i k hk
        rw [List.mem_cons, not_or]
        refine ⟨fun he => hne (hk.trans (congrArg some he.symm)), ih⟩

/-- **Nobody is reaped twice.** -/
theorem FamilyRun.reaped_nodup {acts : List ProcAct} {f f' : Family} {rs : List (Option Event)}
    (h : FamilyRun acts f rs f') (hf : f.Numbered) : (rs.filterMap reapedPid).Nodup := by
  induction h with
  | nil _ => exact List.nodup_nil
  | @cons _ _ r rs f f₁ f' hstep hrest ih =>
      have ih := ih (hstep.numbered hf)
      rw [List.filterMap_cons]
      split
      · exact ih
      · rename_i k hk
        refine List.nodup_cons.mpr ⟨?_, ih⟩
        cases hstep with
        | @reaped p c _ _ hc _ =>
            cases hk
            exact FamilyRun.not_reaped hrest (hf k _ hc) (Function.update_self ..)
        | quiet => cases hk
        | born _ => cases hk
        | forked _ => cases hk
        | handed => cases hk
        | died _ _ => cases hk
        | noChildren _ => cases hk

/-! ### The process table -/

variable {s s' : Procs} {p q np c : ProcId} {pc pc' : Pc} {f : Family}

/-- What a process relies on at its place. -/
def PcOk (s : Procs) (p : ProcId) : Pc → Prop
  | .user => True
  | .forkScan _ => s.state p = .alive
  | .forkBuilt np pid => s.state p = .alive ∧ s.state np = .used ∧ s.pid np = pid ∧ s.parent np = none
  | .forkReady np pid =>
    s.state p = .alive ∧ s.state np = .used ∧ s.pid np = pid ∧ s.parent np = some p
  | .waiting _ => s.state p = .alive
  | .waitScan _ i havekids => s.state p = .alive ∧ s.waitLock = some p ∧
    (havekids = false → ∀ c, c.val < i → s.parent c ≠ some p)
  | .exiting _ => s.state p = .alive ∧ p ≠ initproc
  | .exitLocked _ => s.state p = .alive ∧ p ≠ initproc ∧ s.waitLock = some p
  | .exitReparented _ => s.state p = .alive ∧ p ≠ initproc ∧ s.waitLock = some p ∧
    ∀ c, s.parent c ≠ some p
  | .swtch => s.state p = .zombie

/-- The child that a process builds. -/
def Pc.builds : Pc → Option ProcId
  | .forkBuilt np _ => some np
  | .forkReady np _ => some np
  | _ => none

structure Slots (s : Procs) : Prop where
  unused : ∀ p, s.state p = .unused → s.parent p = none
  pid_lt : ∀ p, s.state p ≠ .unused → (s.pid p).toNat < s.nextpid.toNat
  pid_inj : ∀ p q, s.state p ≠ .unused → s.state q ≠ .unused → s.pid p = s.pid q → p = q
  init : s.state initproc = .alive ∧ s.pid initproc = 1
  parent : ∀ c p, s.parent c = some p → s.state p = .alive
  child : ∀ c, s.state c = .alive ∨ s.state c = .zombie → c ≠ initproc → ∃ p, s.parent c = some p
  pc : ∀ p, PcOk s p (s.pc p)
  builder : ∀ p q np, (s.pc p).builds = some np → (s.pc q).builds = some np → p = q

/-- What a step of another process has to leave. -/
theorem PcOk.frame (h : PcOk s q pc) (halive : s.state q = .alive → s'.state q = .alive)
    (hzombie : pc = .swtch → s.state q = .zombie → s'.state q = .zombie)
    (hbuilds : ∀ np, pc.builds = some np →
      s'.state np = s.state np ∧ s'.pid np = s.pid np ∧ s'.parent np = s.parent np)
    (hparent : s.waitLock = some q → ∀ c, s'.parent c = some q → s.parent c = some q)
    (hlock : s.waitLock = some q → s'.waitLock = some q) : PcOk s' q pc := by
  cases pc with
  | user => trivial
  | forkScan i => exact halive h
  | forkBuilt np pid =>
      obtain ⟨hst, hpid, hpar⟩ := hbuilds np rfl
      exact ⟨halive h.1, hst.trans h.2.1, hpid.trans h.2.2.1, hpar.trans h.2.2.2⟩
  | forkReady np pid =>
      obtain ⟨hst, hpid, hpar⟩ := hbuilds np rfl
      exact ⟨halive h.1, hst.trans h.2.1, hpid.trans h.2.2.1, hpar.trans h.2.2.2⟩
  | waiting addr => exact halive h
  | waitScan addr i havekids =>
      obtain ⟨ha, hl, hno⟩ := h
      exact ⟨halive ha, hlock hl, fun hk c hc hcq => hno hk c hc (hparent hl c hcq)⟩
  | exiting status => exact ⟨halive h.1, h.2⟩
  | exitLocked status => exact ⟨halive h.1, h.2.1, hlock h.2.2⟩
  | exitReparented status =>
      obtain ⟨ha, hi, hl, hno⟩ := h
      exact ⟨halive ha, hi, hlock hl, fun c hcq => hno c (hparent hl c hcq)⟩
  | swtch => exact hzombie rfl h

/-- The parents and the states of the slots are those of the family. -/
structure Reflects (s : Procs) (f : Family) : Prop where
  member : ∀ k m, f.member k = some m ↔ ∃ c p, s.parent c = some p ∧ s.pid c = k ∧
    m = (s.pid p, if s.state c = .zombie then some (s.xstate c) else none)
  used : ∀ k, f.used k → k.toNat < s.nextpid.toNat
  fresh : ∀ p np pid, s.pc p = .forkBuilt np pid → ¬ f.used pid

/-- The whole invariant. -/
def Related (s : Procs) (f : Family) : Prop := Slots s ∧ Reflects s f

/-! ### Steps that only move -/

@[simp] theorem goto_pc_self (s : Procs) (p : ProcId) (pc : Pc) : (goto s p pc).pc p = pc :=
  Function.update_self ..

theorem goto_pc_ne (s : Procs) (pc : Pc) (h : q ≠ p) : (goto s p pc).pc q = s.pc q :=
  Function.update_of_ne h ..

/-- A process goes to a place where it builds no child, and may get or give up `wait_lock`. -/
theorem Related.move {l : Option ProcId} (h : Related s f) (p : ProcId) (pc : Pc) (hpc : PcOk { s with waitLock := l } p pc)
    (hbuilds : pc.builds = none) (hlock : ∀ q ≠ p, s.waitLock = some q → l = some q) :
    Related (goto { s with waitLock := l } p pc) f := by
  obtain ⟨h, hr⟩ := h
  refine ⟨⟨h.unused, h.pid_lt, h.pid_inj, h.init, h.parent, h.child, fun q => ?_, fun q q' np hq hq' => ?_⟩,
    ⟨hr.member, hr.used, fun q np pid hq => ?_⟩⟩
  · by_cases hqp : q = p
    · rw [hqp, goto_pc_self]
      exact hpc
    · rw [goto_pc_ne _ _ hqp]
      exact (h.pc q).frame id (fun _ => id) (fun _ _ => ⟨rfl, rfl, rfl⟩) (fun _ _ => id) (hlock q hqp)
  · have hne : ∀ x, ((goto { s with waitLock := l } p pc).pc x).builds = some np → x ≠ p := by
      rintro x hx rfl
      rw [goto_pc_self, hbuilds] at hx
      cases hx
    have hqp := hne q hq
    have hqp' := hne q' hq'
    rw [goto_pc_ne _ _ hqp] at hq
    rw [goto_pc_ne _ _ hqp'] at hq'
    exact h.builder q q' np hq hq'
  · have hqp : q ≠ p := by
      rintro rfl
      rw [goto_pc_self] at hq
      rw [hq] at hbuilds
      cases hbuilds
    rw [goto_pc_ne _ _ hqp] at hq
    exact hr.fresh q np pid hq

/-- A process goes on without `wait_lock`, or with it. -/
theorem Related.goto (h : Related s f) (hpc : PcOk s p pc) (hbuilds : pc.builds = none) :
    Related (goto s p pc) f :=
  h.move p pc hpc hbuilds fun _ _ => id

/-! ### `kfork` -/

theorem ne_of_state {x y : ProcState} (hp : s.state p = x) (hq : s.state q = y) (h : x ≠ y) : p ≠ q := by
  rintro rfl
  exact h (hp.symm.trans hq)

/-- A slot with a parent is in use. -/
theorem Slots.of_parent (h : Slots s) (hc : s.parent c = some p) : s.state c ≠ .unused := by
  intro hu
  rw [h.unused c hu] at hc
  cases hc

/-- The child that a process builds. -/
theorem Slots.builds_spec (h : Slots s) (hb : (s.pc q).builds = some np) :
    s.state np = .used ∧ (s.parent np = none ∨ s.parent np = some q) := by
  have hpc := h.pc q
  cases hq : s.pc q with
  | forkBuilt x pid =>
      rw [hq] at hpc hb
      cases hb
      exact ⟨hpc.2.1, Or.inl hpc.2.2.2⟩
  | forkReady x pid =>
      rw [hq] at hpc hb
      cases hb
      exact ⟨hpc.2.1, Or.inr hpc.2.2.2⟩
  | user => rw [hq] at hb; cases hb
  | forkScan i => rw [hq] at hb; cases hb
  | waiting addr => rw [hq] at hb; cases hb
  | waitScan addr i havekids => rw [hq] at hb; cases hb
  | exiting status => rw [hq] at hb; cases hb
  | exitLocked status => rw [hq] at hb; cases hb
  | exitReparented status => rw [hq] at hb; cases hb
  | swtch => rw [hq] at hb; cases hb

/-- A free slot gets a pid, and is used, or free again. -/
structure Renumbered (s s' : Procs) (np : ProcId) : Prop where
  free : s.state np = .unused
  state : ∀ c ≠ np, s'.state c = s.state c
  pid : ∀ c ≠ np, s'.pid c = s.pid c
  xstate : ∀ c ≠ np, s'.xstate c = s.xstate c
  parent : s'.parent = s.parent
  waitLock : s'.waitLock = s.waitLock
  nextpid : s'.nextpid.toNat = s.nextpid.toNat + 1
  slot : s'.state np = .unused ∨ s'.state np = .used ∧ s'.pid np = s.nextpid

theorem Renumbered.pcOk (hn : Renumbered s s' np) (h : Slots s) (q : ProcId) : PcOk s' q (s.pc q) := by
  refine (h.pc q).frame (fun ha => ?_) (fun _ hz => ?_) (fun x hx => ?_) (fun _ c hc => ?_) fun hl => ?_
  · rw [hn.state q (ne_of_state ha hn.free ProcState.noConfusion), ha]
  · rw [hn.state q (ne_of_state hz hn.free ProcState.noConfusion), hz]
  · have hne := ne_of_state (h.builds_spec hx).1 hn.free ProcState.noConfusion
    exact ⟨hn.state x hne, hn.pid x hne, by rw [hn.parent]⟩
  · rwa [hn.parent] at hc
  · rw [hn.waitLock, hl]

theorem Renumbered.pid_lt (hn : Renumbered s s' np) (h : Slots s) (hc : s'.state c ≠ .unused) :
    (s'.pid c).toNat < s'.nextpid.toNat := by
  rw [hn.nextpid]
  by_cases hcn : c = np
  · subst hcn
    rw [(hn.slot.resolve_left hc).2]
    omega
  · rw [hn.pid c hcn]
    have := h.pid_lt c (hn.state c hcn ▸ hc)
    omega

theorem Renumbered.pid_inj (hn : Renumbered s s' np) (h : Slots s) (hp : s'.state p ≠ .unused)
    (hq : s'.state q ≠ .unused) (he : s'.pid p = s'.pid q) : p = q := by
  -- the new pid is larger than all the others
  have hnew : ∀ x ≠ np, s'.state x ≠ .unused → s'.state np ≠ .unused → s'.pid x ≠ s'.pid np := by
    intro x hx hxu hnu hxn
    have hlt := h.pid_lt x (hn.state x hx ▸ hxu)
    rw [hn.pid x hx, (hn.slot.resolve_left hnu).2] at hxn
    rw [hxn] at hlt
    omega
  by_cases hpn : p = np
  · by_cases hqn : q = np
    · rw [hpn, hqn]
    · subst hpn
      exact absurd he.symm (hnew q hqn hq hp)
  · by_cases hqn : q = np
    · subst hqn
      exact absurd he (hnew p hpn hp hq)
    · rw [hn.pid p hpn, hn.pid q hqn] at he
      exact h.pid_inj p q (hn.state p hpn ▸ hp) (hn.state q hqn ▸ hq) he

theorem Renumbered.reflects (hn : Renumbered s s' np) (h : Slots s) (hr : Reflects s f)
    (hfresh : ∀ p np pid, s'.pc p = .forkBuilt np pid → ¬ f.used pid) : Reflects s' f := by
  refine ⟨fun k m => (hr.member k m).trans (exists_congr fun c => exists_congr fun p => ?_),
    fun k hk => ?_, hfresh⟩
  · rw [hn.parent]
    refine and_congr_right fun hcp => ?_
    have hc : c ≠ np := by
      rintro rfl
      exact h.of_parent hcp hn.free
    have hp : p ≠ np := ne_of_state (h.parent c p hcp) hn.free ProcState.noConfusion
    rw [hn.pid c hc, hn.pid p hp, hn.state c hc, hn.xstate c hc]
  · rw [hn.nextpid]
    have := hr.used k hk
    omega

theorem Renumbered.slots (hn : Renumbered s s' np) (h : Slots s) (hpc : ∀ q, PcOk s' q (s'.pc q))
    (hbuilder : ∀ p q x, (s'.pc p).builds = some x → (s'.pc q).builds = some x → p = q) : Slots s' := by
  have hinit : initproc ≠ np := ne_of_state h.init.1 hn.free ProcState.noConfusion
  refine ⟨fun c hc => ?_, fun c => hn.pid_lt h, fun p q => hn.pid_inj h, ?_, fun c p hcp => ?_,
    fun c hc hci => ?_, hpc, hbuilder⟩
  · rw [hn.parent]
    by_cases hcn : c = np
    · rw [hcn]
      exact h.unused np hn.free
    · exact h.unused c (hn.state c hcn ▸ hc)
  · rw [hn.state _ hinit, hn.pid _ hinit]
    exact h.init
  · rw [hn.parent] at hcp
    have hp := h.parent c p hcp
    rw [hn.state p (ne_of_state hp hn.free ProcState.noConfusion), hp]
  · rw [hn.parent]
    have hcn : c ≠ np := by
      rintro rfl
      rcases hn.slot with hs | ⟨hs, -⟩
      · rw [hs] at hc
        rcases hc with hc | hc
        · cases hc
        · cases hc
      · rw [hs] at hc
        rcases hc with hc | hc
        · cases hc
        · cases hc
    rw [hn.state c hcn] at hc
    exact h.child c hc hci

theorem renumbered_found (p : ProcId) (memory : Bool) (hfree : s.state np = .unused) (hparent : s.parent np = none)
    (hroom : s.nextpid.toNat + 1 < 2 ^ 32) : Renumbered s (forkFound s p np memory) np := by
  have hnext : (s.nextpid + 1).toNat = s.nextpid.toNat + 1 := by bv_omega
  have hpar : Function.update s.parent np none = s.parent := by
    rw [← hparent, Function.update_eq_self]
  cases memory with
  | true =>
      exact ⟨hfree, fun c hc => Function.update_of_ne hc .., fun c hc => Function.update_of_ne hc ..,
        fun _ _ => rfl, rfl, rfl, hnext, Or.inr ⟨Function.update_self .., Function.update_self ..⟩⟩
  | false =>
      refine ⟨hfree, fun c hc => ?_, fun c hc => ?_, fun c hc => Function.update_of_ne hc .., hpar, rfl,
        hnext, Or.inl (Function.update_self ..)⟩
      · exact (Function.update_of_ne hc ..).trans (Function.update_of_ne hc ..)
      · exact (Function.update_of_ne hc ..).trans (Function.update_of_ne hc ..)

/-- `kfork` finds a slot. -/
theorem Related.found {memory : Bool} (h : Related s f) (hp : s.state p = .alive)
    (hfree : s.state np = .unused) (hroom : s.nextpid.toNat + 1 < 2 ^ 32) :
    Related (forkFound s p np memory) f := by
  obtain ⟨h, hr⟩ := h
  have hn := renumbered_found p memory hfree (h.unused np hfree) hroom
  have hpn : p ≠ np := ne_of_state hp hfree ProcState.noConfusion
  have hne : ∀ q ≠ p, (forkFound s p np memory).pc q = s.pc q := by
    intro q hq
    cases memory with
    | true => exact Function.update_of_ne hq ..
    | false => exact Function.update_of_ne hq ..
  have hself : (forkFound s p np memory).pc p = if memory then .forkBuilt np s.nextpid else .user := by
    cases memory with
    | true => exact Function.update_self ..
    | false => exact Function.update_self ..
  have hbuilds : ∀ x, ((forkFound s p np memory).pc p).builds = some x → x = np := by
    intro x hx
    rw [hself] at hx
    cases memory with
    | true => exact (Option.some.inj hx).symm
    | false => cases hx
  have hother : ∀ q ≠ p, ∀ x, ((forkFound s p np memory).pc q).builds = some x → x ≠ np := by
    intro q hq x hx
    rw [hne q hq] at hx
    exact ne_of_state (h.builds_spec hx).1 hfree ProcState.noConfusion
  refine ⟨hn.slots h (fun q => ?_) fun q q' x hq hq' => ?_, hn.reflects h hr fun q x pid hq => ?_⟩
  · by_cases hqp : q = p
    · subst hqp
      rw [hself]
      cases memory with
      | true =>
          have hused := hn.slot.resolve_left fun hu => ?_
          · refine ⟨by rw [hn.state q hpn, hp], hused.1, hused.2, ?_⟩
            rw [hn.parent]
            exact h.unused np hfree
          · have : (forkFound s q np true).state np = .used := Function.update_self ..
            rw [this] at hu
            cases hu
      | false => trivial
    · rw [hne q hqp]
      exact hn.pcOk h q
  · by_cases hqp : q = p
    · by_cases hqp' : q' = p
      · rw [hqp, hqp']
      · rw [hqp] at hq
        exact absurd (hbuilds x hq) (hother q' hqp' x hq')
    · by_cases hqp' : q' = p
      · rw [hqp'] at hq'
        exact absurd (hbuilds x hq') (hother q hqp x hq)
      · rw [hne q hqp] at hq
        rw [hne q' hqp'] at hq'
        exact h.builder q q' x hq hq'
  · by_cases hqp : q = p
    · rw [hqp, hself] at hq
      cases memory with
      | true =>
          cases hq
          intro hused
          exact absurd (hr.used _ hused) (Nat.lt_irrefl _)
      | false => cases hq
    · rw [hne q hqp] at hq
      exact hr.fresh q x pid hq

/-! A step changes the place of one process. -/

theorem pcOk_of_step (hpc : s'.pc = Function.update s.pc p pc) (hp : PcOk s' p pc)
    (hother : ∀ q ≠ p, PcOk s' q (s.pc q)) (q : ProcId) : PcOk s' q (s'.pc q) := by
  rw [hpc]
  by_cases hq : q = p
  · rw [hq, Function.update_self]
    exact hp
  · rw [Function.update_of_ne hq]
    exact hother q hq

theorem builds_of_step (hpc : s'.pc = Function.update s.pc p pc)
    (hb : ∀ x, pc.builds = some x → (s.pc p).builds = some x) {x : ProcId}
    (hq : (s'.pc q).builds = some x) : (s.pc q).builds = some x := by
  rw [hpc] at hq
  by_cases hqp : q = p
  · subst hqp
    rw [Function.update_self] at hq
    exact hb x hq
  · rwa [Function.update_of_ne hqp] at hq

theorem built_of_step {pid : Pid} (hpc : s'.pc = Function.update s.pc p pc)
    (hnot : ∀ x k, pc ≠ .forkBuilt x k) (hq : s'.pc q = .forkBuilt np pid) :
    q ≠ p ∧ s.pc q = .forkBuilt np pid := by
  rw [hpc] at hq
  by_cases hqp : q = p
  · rw [hqp, Function.update_self] at hq
    exact absurd hq (hnot np pid)
  · rw [Function.update_of_ne hqp] at hq
    exact ⟨hqp, hq⟩

/-- `kfork` has set the parent of the child. -/
structure Attached (s s' : Procs) (p np : ProcId) (k : Pid) : Prop where
  state : s'.state = s.state
  pid : s'.pid = s.pid
  xstate : s'.xstate = s.xstate
  nextpid : s'.nextpid = s.nextpid
  waitLock : s'.waitLock = s.waitLock
  parent : s'.parent = Function.update s.parent np (some p)
  pc : s'.pc = Function.update s.pc p (.forkReady np k)

theorem Attached.slots {pid : Pid} (ha : Attached s s' p np pid) (h : Slots s)
    (hpc : s.pc p = .forkBuilt np pid) : Slots s' := by
  have hok := h.pc p
  rw [hpc] at hok
  obtain ⟨halive, hused, hpid, hnone⟩ := hok
  have hself : s'.parent np = some p := by rw [ha.parent, Function.update_self]
  have hne : ∀ c ≠ np, s'.parent c = s.parent c := fun c hc => by rw [ha.parent, Function.update_of_ne hc]
  have hb : ∀ x, (Pc.forkReady np pid).builds = some x → (s.pc p).builds = some x := by
    rw [hpc]
    exact fun x => id
  refine ⟨fun c hc => ?_, ?_, ?_, ?_, fun c q hcq => ?_, fun c hc hci => ?_,
    pcOk_of_step ha.pc ?_ fun q hq => ?_, fun q q' x hq hq' => ?_⟩
  · rw [ha.state] at hc
    rw [hne c (ne_of_state hc hused ProcState.noConfusion)]
    exact h.unused c hc
  · rw [ha.state, ha.pid, ha.nextpid]
    exact h.pid_lt
  · rw [ha.state, ha.pid]
    exact h.pid_inj
  · rw [ha.state, ha.pid]
    exact h.init
  · rw [ha.state]
    by_cases hcn : c = np
    · rw [hcn, hself] at hcq
      cases hcq
      exact halive
    · exact h.parent c q (hne c hcn ▸ hcq)
  · by_cases hcn : c = np
    · exact ⟨p, hcn ▸ hself⟩
    · rw [hne c hcn]
      exact h.child c (ha.state ▸ hc) hci
  · refine ⟨?_, ?_, ?_, hself⟩
    · rw [ha.state, halive]
    · rw [ha.state, hused]
    · rw [ha.pid, hpid]
  · refine (h.pc q).frame (fun h => by rw [ha.state, h]) (fun _ h => by rw [ha.state, h]) (fun x hx => ?_)
      (fun _ c hc => ?_) fun h => by rw [ha.waitLock, h]
    · have hxn : x ≠ np := by
        rintro rfl
        exact hq (h.builder q p x hx (by rw [hpc]; rfl))
      exact ⟨by rw [ha.state], by rw [ha.pid], hne x hxn⟩
    · by_cases hcn : c = np
      · rw [hcn, hself] at hc
        exact absurd (Option.some.inj hc).symm hq
      · exact hne c hcn ▸ hc
  · exact h.builder q q' x (builds_of_step ha.pc hb hq) (builds_of_step ha.pc hb hq')

theorem Attached.reflects {pid : Pid} (ha : Attached s s' p np pid) (h : Slots s) (hr : Reflects s f)
    (hpc : s.pc p = .forkBuilt np pid) : Reflects s'
      ⟨Function.update f.member pid (some (s.pid p, none)), fun k => f.used k ∨ k = pid⟩ := by
  have hok := h.pc p
  rw [hpc] at hok
  obtain ⟨halive, hused, hpid, hnone⟩ := hok
  have hnpu : s.state np ≠ .unused := by rw [hused]; exact ProcState.noConfusion
  have hself : s'.parent np = some p := by rw [ha.parent, Function.update_self]
  have hne : ∀ c ≠ np, s'.parent c = s.parent c := fun c hc => by rw [ha.parent, Function.update_of_ne hc]
  refine ⟨fun k m => ?_, fun k hk => ?_, fun q x k hq => ?_⟩
  · dsimp only
    rw [ha.pid, ha.state, ha.xstate]
    by_cases hk : k = pid
    · rw [hk, Function.update_self]
      constructor
      · intro hm
        refine ⟨np, p, hself, hpid, ?_⟩
        rw [← Option.some.inj hm, hused]
        rfl
      · rintro ⟨c, q, hcq, hck, rfl⟩
        have hcn : c = np := by
          by_contra hcn
          rw [hne c hcn] at hcq
          exact hcn (h.pid_inj c np (h.of_parent hcq) hnpu (hck.trans hpid.symm))
        subst hcn
        rw [hself] at hcq
        cases hcq
        rw [hused]
        rfl
    · rw [Function.update_of_ne hk, hr.member]
      refine exists_congr fun c => exists_congr fun q => ?_
      by_cases hcn : c = np
      · subst hcn
        rw [hself, hnone]
        constructor
        · rintro ⟨hc, -⟩
          cases hc
        · rintro ⟨-, hc, -⟩
          exact absurd (hc.symm.trans hpid) hk
      · rw [hne c hcn]
  · rw [ha.nextpid]
    rcases hk with hk | rfl
    · exact hr.used k hk
    · exact hpid ▸ h.pid_lt np hnpu
  · obtain ⟨hqp, hq⟩ := built_of_step ha.pc (fun _ _ => Pc.noConfusion) hq
    rintro (hused' | rfl)
    · exact hr.fresh q x k hq hused'
    · -- the two children would have the same pid
      have hqok := h.pc q
      rw [hq] at hqok
      have hx : x = np := h.pid_inj x np (by rw [hqok.2.1]; exact ProcState.noConfusion) hnpu
        (hqok.2.2.1.trans hpid.symm)
      exact hqp (h.builder q p np (by rw [hq, hx]; rfl) (by rw [hpc]; rfl))

/-- `kfork` has let the child run. -/
structure Started (s s' : Procs) (p np : ProcId) : Prop where
  state : s'.state = Function.update s.state np .alive
  pid : s'.pid = s.pid
  xstate : s'.xstate = s.xstate
  nextpid : s'.nextpid = s.nextpid
  waitLock : s'.waitLock = s.waitLock
  parent : s'.parent = s.parent
  pc : s'.pc = Function.update s.pc p .user

theorem Started.slots {k : Pid} (hs : Started s s' p np) (h : Slots s) (hpc : s.pc p = .forkReady np k) :
    Slots s' := by
  have hok := h.pc p
  rw [hpc] at hok
  obtain ⟨halive, hused, hpid, hparent⟩ := hok
  have hnpu : s.state np ≠ .unused := by rw [hused]; exact ProcState.noConfusion
  have hself : s'.state np = .alive := by rw [hs.state, Function.update_self]
  have hne : ∀ c ≠ np, s'.state c = s.state c := fun c hc => by rw [hs.state, Function.update_of_ne hc]
  have hkeep : ∀ c, s.state c = .alive → s'.state c = .alive := fun c hc => by
    rw [hne c (ne_of_state hc hused ProcState.noConfusion), hc]
  have hunused : ∀ c, s'.state c ≠ .unused → s.state c ≠ .unused := by
    intro c hc
    by_cases hcn : c = np
    · rw [hcn]
      exact hnpu
    · rwa [hne c hcn] at hc
  refine ⟨fun c hc => ?_, fun c hc => ?_, fun c d hc hd => ?_, ⟨hkeep _ h.init.1, by rw [hs.pid]; exact h.init.2⟩,
    fun c q hcq => ?_, fun c hc hci => ?_, pcOk_of_step hs.pc trivial fun q hq => ?_,
    fun q q' x hq hq' => ?_⟩
  · rw [hs.parent]
    have hcn : c ≠ np := by
      rintro rfl
      exact ProcState.noConfusion (hself.symm.trans hc)
    exact h.unused c (hne c hcn ▸ hc)
  · rw [hs.pid, hs.nextpid]
    exact h.pid_lt c (hunused c hc)
  · rw [hs.pid]
    exact h.pid_inj c d (hunused c hc) (hunused d hd)
  · rw [hs.parent] at hcq
    exact hkeep q (h.parent c q hcq)
  · rw [hs.parent]
    by_cases hcn : c = np
    · exact ⟨p, hcn ▸ hparent⟩
    · exact h.child c (hne c hcn ▸ hc) hci
  · refine (h.pc q).frame (hkeep q) (fun _ hz => ?_) (fun x hx => ?_)
      (fun _ c hc => by rwa [hs.parent] at hc) fun hl => by rw [hs.waitLock, hl]
    · rw [hne q (ne_of_state hz hused ProcState.noConfusion), hz]
    · have hxn : x ≠ np := by
        rintro rfl
        exact hq (h.builder q p x hx (by rw [hpc]; rfl))
      exact ⟨hne x hxn, by rw [hs.pid], by rw [hs.parent]⟩
  · have hb : ∀ x, Pc.user.builds = some x → (s.pc p).builds = some x := fun x hx => by cases hx
    exact h.builder q q' x (builds_of_step hs.pc hb hq) (builds_of_step hs.pc hb hq')

theorem Started.reflects {k : Pid} (hs : Started s s' p np) (h : Slots s) (hr : Reflects s f)
    (hpc : s.pc p = .forkReady np k) : Reflects s' f := by
  have hok := h.pc p
  rw [hpc] at hok
  have hzombie : ∀ c, s'.state c = .zombie ↔ s.state c = .zombie := by
    intro c
    rw [hs.state]
    by_cases hcn : c = np
    · rw [hcn, Function.update_self, hok.2.1]
      simp
    · rw [Function.update_of_ne hcn]
  refine ⟨fun k m => ?_, fun k hk => ?_, fun q x k hq => ?_⟩
  · simp only [hr.member k m, hs.parent, hs.pid, hs.xstate, hzombie]
  · rw [hs.nextpid]
    exact hr.used k hk
  · exact hr.fresh q x k (built_of_step hs.pc (fun _ _ => Pc.noConfusion) hq).2

/-! ### `kwait` -/

/-- `kwait` has freed the slot of a child. -/
structure Reaped (s s' : Procs) (p c : ProcId) : Prop where
  state : s'.state = Function.update s.state c .unused
  pid : ∀ d ≠ c, s'.pid d = s.pid d
  xstate : ∀ d ≠ c, s'.xstate d = s.xstate d
  nextpid : s'.nextpid = s.nextpid
  waitLock : s'.waitLock = none
  parent : s'.parent = Function.update s.parent c none
  pc : s'.pc = Function.update s.pc p .user

theorem Reaped.slots (hs : Reaped s s' p c) (h : Slots s) (hlock : s.waitLock = some p)
    (hzombie : s.state c = .zombie) (hswtch : s.pc c ≠ .swtch) : Slots s' := by
  have hself : s'.state c = .unused := by rw [hs.state, Function.update_self]
  have hne : ∀ d ≠ c, s'.state d = s.state d := fun d hd => by rw [hs.state, Function.update_of_ne hd]
  have hparent : ∀ d q, s'.parent d = some q → d ≠ c ∧ s.parent d = some q := by
    intro d q hd
    rw [hs.parent] at hd
    by_cases hdc : d = c
    · rw [hdc, Function.update_self] at hd
      cases hd
    · rw [Function.update_of_ne hdc] at hd
      exact ⟨hdc, hd⟩
  have hunused : ∀ d, s'.state d ≠ .unused → d ≠ c ∧ s.state d ≠ .unused := by
    intro d hd
    have hdc : d ≠ c := by
      rintro rfl
      exact hd hself
    exact ⟨hdc, hne d hdc ▸ hd⟩
  have hkeep : ∀ d, s.state d = .alive → s'.state d = .alive := fun d hd => by
    rw [hne d (ne_of_state hd hzombie ProcState.noConfusion), hd]
  have hinit : initproc ≠ c := ne_of_state h.init.1 hzombie ProcState.noConfusion
  refine ⟨fun d hd => ?_, fun d hd => ?_, fun d d' hd hd' he => ?_,
    ⟨hkeep _ h.init.1, by rw [hs.pid _ hinit]; exact h.init.2⟩,
    fun d q hdq => hkeep q (h.parent d q (hparent d q hdq).2), fun d hd hdi => ?_,
    pcOk_of_step hs.pc trivial fun q hq => ?_, fun q q' x hq hq' => ?_⟩
  · rw [hs.parent]
    by_cases hdc : d = c
    · rw [hdc, Function.update_self]
    · rw [Function.update_of_ne hdc]
      exact h.unused d (hne d hdc ▸ hd)
  · obtain ⟨hdc, hd⟩ := hunused d hd
    rw [hs.pid d hdc, hs.nextpid]
    exact h.pid_lt d hd
  · obtain ⟨hdc, hd⟩ := hunused d hd
    obtain ⟨hdc', hd'⟩ := hunused d' hd'
    rw [hs.pid d hdc, hs.pid d' hdc'] at he
    exact h.pid_inj d d' hd hd' he
  · have hdc : d ≠ c := by
      rintro rfl
      rw [hself] at hd
      rcases hd with hd | hd
      · cases hd
      · cases hd
    rw [hs.parent, Function.update_of_ne hdc]
    exact h.child d (hne d hdc ▸ hd) hdi
  · refine (h.pc q).frame (hkeep q) (fun hsw hz => ?_) (fun x hx => ?_)
      (fun _ d hd => (hparent d q hd).2) fun hl => ?_
    · have hqc : q ≠ c := by
        rintro rfl
        exact hswtch hsw
      rw [hne q hqc, hz]
    · have hxc : x ≠ c := ne_of_state (h.builds_spec hx).1 hzombie ProcState.noConfusion
      exact ⟨hne x hxc, hs.pid x hxc, by rw [hs.parent, Function.update_of_ne hxc]⟩
    · rw [hlock] at hl
      exact absurd (Option.some.inj hl).symm hq
  · have hb : ∀ x, Pc.user.builds = some x → (s.pc p).builds = some x := fun x hx => by cases hx
    exact h.builder q q' x (builds_of_step hs.pc hb hq) (builds_of_step hs.pc hb hq')

theorem Reaped.reflects (hs : Reaped s s' p c) (h : Slots s) (hr : Reflects s f)
    (hzombie : s.state c = .zombie) :
    Reflects s' { f with member := Function.update f.member (s.pid c) none } := by
  have hcu : s.state c ≠ .unused := by rw [hzombie]; exact ProcState.noConfusion
  refine ⟨fun k m => ?_, fun k hk => ?_, fun q x k hq => ?_⟩
  · dsimp only
    have hsub : (∃ d q, s'.parent d = some q ∧ s'.pid d = k ∧
        m = (s'.pid q, if s'.state d = .zombie then some (s'.xstate d) else none)) ↔
      ∃ d q, d ≠ c ∧ s.parent d = some q ∧ s.pid d = k ∧
        m = (s.pid q, if s.state d = .zombie then some (s.xstate d) else none) := by
      refine exists_congr fun d => exists_congr fun q => ?_
      by_cases hdc : d = c
      · rw [hs.parent, hdc, Function.update_self]
        simp
      · rw [hs.parent, Function.update_of_ne hdc, hs.pid d hdc, hs.state, Function.update_of_ne hdc,
          hs.xstate d hdc, and_iff_right hdc]
        refine and_congr_right fun hdq => ?_
        rw [hs.pid q (ne_of_state (h.parent d q hdq) hzombie ProcState.noConfusion)]
    rw [hsub]
    by_cases hk : k = s.pid c
    · rw [hk, Function.update_self]
      refine iff_of_false (fun hm => by cases hm) ?_
      rintro ⟨d, q, hdc, hdq, hpid, -⟩
      exact hdc (h.pid_inj d c (h.of_parent hdq) hcu hpid)
    · rw [Function.update_of_ne hk, hr.member]
      refine exists_congr fun d => exists_congr fun q => ?_
      constructor
      · rintro ⟨hdq, hpid, hm⟩
        have hdc : d ≠ c := by
          rintro rfl
          exact hk hpid.symm
        exact ⟨hdc, hdq, hpid, hm⟩
      · rintro ⟨-, hrest⟩
        exact hrest
  · rw [hs.nextpid]
    exact hr.used k hk
  · exact hr.fresh q x k (built_of_step hs.pc (fun _ _ => Pc.noConfusion) hq).2

/-! ### `kexit` -/

/-- `kexit` has given the children to the first process. -/
structure Handed (s s' : Procs) (p : ProcId) (status : Status) : Prop where
  state : s'.state = s.state
  pid : s'.pid = s.pid
  xstate : s'.xstate = s.xstate
  nextpid : s'.nextpid = s.nextpid
  waitLock : s'.waitLock = s.waitLock
  parent : ∀ c, s'.parent c = if s.parent c = some p then some initproc else s.parent c
  pc : s'.pc = Function.update s.pc p (.exitReparented status)

theorem Handed.parent_eq {status : Status} (hs : Handed s s' p status) (hq : q ≠ initproc)
    (hc : s'.parent c = some q) : s.parent c = some q := by
  rw [hs.parent] at hc
  split at hc
  · exact absurd (Option.some.inj hc).symm hq
  · exact hc

theorem Handed.slots {status : Status} (hs : Handed s s' p status) (h : Slots s)
    (hpc : s.pc p = .exitLocked status) : Slots s' := by
  have hok := h.pc p
  rw [hpc] at hok
  obtain ⟨halive, hinit, hlock⟩ := hok
  refine ⟨fun c hc => ?_, ?_, ?_, ?_, fun c q hcq => ?_, fun c hc hci => ?_,
    pcOk_of_step hs.pc ?_ fun q hq => ?_, fun q q' x hq hq' => ?_⟩
  · rw [hs.parent, h.unused c (hs.state ▸ hc)]
    rfl
  · rw [hs.state, hs.pid, hs.nextpid]
    exact h.pid_lt
  · rw [hs.state, hs.pid]
    exact h.pid_inj
  · rw [hs.state, hs.pid]
    exact h.init
  · rw [hs.state]
    by_cases hqi : q = initproc
    · rw [hqi]
      exact h.init.1
    · exact h.parent c q (hs.parent_eq hqi hcq)
  · obtain ⟨q, hq⟩ := h.child c (hs.state ▸ hc) hci
    rw [hs.parent, hq]
    split
    · exact ⟨initproc, rfl⟩
    · exact ⟨q, rfl⟩
  · refine ⟨by rw [hs.state, halive], hinit, by rw [hs.waitLock, hlock], fun c hc => ?_⟩
    rw [hs.parent] at hc
    split at hc
    · exact hinit (Option.some.inj hc).symm
    · rename_i hne
      exact hne hc
  · have hnolock : s.waitLock ≠ some q := by
      rw [hlock]
      exact fun he => hq (Option.some.inj he).symm
    refine (h.pc q).frame (fun ha => by rw [hs.state, ha]) (fun _ hz => by rw [hs.state, hz])
      (fun x hx => ⟨by rw [hs.state], by rw [hs.pid], ?_⟩) (fun hl => absurd hl hnolock)
      fun hl => absurd hl hnolock
    -- the child that `q` builds is no child of `p`
    rw [hs.parent, if_neg]
    intro hxp
    rcases (h.builds_spec hx).2 with hnone | hsome
    · rw [hnone] at hxp
      cases hxp
    · rw [hsome] at hxp
      exact hq (Option.some.inj hxp)
  · have hb : ∀ x, (Pc.exitReparented status).builds = some x → (s.pc p).builds = some x :=
      fun x hx => by cases hx
    exact h.builder q q' x (builds_of_step hs.pc hb hq) (builds_of_step hs.pc hb hq')

theorem Handed.reflects {status : Status} (hs : Handed s s' p status) (h : Slots s) (hr : Reflects s f)
    (halive : s.state p = .alive) : Reflects s'
      { f with member := fun k => (f.member k).map fun m => (if m.1 = s.pid p then 1 else m.1, m.2) } := by
  have hpu : s.state p ≠ .unused := by rw [halive]; exact ProcState.noConfusion
  refine ⟨fun k m => ?_, fun k hk => ?_, fun q x k hq => ?_⟩
  · dsimp only
    rw [Option.map_eq_some_iff, hs.pid, hs.state, hs.xstate]
    constructor
    · rintro ⟨m₀, hm₀, rfl⟩
      obtain ⟨c, q, hcq, hck, rfl⟩ := (hr.member k m₀).mp hm₀
      have hqu : s.state q ≠ .unused := by rw [h.parent c q hcq]; exact ProcState.noConfusion
      by_cases hqp : q = p
      · refine ⟨c, initproc, ?_, hck, ?_⟩
        · rw [hs.parent, hcq, hqp, if_pos rfl]
        · rw [hqp, if_pos rfl, h.init.2]
      · refine ⟨c, q, ?_, hck, ?_⟩
        · rw [hs.parent, hcq, if_neg fun he => hqp (Option.some.inj he)]
        · rw [if_neg fun he => hqp (h.pid_inj q p hqu hpu he)]
    · rintro ⟨c, q, hcq, hck, rfl⟩
      rw [hs.parent] at hcq
      split at hcq
      · rename_i hcp
        cases hcq
        refine ⟨_, (hr.member k _).mpr ⟨c, p, hcp, hck, rfl⟩, ?_⟩
        rw [if_pos rfl, h.init.2]
      · rename_i hcp
        have hqp : q ≠ p := by
          rintro rfl
          exact hcp hcq
        have hqu : s.state q ≠ .unused := by rw [h.parent c q hcq]; exact ProcState.noConfusion
        refine ⟨_, (hr.member k _).mpr ⟨c, q, hcq, hck, rfl⟩, ?_⟩
        rw [if_neg fun he => hqp (h.pid_inj q p hqu hpu he)]
  · rw [hs.nextpid]
    exact hr.used k hk
  · exact hr.fresh q x k (built_of_step hs.pc (fun _ _ => Pc.noConfusion) hq).2

/-- `kexit` has made the process a zombie. -/
structure Died (s s' : Procs) (p : ProcId) (status : Status) : Prop where
  state : s'.state = Function.update s.state p .zombie
  pid : s'.pid = s.pid
  xstate : s'.xstate = Function.update s.xstate p status
  nextpid : s'.nextpid = s.nextpid
  waitLock : s'.waitLock = none
  parent : s'.parent = s.parent
  pc : s'.pc = Function.update s.pc p .swtch

theorem Died.slots {status : Status} (hs : Died s s' p status) (h : Slots s)
    (hpc : s.pc p = .exitReparented status) : Slots s' := by
  have hok := h.pc p
  rw [hpc] at hok
  obtain ⟨halive, hinit, hlock, hno⟩ := hok
  have hself : s'.state p = .zombie := by rw [hs.state, Function.update_self]
  have hne : ∀ c ≠ p, s'.state c = s.state c := fun c hc => by rw [hs.state, Function.update_of_ne hc]
  have hunused : ∀ c, s'.state c ≠ .unused → s.state c ≠ .unused := by
    intro c hc
    by_cases hcp : c = p
    · rw [hcp, halive]
      exact ProcState.noConfusion
    · rwa [hne c hcp] at hc
  refine ⟨fun c hc => ?_, fun c hc => ?_, fun c d hc hd => ?_, ?_, fun c q hcq => ?_, fun c hc hci => ?_,
    pcOk_of_step hs.pc hself fun q hq => ?_, fun q q' x hq hq' => ?_⟩
  · rw [hs.parent]
    have hcp : c ≠ p := by
      rintro rfl
      exact ProcState.noConfusion (hself.symm.trans hc)
    exact h.unused c (hne c hcp ▸ hc)
  · rw [hs.pid, hs.nextpid]
    exact h.pid_lt c (hunused c hc)
  · rw [hs.pid]
    exact h.pid_inj c d (hunused c hc) (hunused d hd)
  · rw [hne _ hinit.symm, hs.pid]
    exact h.init
  · rw [hs.parent] at hcq
    have hqp : q ≠ p := by
      rintro rfl
      exact hno c hcq
    rw [hne q hqp]
    exact h.parent c q hcq
  · rw [hs.parent]
    by_cases hcp : c = p
    · exact h.child c (Or.inl (hcp ▸ halive)) hci
    · exact h.child c (hne c hcp ▸ hc) hci
  · have hnolock : s.waitLock ≠ some q := by
      rw [hlock]
      exact fun he => hq (Option.some.inj he).symm
    refine (h.pc q).frame (fun ha => by rw [hne q hq, ha]) (fun _ hz => by rw [hne q hq, hz])
      (fun x hx => ?_) (fun hl => absurd hl hnolock) fun hl => absurd hl hnolock
    have hxp : x ≠ p := ne_of_state (h.builds_spec hx).1 halive ProcState.noConfusion
    exact ⟨hne x hxp, by rw [hs.pid], by rw [hs.parent]⟩
  · have hb : ∀ x, Pc.swtch.builds = some x → (s.pc p).builds = some x := fun x hx => by cases hx
    exact h.builder q q' x (builds_of_step hs.pc hb hq) (builds_of_step hs.pc hb hq')

theorem Died.reflects {status : Status} (hs : Died s s' p status) (h : Slots s) (hr : Reflects s f)
    (halive : s.state p = .alive) (hq : s.parent p = some q) : Reflects s'
      { f with member := Function.update f.member (s.pid p) (some (s.pid q, some status)) } := by
  have hpu : s.state p ≠ .unused := by rw [halive]; exact ProcState.noConfusion
  refine ⟨fun k m => ?_, fun k hk => ?_, fun q x k hq => ?_⟩
  · dsimp only
    rw [hs.pid, hs.parent]
    by_cases hk : k = s.pid p
    · rw [hk, Function.update_self]
      constructor
      · intro hm
        refine ⟨p, q, hq, rfl, ?_⟩
        rw [← Option.some.inj hm, hs.state, Function.update_self, hs.xstate, Function.update_self, if_pos rfl]
      · rintro ⟨c, x, hcx, hck, rfl⟩
        have hcp : c = p := h.pid_inj c p (h.of_parent hcx) hpu hck
        subst hcp
        cases hq.symm.trans hcx
        rw [hs.state, Function.update_self, hs.xstate, Function.update_self, if_pos rfl]
    · rw [Function.update_of_ne hk, hr.member]
      refine exists_congr fun c => exists_congr fun x => and_congr_right fun _ => and_congr_right fun hck => ?_
      have hcp : c ≠ p := by
        rintro rfl
        exact hk hck.symm
      rw [hs.state, Function.update_of_ne hcp, hs.xstate, Function.update_of_ne hcp]
  · rw [hs.nextpid]
    exact hr.used k hk
  · exact hr.fresh _ x k (built_of_step hs.pc (fun _ _ => Pc.noConfusion) hq).2

/-! ### Every step -/

theorem quiet {f : Family} (h : Related s' f) : ∃ f', FamilyStep f none f' ∧ Related s' f' :=
  ⟨f, .quiet f, h⟩

/-- A turn of the loop of `allocproc`. -/
theorem Related.forkScan {memory : Bool} {i : Nat} (h : Related s f) (hpc : s.pc p = .forkScan i)
    (hroom : s.nextpid.toNat + 1 < 2 ^ 32) : Related (forkScan s p memory i) f := by
  have hok := h.1.pc p
  rw [hpc] at hok
  rw [Proc.forkScan]
  split
  · split
    · exact h
    · split
      · rename_i hfree
        exact h.found hok hfree hroom
      · exact h.goto hok rfl
  · exact h.goto trivial rfl

/-- A turn of the loop of `kwait`. -/
theorem Related.waitScan {addr havekids : Bool} {i : Nat} (h : Related s f) (answer : Bool)
    (hpc : s.pc p = .waitScan addr i havekids) :
    ∃ f', FamilyStep f (waitScan s p answer addr i havekids).1 f' ∧
      Related (waitScan s p answer addr i havekids).2 f' := by
  have hok := h.1.pc p
  rw [hpc] at hok
  obtain ⟨halive, hlock, hno⟩ := hok
  have hothers : ∀ q ≠ p, s.waitLock = some q → (none : Option ProcId) = some q := by
    intro q hq hl
    rw [hlock] at hl
    exact absurd (Option.some.inj hl).symm hq
  have hreturn := h.move p .user trivial rfl hothers
  rw [Proc.waitScan]
  split
  · rename_i hi
    split
    · rename_i hchild
      split
      · exact quiet h
      · rename_i hswtch
        split
        · rename_i hzombie
          split
          · exact quiet hreturn
          · have hr : Reaped s (Proc.goto { freeproc s ⟨i, hi⟩ with waitLock := none } p .user) p ⟨i, hi⟩ :=
              ⟨rfl, fun d hd => Function.update_of_ne hd .., fun d hd => Function.update_of_ne hd .., rfl, rfl,
                rfl, rfl⟩
            have hm := (h.2.member (s.pid ⟨i, hi⟩) _).mpr ⟨⟨i, hi⟩, p, hchild, rfl, rfl⟩
            rw [if_pos hzombie] at hm
            refine ⟨_, .reaped hm fun d hd => ?_, hr.slots h.1 hlock hzombie hswtch,
              hr.reflects h.1 h.2 hzombie⟩
            split at hd
            · exact (Option.some.inj hd).symm
            · cases hd
        · exact quiet (h.goto ⟨halive, hlock, fun hk => by cases hk⟩ rfl)
    · rename_i hchild
      refine quiet (h.goto ⟨halive, hlock, fun hk c hc => ?_⟩ rfl)
      rcases Nat.lt_succ_iff_lt_or_eq.mp hc with hc | hc
      · exact hno hk c hc
      · have : c = ⟨i, hi⟩ := Fin.ext hc
        rw [this]
        exact hchild
  · rename_i hi
    split
    · rename_i hk
      refine ⟨f, .noChildren fun k m hm => ?_, hreturn⟩
      obtain ⟨c, q, hcq, -, rfl⟩ := (h.2.member k m).mp hm
      intro hqp
      have hqp : q = p := h.1.pid_inj q p (by rw [h.1.parent c q hcq]; exact ProcState.noConfusion)
        (by rw [halive]; exact ProcState.noConfusion) hqp
      exact hno (by simpa using hk) c (c.isLt.trans_le (Nat.le_of_not_lt hi)) (hqp ▸ hcq)
    · split
      · exact quiet hreturn
      · exact quiet (h.move p (.waiting addr) halive rfl hothers)

theorem advance_related {answer : Bool} {r : Option Event} (h : Related s f)
    (hroom : ∀ i, s.pc p = .forkScan i → s.nextpid.toNat + 1 < 2 ^ 32)
    (hs : advance s p answer = .ok (r, s')) : ∃ f', FamilyStep f r f' ∧ Related s' f' := by
  have hok := h.1.pc p
  rw [advance] at hs
  split at hs
  · cases hs
  · rename_i i hpc
    cases hs
    exact quiet (h.forkScan hpc (hroom i hpc))
  · rename_i np k hpc
    split at hs
    · cases hs
      have ha : Attached s (Proc.goto { s with parent := Function.update s.parent np (some p) } p
          (.forkReady np k)) p np k := ⟨rfl, rfl, rfl, rfl, rfl, rfl, rfl⟩
      exact ⟨_, .born (h.2.fresh p np k hpc), ha.slots h.1 hpc, ha.reflects h.1 h.2 hpc⟩
    · cases hs
      exact quiet h
  · rename_i np k hpc
    cases hs
    rw [hpc] at hok
    obtain ⟨-, hused, hpid, hparent⟩ := hok
    have hst : Started s (Proc.goto { s with state := Function.update s.state np .alive } p .user) p np :=
      ⟨rfl, rfl, rfl, rfl, rfl, rfl, rfl⟩
    have hm := (h.2.member k _).mpr ⟨np, p, hparent, hpid, rfl⟩
    rw [hused] at hm
    exact ⟨f, .forked hm, hst.slots h.1 hpc, hst.reflects h.1 h.2 hpc⟩
  · rename_i addr hpc
    rw [hpc] at hok
    split at hs
    · rename_i hfree
      cases hs
      exact quiet (h.move p (.waitScan addr 0 false) ⟨hok, rfl, fun _ c hc => absurd hc (Nat.not_lt_zero _)⟩ rfl fun q _ hl => by
        rw [hfree] at hl
        cases hl)
    · cases hs
      exact quiet h
  · rename_i addr i havekids hpc
    have hscan := h.waitScan answer hpc
    rw [Except.ok.inj hs] at hscan
    exact hscan
  · rename_i status hpc
    rw [hpc] at hok
    split at hs
    · rename_i hfree
      cases hs
      exact quiet (h.move p (.exitLocked status) ⟨hok.1, hok.2, rfl⟩ rfl fun q _ hl => by
        rw [hfree] at hl
        cases hl)
    · cases hs
      exact quiet h
  · rename_i status hpc
    rw [hpc] at hok
    cases hs
    have hh : Handed s (Proc.goto (reparent s p) p (.exitReparented status)) p status :=
      ⟨rfl, rfl, rfl, rfl, rfl, fun _ => rfl, rfl⟩
    exact ⟨_, .handed, hh.slots h.1 hpc, hh.reflects h.1 h.2 hok.1⟩
  · rename_i status hpc
    rw [hpc] at hok
    obtain ⟨halive, hinit, -, hno⟩ := hok
    cases hs
    have hd : Died s (Proc.goto { s with
        xstate := Function.update s.xstate p status
        state := Function.update s.state p .zombie
        waitLock := none } p .swtch) p status := ⟨rfl, rfl, rfl, rfl, rfl, rfl, rfl⟩
    obtain ⟨q, hq⟩ := h.1.child p (Or.inl halive) hinit
    have hm := (h.2.member (s.pid p) _).mpr ⟨p, q, hq, rfl, rfl⟩
    rw [halive] at hm
    refine ⟨_, .died hm fun k m hk hmp => ?_, hd.slots h.1 hpc, hd.reflects h.1 h.2 halive hq⟩
    obtain ⟨c, x, hcx, -, rfl⟩ := (h.2.member k m).mp hk
    have hxp : x = p := h.1.pid_inj x p (by rw [h.1.parent c x hcx]; exact ProcState.noConfusion)
      (by rw [halive]; exact ProcState.noConfusion) hmp
    exact hno c (hxp ▸ hcx)
  · cases hs
    exact quiet (h.goto trivial rfl)

/-! ### The pids are enough -/

def Pc.scans : Pc → Bool
  | .forkScan _ => true
  | _ => false

/-- The `kfork`s that have not got a pid yet. -/
def scans (s : Procs) (p : ProcId) : Option Unit := if (s.pc p).scans then some () else none

def scanning (s : Procs) : Nat := holders (scans s) ()

theorem scanning_step (hpc : s'.pc = Function.update s.pc p pc) :
    scanning s' + (if (s.pc p).scans then 1 else 0) = scanning s + if pc.scans then 1 else 0 := by
  have hscans : scans s' = Function.update (scans s) p (if pc.scans then some () else none) := by
    funext q
    rw [scans, hpc]
    by_cases hq : q = p
    · rw [hq, Function.update_self, Function.update_self]
    · rw [Function.update_of_ne hq, Function.update_of_ne hq]
      rfl
  rw [scanning, scanning, hscans]
  cases hold : (s.pc p).scans with
  | true =>
      have hslot : scans s p = some () := by rw [scans, hold, if_pos rfl]
      cases pc.scans with
      | true => rw [if_pos rfl, ← hslot, Function.update_eq_self]
      | false => simpa using holders_clear hslot ()
  | false =>
      have hslot : scans s p = none := by rw [scans, hold, if_neg Bool.false_ne_true]
      cases pc.scans with
      | true => simpa using holders_store (a := ()) hslot ()
      | false => rw [if_neg Bool.false_ne_true, ← hslot, Function.update_eq_self]

/-- A step uses at most `n` new pids, now or later. -/
def Uses (s s' : Procs) (n : Nat) : Prop :=
  s'.nextpid.toNat + scanning s' ≤ s.nextpid.toNat + scanning s + n

theorem Uses.refl (s : Procs) : Uses s s 0 := le_rfl

theorem uses_of_step (hpc : s'.pc = Function.update s.pc p pc) (hnext : s'.nextpid = s.nextpid)
    (hscan : pc.scans = true → (s.pc p).scans = true) : Uses s s' 0 := by
  have hcount := scanning_step hpc
  rw [Uses, hnext]
  cases hnew : pc.scans with
  | true =>
      rw [hnew, hscan hnew] at hcount
      omega
  | false =>
      rw [hnew, if_neg Bool.false_ne_true] at hcount
      omega

theorem uses_forkScan {memory : Bool} {i : Nat} (hpc : s.pc p = .forkScan i) :
    Uses s (forkScan s p memory i) 0 := by
  have hold : (s.pc p).scans = true := by rw [hpc]; rfl
  rw [Proc.forkScan]
  split
  · split
    · exact Uses.refl s
    · split
      · rename_i hi _ _
        obtain ⟨pc, hnew, hpcs⟩ : ∃ pc : Pc, pc.scans = false ∧
            (forkFound s p ⟨i, hi⟩ memory).pc = Function.update s.pc p pc := by
          cases memory with
          | true => exact ⟨_, rfl, rfl⟩
          | false => exact ⟨_, rfl, rfl⟩
        have hnext : (forkFound s p ⟨i, hi⟩ memory).nextpid = s.nextpid + 1 := by
          cases memory with
          | true => rfl
          | false => rfl
        have hcount := scanning_step hpcs
        rw [hold, hnew, if_pos rfl, if_neg Bool.false_ne_true] at hcount
        have hle : (s.nextpid + 1).toNat ≤ s.nextpid.toNat + 1 := by bv_omega
        rw [Uses, hnext]
        omega
      · exact uses_of_step rfl rfl fun _ => hold
  · exact uses_of_step rfl rfl fun _ => hold

theorem uses_waitScan (s : Procs) (p : ProcId) (answer addr : Bool) (i : Nat) (havekids : Bool) :
    Uses s (waitScan s p answer addr i havekids).2 0 := by
  rw [Proc.waitScan]
  split
  · split
    · split
      · exact Uses.refl s
      · split
        · split
          · exact uses_of_step rfl rfl Bool.false_ne_true.elim
          · exact uses_of_step rfl rfl Bool.false_ne_true.elim
        · exact uses_of_step rfl rfl Bool.false_ne_true.elim
    · exact uses_of_step rfl rfl Bool.false_ne_true.elim
  · split
    · exact uses_of_step rfl rfl Bool.false_ne_true.elim
    · split
      · exact uses_of_step rfl rfl Bool.false_ne_true.elim
      · exact uses_of_step rfl rfl Bool.false_ne_true.elim

theorem uses_advance {answer : Bool} {r : Option Event} (hs : advance s p answer = .ok (r, s')) :
    Uses s s' 0 := by
  rw [advance] at hs
  split at hs
  · cases hs
  · rename_i i hpc
    cases hs
    exact uses_forkScan hpc
  · split at hs
    · cases hs
      exact uses_of_step rfl rfl Bool.false_ne_true.elim
    · cases hs
      exact Uses.refl s
  · cases hs
    exact uses_of_step rfl rfl Bool.false_ne_true.elim
  · split at hs
    · cases hs
      exact uses_of_step rfl rfl Bool.false_ne_true.elim
    · cases hs
      exact Uses.refl s
  · rename_i addr i havekids hpc
    have hscan := uses_waitScan s p answer addr i havekids
    rw [Except.ok.inj hs] at hscan
    exact hscan
  · split at hs
    · cases hs
      exact uses_of_step rfl rfl Bool.false_ne_true.elim
    · cases hs
      exact Uses.refl s
  · cases hs
    exact uses_of_step rfl rfl Bool.false_ne_true.elim
  · cases hs
    exact uses_of_step rfl rfl Bool.false_ne_true.elim
  · cases hs
    exact uses_of_step rfl rfl Bool.false_ne_true.elim

theorem enter_eq {r : Option Event} (hs : enter s p pc = .ok (r, s')) :
    s.state p = .alive ∧ s.pc p = .user ∧ r = none ∧ s' = goto s p pc := by
  rw [enter] at hs
  split at hs
  · rename_i hrunning
    cases hs
    exact ⟨hrunning.1, hrunning.2, rfl, rfl⟩
  · cases hs

theorem uses_procStep {a : ProcAct} {r : Option Event} (hs : procStep a s = .ok (r, s')) :
    Uses s s' (if a.isFork then 1 else 0) := by
  cases a with
  | kfork p =>
      obtain ⟨-, hpc, -, rfl⟩ := enter_eq hs
      have hcount := scanning_step
        (show (goto s p (.forkScan 0)).pc = Function.update s.pc p (.forkScan 0) from rfl)
      rw [hpc] at hcount
      show s.nextpid.toNat + scanning (goto s p (.forkScan 0)) ≤ _
      simp only [Pc.scans, ProcAct.isFork, Bool.false_eq_true, if_false, if_true] at hcount ⊢
      omega
  | kexit p status =>
      rw [procStep] at hs
      split at hs
      · cases hs
      · obtain ⟨-, -, -, rfl⟩ := enter_eq hs
        exact uses_of_step rfl rfl Bool.false_ne_true.elim
  | kwait p addr =>
      obtain ⟨-, -, -, rfl⟩ := enter_eq hs
      exact uses_of_step rfl rfl Bool.false_ne_true.elim
  | next p answer => exact uses_advance hs

/-- There is a pid for every `kfork` under way. -/
def Room (_ : ProcAct) (s : Procs) : Prop := s.nextpid.toNat + scanning s ≤ 2 ^ 31

theorem meets_room : ∀ (acts : List ProcAct) (s : Procs),
    s.nextpid.toNat + scanning s + acts.countP ProcAct.isFork ≤ 2 ^ 31 → Meets procStep Room acts s
  | [], _, _ => trivial
  | a :: acts, s, h => by
      rw [List.countP_cons] at h
      refine ⟨by unfold Room; omega, fun r s' hs => meets_room acts s' ?_⟩
      have huses := uses_procStep hs
      unfold Uses at huses
      omega

/-! ### Runs -/

theorem procStep_related {a : ProcAct} {r : Option Event} (hroom : Room a s) (h : Related s f)
    (hs : procStep a s = .ok (r, s')) : ∃ f', FamilyStep f r f' ∧ Related s' f' := by
  cases a with
  | kfork p =>
      obtain ⟨halive, -, rfl, rfl⟩ := enter_eq hs
      exact quiet (h.goto halive rfl)
  | kexit p status =>
      rw [procStep] at hs
      split at hs
      · cases hs
      · rename_i hinit
        obtain ⟨halive, -, rfl, rfl⟩ := enter_eq hs
        exact quiet (h.goto ⟨halive, hinit⟩ rfl)
  | kwait p addr =>
      obtain ⟨halive, -, rfl, rfl⟩ := enter_eq hs
      exact quiet (h.goto halive rfl)
  | next p answer =>
      refine advance_related h (fun i hpc => ?_) hs
      have hle : s.nextpid.toNat + scanning s ≤ 2 ^ 31 := hroom
      omega

theorem related_userinit : Related userinit firstFamily := by
  have hstate : ∀ p, userinit.state p ≠ .unused → p = initproc := by
    intro p hp
    by_contra hne
    exact hp (if_neg hne)
  refine ⟨⟨fun _ _ => rfl, fun p hp => ?_, fun p q hp hq _ => ?_, ⟨rfl, rfl⟩, fun c p hc => ?_,
    fun c hc hci => ?_, fun _ => trivial, fun p q np hp => ?_⟩, ⟨fun k m => ?_, fun k hk => ?_,
    fun p np pid hp => ?_⟩⟩
  · rw [hstate p hp]
    decide
  · rw [hstate p hp, hstate q hq]
  · cases hc
  · refine absurd (hstate c ?_) hci
    rcases hc with hc | hc
    · rw [hc]
      exact ProcState.noConfusion
    · rw [hc]
      exact ProcState.noConfusion
  · cases hp
  · refine iff_of_false (fun hm => by cases hm) ?_
    rintro ⟨c, p, hcp, -⟩
    cases hcp
  · rw [show k = 1 from hk]
    decide
  · cases hp

/-- **The processes are a family.**  Let any processes fork, exit and wait, in any order of the steps of
these calls, with fewer than 2^31 - 1 calls of `kfork`.  In every state that is reached, the processes
have distinct pids, every process but the first has a parent, and no parent is free or a zombie.  What
the calls have told is a run of a family: a process is reaped once at most, by the parent it has then,
which gets its pid and its status, and is told that it has no children only if it has none. -/
theorem procs_family {acts : List ProcAct} {rs : List (Option Event)}
    (hforks : acts.countP ProcAct.isFork < 2 ^ 31 - 1) (hrun : run procStep acts userinit = .ok (rs, s)) :
    (∀ p q, s.state p ≠ .unused → s.state q ≠ .unused → s.pid p = s.pid q → p = q) ∧
    (∀ c p, s.parent c = some p → s.state p ≠ .unused ∧ s.state p ≠ .zombie) ∧
    (∀ c, s.state c = .alive ∨ s.state c = .zombie → c ≠ initproc → ∃ p, s.parent c = some p) ∧
    (rs.filterMap reapedPid).Nodup ∧
    ∃ f, FamilyRun acts firstFamily rs f ∧
      ∀ k m, f.member k = some m ↔ ∃ c p, s.parent c = some p ∧ s.pid c = k ∧
        m = (s.pid p, if s.state c = .zombie then some (s.xstate c) else none) := by
  have hzero : scanning userinit = 0 := by decide +kernel
  have hm : Meets procStep Room acts userinit := by
    refine meets_room acts userinit ?_
    have hnext : userinit.nextpid.toNat = 2 := rfl
    omega
  have hstep : ∀ a s f r s', Room a s → Related s f → procStep a s = .ok (r, s') →
      ∃ f', FamilyStep f r f' ∧ Related s' f' := fun a s f r s' => procStep_related
  obtain ⟨f, htrace, hslots, hreflects⟩ := run_refines (A := fun _ => FamilyStep) hstep acts userinit
    firstFamily rs s hm related_userinit hrun
  refine ⟨hslots.pid_inj, fun c p hcp => ?_, hslots.child, FamilyRun.reaped_nodup htrace fun k m hk => ?_,
    f, htrace, hreflects.member⟩
  · rw [hslots.parent c p hcp]
    exact ⟨ProcState.noConfusion, ProcState.noConfusion⟩
  · cases hk

/-- The first process forks and waits; the child exits with 7. -/
def forkExitWait : List ProcAct :=
  [.kfork initproc] ++ List.replicate 4 (.next initproc true) ++
    [.kexit ⟨1, by decide⟩ 7] ++ List.replicate 4 (.next ⟨1, by decide⟩ true) ++
    [.kwait initproc true] ++ List.replicate 3 (.next initproc true)

theorem procs_family_forkExitWait : forkExitWait.countP ProcAct.isFork < 2 ^ 31 - 1 ∧
    ∃ rs s, run procStep forkExitWait userinit = .ok (rs, s) ∧ some (.reaped 1 2 (some 7)) ∈ rs ∧
      (rs.filterMap reapedPid).Nodup := by
  have hforks : forkExitWait.countP ProcAct.isFork < 2 ^ 31 - 1 := by decide +kernel
  have hend : ((run procStep forkExitWait userinit).toOption.map fun x =>
      decide (some (.reaped 1 2 (some 7)) ∈ x.1)) = some true := by decide +kernel
  obtain ⟨⟨rs, s⟩, hrun, hmem⟩ := Option.map_eq_some_iff.mp hend
  have hrun := eq_ok_of_toOption hrun
  exact ⟨hforks, rs, s, hrun, of_decide_eq_true hmem, (procs_family hforks hrun).2.2.2.1⟩

end Xv6.Proc
