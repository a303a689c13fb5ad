import Xv6.DiskSched.Defs

/-!
# DiskSched — Serve

Every submitted request is served once, by its own submitter, before the submitter returns.

The queue is empty whenever `dq_lock` is free (`Empty`): a submitter enqueues its request and
takes a request out in one critical section, and the only request there is its own.  So the
system behaves as if there were no queue at all: a submitter performs its own I/O and a flusher
none.  `idealStep` is that system; it has no scheduler state and no policy, which is why the
policy does not matter.

The one exception is `pick_fcfs` on a request whose sequence number is `0xFFFFFFFF`: no number is
below the start value of `best_seq`, so the request is not picked, stays in the queue, and its
submitter returns without any I/O.  `SeqOk` excludes exactly that step.
-/

namespace Xv6.DiskSched
open Xv6.Lib

/-! ### An empty queue -/

/-- No slot is valid and `dq_size` says so. -/
structure Empty (s : Sched) : Prop where
  invalid : ∀ i, (s.dq i).valid = false
  size : s.dqSize = 0

theorem empty_init (s : Sched) : Empty (diskschedInit s) := ⟨fun _ => rfl, rfl⟩

theorem finRange_cons : List.finRange MAX_DISK_QUEUE =
    0 :: (List.finRange 63).map Fin.succ := List.finRange_succ

theorem dqAllocSlot_empty {s : Sched} (h : Empty s) : dqAllocSlot s = some 0 := by
  rw [dqAllocSlot, finRange_cons, List.find?_cons_of_pos]
  simp [h.invalid]

/-- Slots that are not valid do not take part in the selection. -/
theorem foldl_fcfsTurn_invalid {s : Sched} :
    ∀ (l : List (Fin MAX_DISK_QUEUE)) (acc : Option (Fin MAX_DISK_QUEUE) × UInt32),
      (∀ i ∈ l, (s.dq i).valid = false) → l.foldl (fcfsTurn s) acc = acc
  | [], _, _ => rfl
  | i :: l, acc, h => by
      have hi : fcfsTurn s acc i = acc := by simp [fcfsTurn, h i List.mem_cons_self]
      rw [List.foldl_cons, hi]
      exact foldl_fcfsTurn_invalid l acc fun j hj => h j (List.mem_cons_of_mem i hj)

theorem foldl_sstfTurn_invalid {s : Sched} :
    ∀ (l : List (Fin MAX_DISK_QUEUE)) (acc : Option (Fin MAX_DISK_QUEUE) × UInt32 × Int),
      (∀ i ∈ l, (s.dq i).valid = false) → l.foldl (sstfTurn s) acc = acc
  | [], _, _ => rfl
  | i :: l, acc, h => by
      have hi : sstfTurn s acc i = acc := by simp [sstfTurn, h i List.mem_cons_self]
      rw [List.foldl_cons, hi]
      exact foldl_sstfTurn_invalid l acc fun j hj => h j (List.mem_cons_of_mem i hj)

section OneRequest

variable {s : Sched} (hrest : ∀ i, i ≠ 0 → (s.dq i).valid = false)

include hrest

theorem tail_invalid : ∀ i ∈ (List.finRange 63).map Fin.succ, (s.dq i).valid = false := by
  intro i hi
  obtain ⟨j, -, rfl⟩ := List.mem_map.mp hi
  exact hrest _ (Fin.succ_ne_zero j)

variable (h0 : (s.dq 0).valid = true)

include h0

/-- FCFS picks the only request, unless its sequence number is the start value of `best_seq`. -/
theorem pickFcfs_one : pickFcfs s = if (s.dq 0).seq = 0xFFFFFFFF then none else some 0 := by
  rw [pickFcfs, finRange_cons, List.foldl_cons, foldl_fcfsTurn_invalid _ _ (tail_invalid hrest)]
  have hlt : (s.dq 0).seq < 0xFFFFFFFF ↔ (s.dq 0).seq ≠ 0xFFFFFFFF := by
    rw [UInt32.lt_iff_toNat_lt, ne_eq, ← UInt32.toNat_inj]
    have := (s.dq 0).seq.toNat_lt
    have hmax : (0xFFFFFFFF : UInt32).toNat = 2 ^ 32 - 1 := rfl
    omega
  by_cases hseq : (s.dq 0).seq = 0xFFFFFFFF
  · simp [fcfsTurn, h0, hseq]
  · simp [fcfsTurn, h0, hlt.mpr hseq, hseq]

/-- SSTF picks the only request: at the largest distance its priority decides. -/
theorem pickSstf_one (hp : (s.dq 0).priority < 0x7FFFFFFF) : pickSstf s = some 0 := by
  rw [pickSstf, finRange_cons, List.foldl_cons, foldl_sstfTurn_invalid _ _ (tail_invalid hrest)]
  have hle : seekDist (s.dq 0).blockno s.currentHead < 0xFFFFFFFF ∨
      seekDist (s.dq 0).blockno s.currentHead = 0xFFFFFFFF := by
    rw [UInt32.lt_iff_toNat_lt, ← UInt32.toNat_inj]
    have := (seekDist (s.dq 0).blockno s.currentHead).toNat_lt
    have hmax : (0xFFFFFFFF : UInt32).toNat = 2 ^ 32 - 1 := rfl
    omega
  have hcond : seekDist (s.dq 0).blockno s.currentHead < 0xFFFFFFFF ∨
      (seekDist (s.dq 0).blockno s.currentHead = 0xFFFFFFFF ∧
        (s.dq 0).priority < 0x7FFFFFFF) := hle.imp_right fun h => ⟨h, hp⟩
  simp [sstfTurn, h0, hcond]

end OneRequest

/-! ### The critical sections on an empty queue -/

/-- `pick_fcfs` would meet the request with the sequence number it starts from. -/
def SeqStuck (s : Sched) : Prop := s.schedPolicy = .fcfs ∧ s.dqSeq = 0xFFFFFFFF

theorem reqPriority_lt (p : Option CallerProc) : reqPriority p < 0x7FFFFFFF := by
  cases p with
  | none => decide
  | some p => have := p.level_le; simp only [reqPriority]; omega

/-- With the new request alone in the queue, the selection answers "none" only when stuck. -/
theorem pick_enqueue {s : Sched} (h : Empty s) (b : Buf) (write : Bool) (p : Option CallerProc) :
    (SeqStuck s → pick (enqueue s 0 b write p) = none) ∧
      (¬ SeqStuck s → pick (enqueue s 0 b write p) = some 0) := by
  have h0 : ((enqueue s 0 b write p).dq 0).valid = true := by simp [enqueue]
  have hrest : ∀ i, i ≠ 0 → ((enqueue s 0 b write p).dq i).valid = false := by
    intro i hi
    simp [enqueue, hi, h.invalid]
  have hseq : ((enqueue s 0 b write p).dq 0).seq = s.dqSeq := by simp [enqueue]
  have hprio : ((enqueue s 0 b write p).dq 0).priority < 0x7FFFFFFF := by
    simpa [enqueue] using reqPriority_lt p
  have hpol : (enqueue s 0 b write p).schedPolicy = s.schedPolicy := rfl
  unfold pick SeqStuck
  rw [hpol]
  cases s.schedPolicy with
  | fcfs => simp [pickFcfs_one hrest h0, hseq]
  | sstf => simp [pickSstf_one hrest h0 hprio]

/-- A submitter takes its own request and leaves the queue empty. -/
theorem submitLocked_empty {s : Sched} (h : Empty s) (hseq : ¬ SeqStuck s) (b : Buf)
    (write : Bool) (p : Option CallerProc) :
    ∃ s', submitLocked s b write p = .ok (some (b, write), s') ∧ Empty s' ∧
      s'.schedPolicy = s.schedPolicy ∧ s'.dqSeq = s.dqSeq + 1 := by
  refine ⟨(extract (enqueue s 0 b write p) 0).2, ?_, ⟨fun i => ?_, ?_⟩, rfl, rfl⟩
  · simp only [submitLocked, dqAllocSlot_empty h, (pick_enqueue h b write p).2 hseq]
    simp [extract, enqueue]
  · by_cases hi : i = 0
    · simp [extract, computeAndRecordLatency, hi]
    · simp [extract, computeAndRecordLatency, enqueue, hi, h.invalid]
  · simp [extract, computeAndRecordLatency, enqueue, h.size]

/-- At the sequence number `0xFFFFFFFF` a FCFS submitter leaves its request in the queue. -/
theorem submitLocked_stuck {s : Sched} (h : Empty s) (hseq : SeqStuck s) (b : Buf) (write : Bool)
    (p : Option CallerProc) :
    submitLocked s b write p = .ok (none, enqueue s 0 b write p) := by
  simp only [submitLocked, dqAllocSlot_empty h, (pick_enqueue h b write p).1 hseq]

theorem flushLocked_empty {s : Sched} (h : Empty s) : flushLocked s = (none, s) := by
  simp [flushLocked, h.size]

/-! ### The system without a queue -/

/-- The calls and the I/O issued: a configuration without its scheduler. -/
structure Ideal where
  calls : Nat → CallState
  issued : List Io

def Config.ideal (c : Config) : Ideal := ⟨c.calls, c.issued⟩

def Ideal.setCall (a : Ideal) (k : Nat) (st : CallState) : Ideal :=
  { a with calls := Function.update a.calls k st }

/-- A submitter goes on to its own I/O, a flusher returns; a policy changes nothing. -/
def idealStep (a : Ideal) : Label → Option Ideal
  | .setPolicy _ => some a
  | .callSubmit k b write p =>
    match a.calls k with
    | .idle => some (a.setCall k (.submitting b write p))
    | _ => none
  | .callFlush k =>
    match a.calls k with
    | .idle => some (a.setCall k .flushing)
    | _ => none
  | .move k =>
    match a.calls k with
    | .submitting b write _ => some (a.setCall k (.submitIo b write (b, write)))
    | .submitIo b write chosen =>
      some (Ideal.setCall { a with issued := a.issued ++ [⟨k, chosen.1, chosen.2⟩] } k
        (.submitted b write))
    | .flushing => some (a.setCall k .flushed)
    | .flushIo chosen =>
      some (Ideal.setCall { a with issued := a.issued ++ [⟨k, chosen.1, chosen.2⟩] } k .flushing)
    | _ => none

/-- The condition on a step: the submitter that enters its critical section is not stuck. -/
def SeqOk (l : Label) (c : Config) : Prop :=
  match l with
  | .move k =>
    match c.calls k with
    | .submitting _ _ _ => ¬ SeqStuck c.sched
    | _ => True
  | _ => True

/-- **One step.**  On an empty queue the system does what the system without a queue does, and
leaves the queue empty. -/
theorem step_ideal {l : Label} {c c' : Config} {u : Unit} (he : Empty c.sched) (hseq : SeqOk l c)
    (h : step l c = .ok (u, c')) : idealStep c.ideal l = some c'.ideal ∧ Empty c'.sched := by
  cases l with
  | setPolicy policy =>
      simp only [step, diskschedSetPolicy] at h
      split_ifs at h <;> cases h <;> exact ⟨rfl, he.invalid, he.size⟩
  | callSubmit k b write p =>
      simp only [step] at h
      split at h
      · next hk =>
          cases h
          exact ⟨by simp [idealStep, Config.ideal, Ideal.setCall, setCall, hk], he⟩
      · cases h
  | callFlush k =>
      simp only [step] at h
      split at h
      · next hk =>
          cases h
          exact ⟨by simp [idealStep, Config.ideal, Ideal.setCall, setCall, hk], he⟩
      · cases h
  | move k =>
      simp only [step] at h
      cases hk : c.calls k with
      | idle => simp [hk] at h
      | submitted b write => simp [hk] at h
      | flushed => simp [hk] at h
      | submitting b write p =>
          have hns : ¬ SeqStuck c.sched := by simpa [SeqOk, hk] using hseq
          obtain ⟨s', hs', he', -, -⟩ := submitLocked_empty he hns b write p
          simp only [hk, hs'] at h
          cases h
          exact ⟨by simp [idealStep, Config.ideal, Ideal.setCall, setCall, hk], he'⟩
      | submitIo b write chosen =>
          simp only [hk] at h
          cases h
          exact ⟨by simp [idealStep, Config.ideal, Ideal.setCall, setCall, hk], he⟩
      | flushing =>
          simp only [hk, flushLocked_empty he] at h
          cases h
          exact ⟨by simp [idealStep, Config.ideal, Ideal.setCall, setCall, hk], he⟩
      | flushIo chosen =>
          simp only [hk] at h
          cases h
          exact ⟨by simp [idealStep, Config.ideal, Ideal.setCall, setCall, hk], he⟩

/-- **A whole run** is a run of the system without a queue, and ends with the queue empty. -/
theorem run_ideal : ∀ (ls : List Label) {c c' : Config} {rs : List Unit}, Empty c.sched →
    Meets step SeqOk ls c → run step ls c = .ok (rs, c') →
    ls.foldlM idealStep c.ideal = some c'.ideal ∧ Empty c'.sched
  | [], c, c', rs, he, _, h => by
      cases h
      exact ⟨rfl, he⟩
  | l :: ls, c, c', rs, he, ⟨hl, hrest⟩, h => by
      obtain ⟨r, rs', c₁, -, h₁, h₂⟩ := run_cons_inv h
      obtain ⟨hi, he₁⟩ := step_ideal he hl h₁
      obtain ⟨hi', he'⟩ := run_ideal ls he₁ (hrest r c₁ h₁) h₂
      refine ⟨?_, he'⟩
      rw [List.foldlM_cons, hi]
      exact hi'

/-- The I/O issued by call `k`. -/
def Ideal.issuedBy (a : Ideal) (k : Nat) : List Io := a.issued.filter fun e => e.call = k

/-- Call `k` has issued what its state says: a submitter its own request once it has returned,
nothing before; a flusher nothing. -/
def CallOk (a : Ideal) (k : Nat) : Prop :=
  match a.calls k with
  | .submitted b write => a.issuedBy k = [⟨k, b, write⟩]
  | .submitIo b write chosen => chosen = (b, write) ∧ a.issuedBy k = []
  | .flushIo _ => False
  | _ => a.issuedBy k = []

theorem CallOk.of_same {a a' : Ideal} {k : Nat} (h : CallOk a k) (hc : a'.calls k = a.calls k)
    (hi : a'.issuedBy k = a.issuedBy k) : CallOk a' k := by
  unfold CallOk at *
  rw [hc, hi]
  exact h

theorem issuedBy_other (a : Ideal) {j k : Nat} (h : j ≠ k) (e : Io) (he : e.call = k) :
    Ideal.issuedBy { a with issued := a.issued ++ [e] } j = a.issuedBy j := by
  subst he
  simp [Ideal.issuedBy, List.filter_append, h.symm]

/-- One step keeps every call's account. -/
theorem idealStep_callOk {a a' : Ideal} {l : Label} (h : idealStep a l = some a')
    (hok : ∀ k, CallOk a k) : ∀ k, CallOk a' k := by
  intro j
  have hj := hok j
  cases l with
  | setPolicy policy =>
      cases h
      exact hj
  | callSubmit k b write p =>
      simp only [idealStep] at h
      split at h
      · next hk =>
          cases h
          by_cases hjk : j = k
          · subst hjk
            simpa [CallOk, Ideal.setCall, Ideal.issuedBy, hk] using hj
          · exact hj.of_same (by simp [Ideal.setCall, hjk]) rfl
      · cases h
  | callFlush k =>
      simp only [idealStep] at h
      split at h
      · next hk =>
          cases h
          by_cases hjk : j = k
          · subst hjk
            simpa [CallOk, Ideal.setCall, Ideal.issuedBy, hk] using hj
          · exact hj.of_same (by simp [Ideal.setCall, hjk]) rfl
      · cases h
  | move k =>
      have hk' := hok k
      simp only [idealStep] at h
      cases hk : a.calls k with
      | idle => simp [hk] at h
      | submitted b write => simp [hk] at h
      | flushed => simp [hk] at h
      | flushIo chosen => simp [CallOk, hk] at hk'
      | submitting b write p =>
          simp only [hk] at h
          cases h
          by_cases hjk : j = k
          · subst hjk
            simpa [CallOk, Ideal.setCall, Ideal.issuedBy, hk] using hj
          · exact hj.of_same (by simp [Ideal.setCall, hjk]) rfl
      | flushing =>
          simp only [hk] at h
          cases h
          by_cases hjk : j = k
          · subst hjk
            simpa [CallOk, Ideal.setCall, Ideal.issuedBy, hk] using hj
          · exact hj.of_same (by simp [Ideal.setCall, hjk]) rfl
      | submitIo b write chosen =>
          simp only [hk] at h
          cases h
          simp only [CallOk, hk] at hk'
          by_cases hjk : j = k
          · subst hjk
            obtain ⟨rfl, hnil⟩ := hk'
            simp only [CallOk, Ideal.setCall, Function.update_self]
            simpa [Ideal.issuedBy, List.filter_append] using hnil
          · exact hj.of_same (by simp [Ideal.setCall, hjk]) (issuedBy_other a hjk _ rfl)

/-- The account of every call is right along a whole run. -/
theorem foldlM_callOk : ∀ (ls : List Label) {a a' : Ideal}, ls.foldlM idealStep a = some a' →
    (∀ k, CallOk a k) → ∀ k, CallOk a' k
  | [], a, a', h, hok => by
      cases h
      exact hok
  | l :: ls, a, a', h, hok => by
      rw [List.foldlM_cons] at h
      obtain ⟨a₁, h₁, h₂⟩ := Option.bind_eq_some_iff.mp h
      exact foldlM_callOk ls h₂ (idealStep_callOk h₁ hok)

/-! ### Runs -/

/-- A choice without the policy it sets. -/
def Label.erasePolicy : Label → Label
  | .setPolicy _ => .setPolicy 0
  | l => l

theorem idealStep_erasePolicy (a : Ideal) (l : Label) :
    idealStep a l.erasePolicy = idealStep a l := by
  cases l <;> rfl

/-- Histories that differ in their policies only are one history of the system without a queue. -/
theorem foldlM_erasePolicy : ∀ (ls : List Label) (a : Ideal),
    (ls.map Label.erasePolicy).foldlM idealStep a = ls.foldlM idealStep a
  | [], _ => rfl
  | l :: ls, a => by
      rw [List.map_cons, List.foldlM_cons, List.foldlM_cons, idealStep_erasePolicy]
      cases idealStep a l with
      | none => rfl
      | some a₁ => exact foldlM_erasePolicy ls a₁

/-- What a reached state owes to its submitters. -/
structure Served (c : Config) : Prop where
  /-- a call that has returned has issued its own request, once, and nothing else -/
  once : ∀ k b write, c.calls k = .submitted b write →
    (c.issued.filter fun e => e.call = k) = [⟨k, b, write⟩]
  /-- all I/O is that of a returned submitter for its own request -/
  own : ∀ e ∈ c.issued, c.calls e.call = .submitted e.buf e.write
  /-- no request is left in the queue -/
  empty : ∀ i, (c.sched.dq i).valid = false
  /-- `dq_size` counts the valid slots -/
  size : c.sched.dqSize = (Finset.univ.filter fun i => (c.sched.dq i).valid = true).card

theorem served_of_ideal {c : Config} (hok : ∀ k, CallOk c.ideal k) (he : Empty c.sched) :
    Served c := by
  refine ⟨fun k b write hk => ?_, fun e hmem => ?_, he.invalid, ?_⟩
  · have h := hok k
    simp only [CallOk, Config.ideal, hk] at h
    exact h
  · -- the I/O of a call is non-empty only once the call has returned
    have h := hok e.call
    have hin : e ∈ c.ideal.issuedBy e.call := List.mem_filter.mpr ⟨hmem, by simp⟩
    unfold CallOk at h
    split at h
    · next b write hk =>
        rw [h, List.mem_singleton] at hin
        rw [show c.calls e.call = .submitted b write from hk, hin]
    · rw [h.2] at hin
      cases hin
    · exact h.elim
    · rw [h] at hin
      cases hin
  · simp [he.invalid, he.size]

/-- **One step** does not find the queue full. -/
theorem step_not_full {l : Label} {c : Config} (he : Empty c.sched) (hseq : SeqOk l c) :
    step l c ≠ .error (.panic "disksched: queue full") := by
  intro h
  cases l with
  | setPolicy policy =>
      simp only [step, diskschedSetPolicy] at h
      split_ifs at h
      simp at h
  | callSubmit k b write p =>
      simp only [step] at h
      split at h <;> cases h
  | callFlush k =>
      simp only [step] at h
      split at h <;> cases h
  | move k =>
      simp only [step] at h
      cases hk : c.calls k with
      | submitting b write p =>
          have hns : ¬ SeqStuck c.sched := by simpa [SeqOk, hk] using hseq
          obtain ⟨s', hs', -⟩ := submitLocked_empty he hns b write p
          simp [hk, hs'] at h
      | flushing => simp [hk, flushLocked_empty he] at h
      | _ => simp [hk] at h

theorem run_not_full : ∀ (ls : List Label) {c : Config}, Empty c.sched → Meets step SeqOk ls c →
    run step ls c ≠ .error (.panic "disksched: queue full")
  | [], _, _, _ => fun h => by cases h
  | l :: ls, c, he, ⟨hl, hrest⟩ => by
      intro h
      cases h₁ : step l c with
      | error e =>
          simp only [run, h₁, error_bind, Except.error.injEq] at h
          exact step_not_full he hl (h₁.trans (congrArg _ h))
      | ok rc =>
          obtain ⟨r, c₁⟩ := rc
          have hrun := run_not_full ls (step_ideal he hl h₁).2 (hrest r c₁ h₁)
          cases h₂ : run step ls c₁ with
          | error e =>
              simp only [run, h₁, h₂, ok_bind, error_bind] at h
              exact hrun (h₂.trans h)
          | ok rc₂ => simp [run, h₁, h₂] at h

/-- **Every submitted request is served, once, before its submitter returns.**  In every run from
`disksched_init` in which no submitter enters its critical section under FCFS with `dq_seq` at
`0xFFFFFFFF`, the queue is never full, every state reached owes nothing to its submitters, and any
history that differs in the policies set only issues the same I/O. -/
theorem disksched_served (s₀ : Sched) (ls : List Label)
    (hseq : Meets step SeqOk ls (initConfig s₀)) :
    run step ls (initConfig s₀) ≠ .error (.panic "disksched: queue full") ∧
      ∀ rs c, run step ls (initConfig s₀) = .ok (rs, c) → Served c ∧
        ∀ ls' rs' c', ls'.map Label.erasePolicy = ls.map Label.erasePolicy →
          Meets step SeqOk ls' (initConfig s₀) → run step ls' (initConfig s₀) = .ok (rs', c') →
          c'.issued = c.issued := by
  have he₀ : Empty (initConfig s₀).sched := empty_init s₀
  refine ⟨run_not_full ls he₀ hseq, fun rs c h => ?_⟩
  obtain ⟨hi, he⟩ := run_ideal ls he₀ hseq h
  refine ⟨served_of_ideal (foldlM_callOk ls hi fun k => rfl) he, ?_⟩
  intro ls' rs' c' hsame hseq' h'
  obtain ⟨hi', -⟩ := run_ideal ls' he₀ hseq' h'
  have hideal : some c'.ideal = some c.ideal := by
    rw [← hi', ← hi, ← foldlM_erasePolicy ls', hsame, foldlM_erasePolicy]
  exact congrArg Ideal.issued (Option.some.inj hideal)

/-- The statics before `disksched_init`. -/
def zeroSched : Sched :=
  { dq := fun _ => ⟨⟨0, 0⟩, false, 0, 0, 0, false, 0⟩, dqSize := 0, dqSeq := 0, currentHead := 0,
    schedPolicy := .fcfs, totalLatency := 0, totalOps := 0 }

/-- Two submitters, the second of which performs its I/O before the first, with a policy change
between their critical sections. -/
def twoSubmitters : List Label :=
  [.callSubmit 0 ⟨0, 7⟩ true none, .callSubmit 1 ⟨1, 9⟩ false none, .move 0, .setPolicy 1,
    .move 1, .move 1, .move 0]

theorem disksched_served_two :
    ∃ rs c, run step twoSubmitters (initConfig zeroSched) = .ok (rs, c) ∧
      c.issued = [⟨1, ⟨1, 9⟩, false⟩, ⟨0, ⟨0, 7⟩, true⟩] ∧ Served c := by
  refine ⟨_, _, rfl, rfl, ((disksched_served zeroSched twoSubmitters ?_).2 _ _ rfl).1⟩
  -- each step is computed; the condition speaks of the two entries only
  refine ⟨trivial, fun _ _ h₁ => ?_⟩; cases h₁
  refine ⟨trivial, fun _ _ h₂ => ?_⟩; cases h₂
  refine ⟨fun h => ?_, fun _ _ h₃ => ?_⟩
  · exact absurd h.2 (by decide)
  cases h₃
  refine ⟨trivial, fun _ _ h₄ => ?_⟩; cases h₄
  refine ⟨fun h => ?_, fun _ _ h₅ => ?_⟩
  · exact absurd h.2 (by decide)
  cases h₅
  refine ⟨trivial, fun _ _ h₆ => ?_⟩; cases h₆
  exact ⟨trivial, fun _ _ _ => trivial⟩

/-! ### The sequence number comes round -/

/-- The labels of `n` submits of `b`, one after the other, by the calls `0` to `n - 1`. -/
def submitRounds (b : Buf) : Nat → List Label
  | 0 => []
  | n + 1 => submitRounds b n ++ [.callSubmit n b false none, .move n, .move n]

/-- The state after `n` such rounds under FCFS, as far as the next round reads it. -/
structure AfterRounds (n : Nat) (c : Config) : Prop where
  empty : Empty c.sched
  fcfs : c.sched.schedPolicy = .fcfs
  seq : c.sched.dqSeq = UInt32.ofNat n
  idle : ∀ k, n ≤ k → c.calls k = .idle

theorem run_submitRounds (s₀ : Sched) (b : Buf) : ∀ n, n < 2 ^ 32 → ∃ rs c,
    run step (submitRounds b n) (initConfig s₀) = .ok (rs, c) ∧ AfterRounds n c
  | 0, _ => ⟨[], initConfig s₀, rfl, empty_init s₀, rfl, rfl, fun _ _ => rfl⟩
  | n + 1, hn => by
      obtain ⟨rs, c, hrun, hc⟩ := run_submitRounds s₀ b n (by omega)
      -- below `2^32 - 1` the counter is not at its last value
      have hns : ¬ SeqStuck c.sched := by
        rintro ⟨-, h⟩
        rw [hc.seq, ← UInt32.toNat_inj, UInt32.toNat_ofNat'] at h
        have hmax : (0xFFFFFFFF : UInt32).toNat = 2 ^ 32 - 1 := rfl
        omega
      obtain ⟨s', hs', he', hpol, hseq⟩ := submitLocked_empty hc.empty hns b false none
      have h₁ : step (.callSubmit n b false none) c =
          .ok ((), setCall c n (.submitting b false none)) := by
        simp [step, hc.idle n le_rfl]
      have h₂ : step (.move n) (setCall c n (.submitting b false none)) =
          .ok ((), setCall { c with sched := s' } n (.submitIo b false (b, false))) := by
        simp [step, setCall, hs']
      have h₃ : step (.move n) (setCall { c with sched := s' } n (.submitIo b false (b, false))) =
          .ok ((), setCall { c with sched := s', issued := c.issued ++ [⟨n, b, false⟩] } n
            (.submitted b false)) := by
        simp [step, setCall]
      refine ⟨_, _, run_append hrun (run_cons h₁ (run_cons h₂ (run_cons h₃ rfl))), he',
        hpol.trans hc.fcfs, ?_, fun k hk => ?_⟩
      · show s'.dqSeq = _
        rw [hseq, hc.seq]
        simp
      · have hkn : k ≠ n := by omega
        simp [setCall, hkn, hc.idle k (by omega)]

/-- After `2^32 - 1` requests served under FCFS the next one is enqueued with the number
`0xFFFFFFFF`; its submitter returns, and the request is still in the queue. -/
theorem disksched_last_seq_not_served :
    ¬ ∀ (s₀ : Sched) (ls : List Label) (rs : List Unit) (c : Config),
      run step ls (initConfig s₀) = .ok (rs, c) → Served c := by
  intro hall
  let b : Buf := ⟨0, 0⟩
  obtain ⟨rs, c, hrun, hc⟩ := run_submitRounds zeroSched b (2 ^ 32 - 1) (by norm_num)
  have hstuck : SeqStuck c.sched := ⟨hc.fcfs, hc.seq.trans rfl⟩
  have h₁ : step (.callSubmit (2 ^ 32 - 1) b false none) c =
      .ok ((), setCall c (2 ^ 32 - 1) (.submitting b false none)) := by
    simp only [step, hc.idle _ le_rfl]
  have h₂ : step (.move (2 ^ 32 - 1)) (setCall c (2 ^ 32 - 1) (.submitting b false none)) =
      .ok ((), setCall { c with sched := enqueue c.sched 0 b false none } (2 ^ 32 - 1)
        (.submitted b false)) := by
    simp only [step, setCall, Function.update_self, submitLocked_stuck hc.empty hstuck,
      Function.update_idem]
  have hserved := hall _ _ _ _ (run_append hrun (run_cons h₁ (run_cons h₂ (run_nil _))))
  have h0 := hserved.empty 0
  simp [setCall, enqueue] at h0

end Xv6.DiskSched
