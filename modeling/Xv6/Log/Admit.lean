import Xv6.Log.Defs

/-!
# Log — Admit

`begin_op`, `log_write` and `end_op`, by any number of processes, in the critical sections of
`log.lock`.

A process is in an operation from the moment `begin_op` lets it in to its `end_op`; `Phase` also
keeps the blocks that the operation has logged.  The process whose `end_op` leaves no operation
runs `commit`, without the lock.

* `OpOk`: the processes perform operations of at most `MAXOPBLOCKS` distinct blocks.
* `Admitted`: the invariant.  The header has room for what every operation may still log.
* `Relogs`: an operation logs a block for the second time while the header is full.
* `log_admission`: the header never overflows, and a run panics exactly when a step relogs.
-/

namespace Xv6.Log
open Xv6.Lib

/-! ### The critical sections -/

inductive Phase where
  | idle
  /-- asleep in `begin_op` -/
  | waiting
  /-- between `begin_op` and `end_op`, with the blocks logged so far -/
  | active (bs : List BlockNo)
  /-- about to run `commit` -/
  | committing
  /-- about to clear `log.committing` -/
  | committed
  deriving DecidableEq

/-- The blocks that an operation has logged. -/
def Phase.blocks : Phase → Option (List BlockNo)
  | .active bs => some bs
  | _ => none

/-- `struct log`, with the place of every process. -/
structure LogState where
  outstanding : Int
  committing : Bool
  lh : List BlockNo
  phase : Nat → Phase

def freshLog : LogState := { outstanding := 0, committing := false, lh := [], phase := fun _ => .idle }

def LogState.setPhase (s : LogState) (t : Nat) (ph : Phase) : LogState :=
  { s with phase := Function.update s.phase t ph }

/-- One turn of the loop of `begin_op`. -/
def beginOp (s : LogState) (t : Nat) : LogState :=
  if s.committing then s.setPhase t .waiting
  else if (s.lh.length : Int) + (s.outstanding + 1) * MAXOPBLOCKS > LOGBLOCKS then
    s.setPhase t .waiting
  else { s with outstanding := s.outstanding + 1 }.setPhase t (.active [])

/-- The header after `log_write(b)`: the block is absorbed or appended. -/
def recordBlock (lh : List BlockNo) (b : BlockNo) : List BlockNo :=
  if lh.idxOf b = lh.length then lh ++ [b] else lh.set (lh.idxOf b) b

def logWrite (s : LogState) (b : BlockNo) : Except String LogState :=
  if s.lh.length ≥ LOGBLOCKS then .error "too big a transaction"
  else if s.outstanding < 1 then .error "log_write outside of trans"
  else .ok { s with lh := recordBlock s.lh b }

/-- The first critical section of `end_op`. -/
def endOp (s : LogState) (t : Nat) : Except String LogState :=
  let s := { s with outstanding := s.outstanding - 1 }
  if s.committing then .error "log.committing"
  else if s.outstanding = 0 then .ok ({ s with committing := true }.setPhase t .committing)
  else .ok (s.setPhase t .idle)

inductive LogAct where
  | begin (t : Nat)
  | write (t : Nat) (b : BlockNo)
  | finish (t : Nat)
  /-- `commit()` -/
  | commit (t : Nat)
  /-- the second critical section of `end_op` -/
  | done (t : Nat)
  deriving DecidableEq

/-- The blocks of an operation that has also logged `b`. -/
def insertBlock (b : BlockNo) (bs : List BlockNo) : List BlockNo := if b ∈ bs then bs else b :: bs

def logStep : LogAct → LogState → Except String (Unit × LogState)
  | .begin t, s => .ok ((), beginOp s t)
  | .write t b, s =>
    match (s.phase t).blocks with
    | none => .error "no operation"
    | some bs => do
      let s ← logWrite s b
      return ((), s.setPhase t (.active (insertBlock b bs)))
  | .finish t, s => do
    let s ← endOp s t
    return ((), s)
  | .commit t, s => .ok ((), { s with lh := [] }.setPhase t .committed)
  | .done t, s => .ok ((), { s with committing := false }.setPhase t .idle)

/-! ### What the processes do -/

/-- The process performs an operation of at most `MAXOPBLOCKS` distinct blocks. -/
def OpOk (a : LogAct) (s : LogState) : Prop :=
  match a with
  | .begin t => s.phase t = .idle ∨ s.phase t = .waiting
  | .write t b => ∃ bs ∈ (s.phase t).blocks, b ∈ bs ∨ bs.length < MAXOPBLOCKS
  | .finish t => (s.phase t).blocks.isSome = true
  | .commit t => s.phase t = .committing
  | .done t => s.phase t = .committed

instance decidableOpOk (a : LogAct) (s : LogState) : Decidable (OpOk a s) :=
  match a with
  | .begin t => inferInstanceAs (Decidable (s.phase t = .idle ∨ s.phase t = .waiting))
  | .write t b =>
    inferInstanceAs (Decidable (∃ bs ∈ (s.phase t).blocks, b ∈ bs ∨ bs.length < MAXOPBLOCKS))
  | .finish t => inferInstanceAs (Decidable ((s.phase t).blocks.isSome = true))
  | .commit t => inferInstanceAs (Decidable (s.phase t = .committing))
  | .done t => inferInstanceAs (Decidable (s.phase t = .committed))

/-- The operation logs a block again, and the header is full. -/
def Relogs (a : LogAct) (s : LogState) : Prop :=
  match a with
  | .write t b => (∃ bs ∈ (s.phase t).blocks, b ∈ bs) ∧ s.lh.length = LOGBLOCKS
  | _ => False

instance decidableRelogs (a : LogAct) (s : LogState) : Decidable (Relogs a s) :=
  match a with
  | .begin _ => isFalse id
  | .write t b =>
    inferInstanceAs (Decidable ((∃ bs ∈ (s.phase t).blocks, b ∈ bs) ∧ s.lh.length = LOGBLOCKS))
  | .finish _ => isFalse id
  | .commit _ => isFalse id
  | .done _ => isFalse id

/-! ### The invariant -/

variable {s s' : LogState} {t : Nat} {b : BlockNo} {bs : List BlockNo} {lh : List BlockNo}

/-- The number of blocks that process `t` may still log. -/
def unused (s : LogState) (t : Nat) : Nat := MAXOPBLOCKS - ((s.phase t).blocks.getD []).length

/-- The process is in `commit`, or has just left it. -/
def Phase.ending (ph : Phase) : Prop := ph = .committing ∨ ph = .committed

/-- **The invariant**, where `A` are the processes in an operation. -/
structure Admitted (A : Finset Nat) (s : LogState) : Prop where
  active : ∀ t, t ∈ A ↔ (s.phase t).blocks.isSome = true
  count : s.outstanding = A.card
  room : s.lh.length + ∑ t ∈ A, unused s t ≤ LOGBLOCKS
  nodup : s.lh.Nodup
  logged : ∀ t bs, (s.phase t).blocks = some bs → bs ⊆ s.lh
  /-- nobody is in an operation while the log commits -/
  quiet : s.committing = true → A = ∅
  ending : ∀ t, (s.phase t).ending → s.committing = true
  ending_inj : ∀ t t', (s.phase t).ending → (s.phase t').ending → t = t'

theorem not_ending_idle : ¬ Phase.ending .idle := by
  rintro (h | h)
  · cases h
  · cases h

theorem not_ending_waiting : ¬ Phase.ending .waiting := by
  rintro (h | h)
  · cases h
  · cases h

theorem Phase.not_ending_of_blocks {ph : Phase} (h : ph.blocks.isSome = true) : ¬ ph.ending := by
  rintro (rfl | rfl)
  · cases h
  · cases h

theorem admitted_fresh : Admitted ∅ freshLog where
  active t := ⟨fun h => absurd h (Finset.notMem_empty t), fun h => by cases h⟩
  count := rfl
  room := Nat.zero_le _
  nodup := List.nodup_nil
  logged t bs h := by cases h
  quiet h := by cases h
  ending t h := absurd h not_ending_idle
  ending_inj t t' h := absurd h not_ending_idle

theorem recordBlock_eq (lh : List BlockNo) (b : BlockNo) :
    recordBlock lh b = if b ∈ lh then lh else lh ++ [b] := by
  unfold recordBlock
  by_cases hb : b ∈ lh
  · have hlt := List.idxOf_lt_length_of_mem hb
    rw [if_neg hlt.ne, if_pos hb]
    refine List.ext_getElem (by simp) fun i h₁ h₂ => ?_
    rw [List.getElem_set]
    split
    · next hi =>
        subst hi
        exact (List.getElem_idxOf h₂).symm
    · rfl
  · rw [if_pos (List.idxOf_eq_length hb), if_neg hb]

theorem unused_setPhase_of_ne {ph : Phase} {t' : Nat} (h : t' ≠ t) :
    unused (s.setPhase t ph) t' = unused s t' := by
  simp only [unused, LogState.setPhase, Function.update_of_ne h]

theorem setPhase_self (s : LogState) (t : Nat) (ph : Phase) : (s.setPhase t ph).phase t = ph :=
  Function.update_self ..

theorem setPhase_of_ne {ph : Phase} {t' : Nat} (h : t' ≠ t) :
    (s.setPhase t ph).phase t' = s.phase t' := Function.update_of_ne h ..

/-! ### The steps keep the invariant -/

variable {A : Finset Nat}

/-- A process that is in no operation falls asleep, or is done. -/
theorem Admitted.rests (h : Admitted A s) (hb : (s.phase t).blocks = none) {ph : Phase}
    (hph : ph.blocks = none) (hend : ¬ ph.ending) : Admitted A (s.setPhase t ph) := by
  have hblocks : ∀ t', ((s.setPhase t ph).phase t').blocks = (s.phase t').blocks := by
    intro t'
    by_cases ht : t' = t
    · rw [ht, setPhase_self, hph, hb]
    · rw [setPhase_of_ne ht]
  have hending : ∀ t', ((s.setPhase t ph).phase t').ending → (s.phase t').ending := by
    intro t' he
    by_cases ht : t' = t
    · rw [ht, setPhase_self] at he
      exact absurd he hend
    · rwa [setPhase_of_ne ht] at he
  refine ⟨fun t' => ?_, h.count, ?_, h.nodup, fun t' bs hbs => ?_, h.quiet,
    fun t' he => h.ending t' (hending t' he),
    fun t₁ t₂ h₁ h₂ => h.ending_inj t₁ t₂ (hending t₁ h₁) (hending t₂ h₂)⟩
  · rw [hblocks]
    exact h.active t'
  · simp only [unused, hblocks]
    exact h.room
  · rw [hblocks] at hbs
    exact h.logged t' bs hbs

theorem sum_unused_le (A : Finset Nat) (s : LogState) :
    ∑ t ∈ A, unused s t ≤ A.card * MAXOPBLOCKS := by
  rw [← smul_eq_mul]
  exact Finset.sum_le_card_nsmul A _ _ fun t _ => Nat.sub_le ..

/-- **`begin_op`** lets an operation in only if the header has room for all of its blocks. -/
theorem Admitted.beginOp (h : Admitted A s) (ht : s.phase t = .idle ∨ s.phase t = .waiting) :
    ∃ A', Admitted A' (beginOp s t) := by
  have hnone : (s.phase t).blocks = none := by
    rcases ht with ht | ht
    · rw [ht]; rfl
    · rw [ht]; rfl
  have hnot : t ∉ A := fun hmem => by
    have := (h.active t).mp hmem
    rw [hnone] at this
    cases this
  unfold Log.beginOp
  split
  · exact ⟨A, h.rests hnone rfl not_ending_waiting⟩
  · next hcom =>
      split
      · exact ⟨A, h.rests hnone rfl not_ending_waiting⟩
      · next hroom =>
          have hsum := sum_unused_le A s
          have hsame : ∑ t' ∈ A, unused (({ s with outstanding := s.outstanding + 1 }).setPhase t
              (.active [])) t' = ∑ t' ∈ A, unused s t' :=
            Finset.sum_congr rfl fun t' ht' => unused_setPhase_of_ne fun he => hnot (he ▸ ht')
          refine ⟨insert t A, fun t' => ?_, ?_, ?_, h.nodup, fun t' bs hbs => ?_,
            fun hc => absurd hc hcom, fun t' he => ?_, fun t₁ t₂ h₁ h₂ => ?_⟩
          · by_cases ht' : t' = t
            · subst ht'
              rw [setPhase_self]
              exact ⟨fun _ => rfl, fun _ => Finset.mem_insert_self ..⟩
            · rw [setPhase_of_ne ht', Finset.mem_insert, or_iff_right ht']
              exact h.active t'
          · rw [Finset.card_insert_of_notMem hnot]
            show s.outstanding + 1 = _
            rw [h.count]
            push_cast
            rfl
          · rw [Finset.sum_insert hnot, hsame]
            have hself : unused (({ s with outstanding := s.outstanding + 1 }).setPhase t (.active [])) t
                = MAXOPBLOCKS := by
              rw [unused, setPhase_self]
              rfl
            have hcount := h.count
            show s.lh.length + _ ≤ _
            rw [hself]
            simp only [LOGBLOCKS, MAXOPBLOCKS] at hroom hsum ⊢
            omega
          · by_cases ht' : t' = t
            · subst ht'
              rw [setPhase_self] at hbs
              cases hbs
              exact List.nil_subset _
            · rw [setPhase_of_ne ht'] at hbs
              exact h.logged t' bs hbs
          · by_cases ht' : t' = t
            · subst ht'
              rw [setPhase_self] at he
              exact absurd he (Phase.not_ending_of_blocks rfl)
            · rw [setPhase_of_ne ht'] at he
              exact h.ending t' he
          · exact absurd (h.ending t₁ (by
              by_cases ht' : t₁ = t
              · subst ht'
                rw [setPhase_self] at h₁
                exact absurd h₁ (Phase.not_ending_of_blocks rfl)
              · rwa [setPhase_of_ne ht'] at h₁)) hcom

/-- One operation's part of the sum. -/
theorem sum_unused_eq {s₁ : LogState} (ht : t ∈ A) (h : ∀ t', t' ≠ t → unused s₁ t' = unused s t') :
    ∑ t' ∈ A, unused s₁ t' + unused s t = ∑ t' ∈ A, unused s t' + unused s₁ t := by
  have hrest : ∑ t' ∈ A.erase t, unused s₁ t' = ∑ t' ∈ A.erase t, unused s t' :=
    Finset.sum_congr rfl fun t' ht' => h t' (Finset.ne_of_mem_erase ht')
  have h₁ := Finset.add_sum_erase A (unused s₁) ht
  have h₂ := Finset.add_sum_erase A (unused s) ht
  omega

/-- **`log_write`** takes from the room that its operation has reserved. -/
theorem Admitted.logWrite (h : Admitted A s) (hbs : (s.phase t).blocks = some bs)
    (hok : b ∈ bs ∨ bs.length < MAXOPBLOCKS) (hs : logWrite s b = .ok s') :
    Admitted A (s'.setPhase t (.active (insertBlock b bs))) := by
  have hmem : t ∈ A := (h.active t).mpr (by rw [hbs]; rfl)
  have hsub := h.logged t bs hbs
  have hlh : s' = { s with lh := if b ∈ s.lh then s.lh else s.lh ++ [b] } := by
    unfold Log.logWrite at hs
    split at hs
    · cases hs
    · split at hs
      · cases hs
      · cases hs
        rw [recordBlock_eq]
  subst hlh
  have hgrows : s.lh ⊆ if b ∈ s.lh then s.lh else s.lh ++ [b] := by
    split
    · exact fun _ hx => hx
    · exact List.subset_append_left ..
  have hin : b ∈ if b ∈ s.lh then s.lh else s.lh ++ [b] := by
    split
    · next hb => exact hb
    · exact List.mem_append_right _ (List.mem_singleton.mpr rfl)
  refine ⟨fun t' => ?_, h.count, ?_, ?_, fun t' bs' hbs' => ?_, h.quiet, fun t' he => ?_,
    fun t₁ t₂ h₁ h₂ => ?_⟩
  · by_cases ht' : t' = t
    · subst ht'
      rw [setPhase_self]
      exact ⟨fun _ => rfl, fun _ => hmem⟩
    · rw [setPhase_of_ne ht']
      exact h.active t'
  · set s₁ := ({ s with lh := if b ∈ s.lh then s.lh else s.lh ++ [b] } : LogState).setPhase t
      (.active (insertBlock b bs)) with hs₁
    have hsum : ∑ t' ∈ A, unused s₁ t' + unused s t = ∑ t' ∈ A, unused s t' + unused s₁ t :=
      sum_unused_eq hmem fun t' ht' => unused_setPhase_of_ne ht'
    have hroom := h.room
    have hold : unused s t = MAXOPBLOCKS - bs.length := by
      rw [unused, hbs]
      rfl
    have hnew : unused s₁ t = MAXOPBLOCKS - (insertBlock b bs).length := by
      rw [unused, hs₁, setPhase_self]
      rfl
    by_cases hb : b ∈ bs
    · -- the block is absorbed
      have hlen : s₁.lh = s.lh := if_pos (hsub hb)
      have hsame : (insertBlock b bs).length = bs.length := by rw [insertBlock, if_pos hb]
      rw [hlen]
      omega
    · have hlt : bs.length < MAXOPBLOCKS := hok.resolve_left hb
      have hlen : s₁.lh.length ≤ s.lh.length + 1 := by
        show (if b ∈ s.lh then s.lh else s.lh ++ [b]).length ≤ _
        split
        · omega
        · rw [List.length_append, List.length_singleton]
      have hsucc : (insertBlock b bs).length = bs.length + 1 := by
        rw [insertBlock, if_neg hb, List.length_cons]
      omega
  · show (if b ∈ s.lh then s.lh else s.lh ++ [b]).Nodup
    split
    · exact h.nodup
    · next hb => exact List.nodup_append.mpr ⟨h.nodup, List.nodup_singleton b, fun x hx y hy he =>
        hb (List.mem_singleton.mp hy ▸ he ▸ hx)⟩
  · by_cases ht' : t' = t
    · subst ht'
      rw [setPhase_self] at hbs'
      cases hbs'
      intro x hx
      unfold insertBlock at hx
      split at hx
      · exact hgrows (hsub hx)
      · rcases List.mem_cons.mp hx with rfl | hx
        · exact hin
        · exact hgrows (hsub hx)
    · rw [setPhase_of_ne ht'] at hbs'
      exact fun x hx => hgrows (h.logged t' bs' hbs' hx)
  · by_cases ht' : t' = t
    · subst ht'
      rw [setPhase_self] at he
      exact absurd he (Phase.not_ending_of_blocks rfl)
    · rw [setPhase_of_ne ht'] at he
      exact h.ending t' he
  · have hcom : s.committing = true := by
      by_cases ht' : t₁ = t
      · subst ht'
        rw [setPhase_self] at h₁
        exact absurd h₁ (Phase.not_ending_of_blocks rfl)
      · rw [setPhase_of_ne ht'] at h₁
        exact h.ending t₁ h₁
    rw [h.quiet hcom] at hmem
    exact absurd hmem (Finset.notMem_empty t)

/-- Nobody is in `commit` while an operation is under way. -/
theorem Admitted.not_committing (h : Admitted A s) (hmem : t ∈ A) : s.committing = false := by
  cases hc : s.committing with
  | false => rfl
  | true =>
      rw [h.quiet hc] at hmem
      exact absurd hmem (Finset.notMem_empty t)

/-- A process leaves its operation. -/
theorem Admitted.leaves (h : Admitted A s) (hmem : t ∈ A) {s₁ : LogState} {ph : Phase}
    (hlh : s₁.lh = s.lh) (hphase : s₁.phase = s.phase) (hph : ph.blocks = none)
    (hout : s₁.outstanding = s.outstanding - 1)
    (hquiet : s₁.committing = true → A.erase t = ∅)
    (hend : ∀ t', ((s₁.setPhase t ph).phase t').ending → t' = t ∧ s₁.committing = true) :
    Admitted (A.erase t) (s₁.setPhase t ph) := by
  have hcard := Finset.card_erase_add_one hmem
  refine ⟨fun t' => ?_, ?_, ?_, ?_, fun t' bs hbs' => ?_, hquiet, fun t' he => (hend t' he).2,
    fun t₁ t₂ h₁ h₂ => (hend t₁ h₁).1.trans (hend t₂ h₂).1.symm⟩
  · by_cases ht' : t' = t
    · subst ht'
      rw [setPhase_self, hph]
      exact ⟨fun hm => absurd hm (Finset.notMem_erase t' A), fun hm => by cases hm⟩
    · rw [setPhase_of_ne ht', hphase, Finset.mem_erase, and_iff_right ht']
      exact h.active t'
  · show s₁.outstanding = _
    have hcount := h.count
    omega
  · have hsum : ∑ t' ∈ A.erase t, unused (s₁.setPhase t ph) t' = ∑ t' ∈ A.erase t, unused s t' :=
      Finset.sum_congr rfl fun t' ht' => by
        rw [unused_setPhase_of_ne (Finset.ne_of_mem_erase ht'), unused, unused, hphase]
    have hle := Finset.add_sum_erase A (unused s) hmem
    have hroom := h.room
    rw [hsum]
    show s₁.lh.length + _ ≤ _
    rw [hlh]
    omega
  · show s₁.lh.Nodup
    rw [hlh]
    exact h.nodup
  · show bs ⊆ s₁.lh
    rw [hlh]
    by_cases ht' : t' = t
    · subst ht'
      rw [setPhase_self, hph] at hbs'
      cases hbs'
    · rw [setPhase_of_ne ht', hphase] at hbs'
      exact h.logged t' bs hbs'

/-- **`end_op`** gives up the rest of the reservation; the last operation starts the commit. -/
theorem Admitted.endOp (h : Admitted A s) (hbs : (s.phase t).blocks.isSome = true)
    (hs : endOp s t = .ok s') : Admitted (A.erase t) s' := by
  have hmem : t ∈ A := (h.active t).mpr hbs
  have hnocom := h.not_committing hmem
  have hnoend : ∀ t', ¬ (s.phase t').ending := by
    intro t' he
    have := h.ending t' he
    rw [hnocom] at this
    cases this
  unfold Log.endOp at hs
  simp only [hnocom, Bool.false_eq_true, if_false] at hs
  split at hs
  · next hzero =>
      cases hs
      refine h.leaves hmem rfl rfl rfl rfl (fun _ => ?_) fun t' he => ⟨?_, rfl⟩
      · rw [← Finset.card_eq_zero]
        have hcard := Finset.card_erase_add_one hmem
        have hcount := h.count
        omega
      · by_contra hne
        rw [setPhase_of_ne hne] at he
        exact hnoend t' he
  · cases hs
    refine h.leaves hmem rfl rfl rfl rfl (fun hc => by cases hc) fun t' he => ?_
    by_cases ht' : t' = t
    · rw [ht', setPhase_self] at he
      exact absurd he not_ending_idle
    · rw [setPhase_of_ne ht'] at he
      exact absurd he (hnoend t')

/-- **`commit`** empties the header when nobody is in an operation. -/
theorem Admitted.commit (h : Admitted A s) (ht : s.phase t = .committing) :
    Admitted A ({ s with lh := [] }.setPhase t .committed) := by
  have hcom := h.ending t (Or.inl ht)
  have hA := h.quiet hcom
  subst hA
  have hnone : ∀ t', (s.phase t').blocks = none := by
    intro t'
    have := (h.active t').not.mp (Finset.notMem_empty t')
    simpa using this
  have hblocks : ∀ t', ((LogState.setPhase { s with lh := [] } t .committed).phase t').blocks = none := by
    intro t'
    by_cases ht' : t' = t
    · rw [ht', setPhase_self]
      rfl
    · rw [setPhase_of_ne ht']
      exact hnone t'
  have hend : ∀ t', ((LogState.setPhase { s with lh := [] } t .committed).phase t').ending →
      (s.phase t').ending := by
    intro t' he
    by_cases ht' : t' = t
    · subst ht'
      exact Or.inl ht
    · rwa [setPhase_of_ne ht'] at he
  refine ⟨fun t' => ?_, h.count, by simp [LogState.setPhase], List.nodup_nil, fun t' bs hbs => ?_,
    fun _ => rfl, fun _ _ => hcom, fun t₁ t₂ h₁ h₂ => h.ending_inj t₁ t₂ (hend t₁ h₁) (hend t₂ h₂)⟩
  · rw [hblocks]
    exact ⟨fun hm => absurd hm (Finset.notMem_empty t'), fun hm => by cases hm⟩
  · rw [hblocks] at hbs
    cases hbs

/-- The second critical section of `end_op`. -/
theorem Admitted.done (h : Admitted A s) (ht : s.phase t = .committed) :
    Admitted A ({ s with committing := false }.setPhase t .idle) := by
  have hnone : ∀ t', ¬ ((LogState.setPhase { s with committing := false } t .idle).phase t').ending := by
    intro t' he
    by_cases ht' : t' = t
    · subst ht'
      rw [setPhase_self] at he
      exact not_ending_idle he
    · rw [setPhase_of_ne ht'] at he
      exact ht' (h.ending_inj t' t he (Or.inr ht))
  have hrest := h.rests (t := t) (by rw [ht]; rfl) rfl not_ending_idle
  exact ⟨hrest.active, h.count, hrest.room, h.nodup, hrest.logged,
    fun hc => absurd hc Bool.false_ne_true, fun t' he => absurd he (hnone t'), fun t₁ _ he => absurd he (hnone t₁)⟩

/-! ### The runs -/

/-- **Every step of an operation keeps the invariant.** -/
theorem logStep_admitted {a : LogAct} (h : ∃ A, Admitted A s) (ha : OpOk a s)
    (hs : logStep a s = .ok ((), s')) : ∃ A, Admitted A s' := by
  obtain ⟨A, h⟩ := h
  cases a with
  | begin t =>
      cases hs
      exact h.beginOp ha
  | write t b =>
      obtain ⟨bs, hbs, hok⟩ := ha
      simp only [logStep, Option.mem_def.mp hbs] at hs
      obtain ⟨s₁, h₁, hs⟩ := bind_eq_ok.mp hs
      cases hs
      exact ⟨A, h.logWrite hbs hok h₁⟩
  | finish t =>
      obtain ⟨s₁, h₁, hs⟩ := bind_eq_ok.mp hs
      cases hs
      exact ⟨A.erase t, h.endOp ha h₁⟩
  | commit t =>
      cases hs
      exact ⟨A, h.commit ha⟩
  | done t =>
      cases hs
      exact ⟨A, h.done ha⟩

/-- **A step panics exactly when it relogs.** -/
theorem logStep_ok_iff {a : LogAct} (h : ∃ A, Admitted A s) (ha : OpOk a s) :
    (∃ r s', logStep a s = .ok (r, s')) ↔ ¬ Relogs a s := by
  obtain ⟨A, h⟩ := h
  cases a with
  | begin t => exact ⟨fun _ => id, fun _ => ⟨(), _, rfl⟩⟩
  | write t b =>
      obtain ⟨bs, hbs, hok⟩ := ha
      rw [Option.mem_def] at hbs
      have hmem : t ∈ A := (h.active t).mpr (by rw [hbs]; rfl)
      have hpos : 0 < A.card := Finset.card_pos.mpr ⟨t, hmem⟩
      have hout : ¬ s.outstanding < 1 := by
        have := h.count
        omega
      have hroom := h.room
      have hle := Finset.single_le_sum (fun t' _ => Nat.zero_le (unused s t')) hmem
      have hunused : unused s t = MAXOPBLOCKS - bs.length := by
        rw [unused, hbs]
        rfl
      have hstep : (∃ r s', logStep (.write t b) s = .ok (r, s')) ↔ s.lh.length < LOGBLOCKS := by
        simp only [logStep, hbs, Log.logWrite, if_neg hout]
        by_cases hfull : s.lh.length ≥ LOGBLOCKS
        · rw [if_pos hfull]
          refine ⟨?_, fun hlt => absurd hlt (by omega)⟩
          rintro ⟨r, s', he⟩
          cases he
        · rw [if_neg hfull]
          exact ⟨fun _ => by omega, fun _ => ⟨(), _, rfl⟩⟩
      rw [hstep]
      constructor
      · rintro hlt ⟨-, heq⟩
        omega
      · intro hno
        by_contra hlt
        have heq : s.lh.length = LOGBLOCKS := by omega
        by_cases hb : b ∈ bs
        · exact hno ⟨⟨bs, hbs, hb⟩, heq⟩
        · have := hok.resolve_left hb
          omega
  | finish t =>
      refine ⟨fun _ => id, fun _ => ?_⟩
      have hmem : t ∈ A := (h.active t).mpr ha
      have hnocom := h.not_committing hmem
      simp only [logStep, Log.endOp, hnocom, Bool.false_eq_true, if_false]
      by_cases hzero : s.outstanding - 1 = 0
      · rw [if_pos hzero]
        exact ⟨(), _, rfl⟩
      · rw [if_neg hzero]
        exact ⟨(), _, rfl⟩
  | commit t => exact ⟨fun _ => id, fun _ => ⟨(), _, rfl⟩⟩
  | done t => exact ⟨fun _ => id, fun _ => ⟨(), _, rfl⟩⟩

/-- **The log never overflows, and never commits a half-done operation.**  Let any processes perform
operations of at most `MAXOPBLOCKS` distinct blocks.  In every state that is reached, the header has
at most `LOGBLOCKS` blocks, none of them twice, and nobody is in an operation while somebody is in
`commit`.  The run reaches a panic if and only if an operation logs a block again while the header is
full. -/
theorem log_admission {acts : List LogAct} (hm : Meets logStep OpOk acts freshLog) :
    (∀ rs s, run logStep acts freshLog = .ok (rs, s) → s.lh.length ≤ LOGBLOCKS ∧ s.lh.Nodup ∧
      ∀ t, s.phase t = .committing → ∀ t', (s.phase t').blocks = none) ∧
    ((∃ rs s, run logStep acts freshLog = .ok (rs, s)) ↔
      Meets logStep (fun a s => ¬ Relogs a s) acts freshLog) := by
  refine ⟨fun rs s hrun => ?_, run_ok_iff (I := fun s => ∃ A, Admitted A s)
    (fun a s ha hI => logStep_ok_iff hI ha) (fun a s _ s' ha hI hs => logStep_admitted hI ha hs)
    acts freshLog hm ⟨∅, admitted_fresh⟩⟩
  obtain ⟨A, h⟩ := run_invariant (I := fun s => ∃ A, Admitted A s)
    (fun a s _ s' ha hI hs => logStep_admitted hI ha hs) acts freshLog rs s hm ⟨∅, admitted_fresh⟩ hrun
  refine ⟨(Nat.le_add_right ..).trans h.room, h.nodup, fun t ht t' => ?_⟩
  have hA := h.quiet (h.ending t (Or.inl ht))
  have := (h.active t').not.mp (by rw [hA]; exact Finset.notMem_empty t')
  simpa using this

/-- Three operations log ten blocks each. -/
def fillHeader : List LogAct :=
  [.begin 0, .begin 1, .begin 2] ++
    (List.range LOGBLOCKS).map fun i => .write (i / MAXOPBLOCKS) (BitVec.ofNat 32 i)

theorem log_admission_fillHeader : Meets logStep OpOk fillHeader freshLog ∧
    ∃ rs s, run logStep fillHeader freshLog = .ok (rs, s) ∧ s.lh.length ≤ LOGBLOCKS ∧ s.lh.Nodup := by
  have hm : Meets logStep OpOk fillHeader freshLog := by decide +kernel
  obtain ⟨hstate, hiff⟩ := log_admission hm
  obtain ⟨rs, s, hrun⟩ := hiff.mpr (by decide +kernel)
  exact ⟨hm, rs, s, hrun, (hstate rs s hrun).1, (hstate rs s hrun).2.1⟩

/-- **The panic is reached**: all three operations are within their bounds, and the first one logs
its first block again. -/
theorem full_header_relogged : Meets logStep OpOk (fillHeader ++ [.write 0 0]) freshLog ∧
    run logStep (fillHeader ++ [.write 0 0]) freshLog = .error "too big a transaction" := by
  exact ⟨by decide +kernel, eq_error_of_errorOf (by decide +kernel)⟩

end Xv6.Log
