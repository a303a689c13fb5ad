import Xv6.DiskSched.Serve
import Xv6.Lib.Select
import Mathlib.Data.Nat.Dist
import Mathlib.Data.Fintype.Card
import Mathlib.Data.Prod.Lex
import Mathlib.Data.List.FinRange

/-!
# DiskSched — Flush

`disksched_flush` drains whatever the queue holds, each request once and in the order of the
policy.

* both selections are folds that keep the best request so far, so they return the first of the
  least (`Lib/Select`): by `seq` under FCFS, by distance and then priority under SSTF;
* one turn takes that request out, charges its distance and moves the head (`flushLocked_turn`);
* by induction on the number of pending requests the loop ends after one turn for each of them
  and one that finds the queue empty (`flush_order`).
-/

namespace Xv6.DiskSched
open Xv6.Lib

/-- `disksched_flush` with at most `fuel` turns of its loop: the requests it issued to the disk,
oldest first, and the scheduler when it returned; `none` when the turns did not suffice. -/
def diskschedFlush : Nat → Sched → Option (List (Buf × Bool) × Sched)
  | 0, _ => none
  | fuel + 1, s =>
    match flushLocked s with
    | (none, s) => some ([], s)
    | (some req, s) => (diskschedFlush fuel s).map fun r => (req :: r.1, r.2)

/-! ### The order of the policies -/

/-- The seek distance of the request in slot `i` from block `head`. -/
def slotDist (q : Fin MAX_DISK_QUEUE → DiskReq) (head : Nat) (i : Fin MAX_DISK_QUEUE) : Nat :=
  Nat.dist (q i).blockno.toNat head

/-- Slot `i` is nearer to the head than slot `j`; ties go to the smaller priority, then to the
smaller slot. -/
def Nearer (q : Fin MAX_DISK_QUEUE → DiskReq) (head : Nat) (i j : Fin MAX_DISK_QUEUE) : Prop :=
  slotDist q head i < slotDist q head j ∨
    (slotDist q head i = slotDist q head j ∧
      ((q i).priority < (q j).priority ∨ ((q i).priority = (q j).priority ∧ i < j)))

/-- What each policy asks of the next request `i` against a request `j` that has to wait. -/
def Precedes (policy : Policy) (q : Fin MAX_DISK_QUEUE → DiskReq) (head : Nat)
    (i j : Fin MAX_DISK_QUEUE) : Prop :=
  match policy with
  | .fcfs => (q i).seq < (q j).seq
  | .sstf => Nearer q head i j

/-- Slots served one after the other, each before all that still wait, with the head at the
block of the one served last. -/
def ServedInOrder (policy : Policy) (q : Fin MAX_DISK_QUEUE → DiskReq) :
    Nat → List (Fin MAX_DISK_QUEUE) → Prop
  | _, [] => True
  | head, i :: rest =>
    (∀ j ∈ rest, Precedes policy q head i j) ∧ ServedInOrder policy q (q i).blockno.toNat rest

/-- The latency of serving the slots in this order: seek distance and rotation for each. -/
def latencyOf (q : Fin MAX_DISK_QUEUE → DiskReq) : Nat → List (Fin MAX_DISK_QUEUE) → Nat
  | _, [] => 0
  | head, i :: rest =>
    slotDist q head i + ROTATIONAL_CONST.toNat + latencyOf q (q i).blockno.toNat rest

/-- The slots that hold a pending request. -/
def pendingSlots (s : Sched) : Finset (Fin MAX_DISK_QUEUE) :=
  Finset.univ.filter fun i => (s.dq i).valid = true

/-- A queue as the callers of the scheduler leave it. -/
structure QueueOk (s : Sched) : Prop where
  seq_inj : ∀ i j, (s.dq i).valid = true → (s.dq j).valid = true →
    (s.dq i).seq = (s.dq j).seq → i = j
  seq_lt : ∀ i, (s.dq i).valid = true → (s.dq i).seq < 0xFFFFFFFF
  blockno_lt : ∀ i, (s.dq i).valid = true → (s.dq i).blockno.toNat < 2 ^ 31
  head_lt : s.currentHead.toNat < 2 ^ 31
  size : s.dqSize = (pendingSlots s).card

/-- The same with the head anywhere on the disk that a latency can be counted from. -/
structure QueueFits (s : Sched) : Prop where
  seq_inj : ∀ i j, (s.dq i).valid = true → (s.dq j).valid = true →
    (s.dq i).seq = (s.dq j).seq → i = j
  seq_lt : ∀ i, (s.dq i).valid = true → (s.dq i).seq < 0xFFFFFFFF
  blockno_lt : ∀ i, (s.dq i).valid = true → (s.dq i).blockno.toNat < 2 ^ 31
  head_lt : s.currentHead.toNat < 2 ^ 32 - ROTATIONAL_CONST.toNat
  size : s.dqSize = (pendingSlots s).card

theorem QueueOk.fits {s : Sched} (h : QueueOk s) : QueueFits s :=
  ⟨h.seq_inj, h.seq_lt, h.blockno_lt, h.head_lt.trans (by decide), h.size⟩

theorem mem_pendingSlots {s : Sched} {i : Fin MAX_DISK_QUEUE} :
    i ∈ pendingSlots s ↔ (s.dq i).valid = true := by
  simp [pendingSlots]

/-! ### Selection -/

section Selection

variable {s : Sched} {i j : Fin MAX_DISK_QUEUE}

/-- The valid slots in the order of the scan. -/
def scanned (s : Sched) : List (Fin MAX_DISK_QUEUE) :=
  (List.finRange MAX_DISK_QUEUE).filter fun i => (s.dq i).valid

theorem mem_scanned : i ∈ scanned s ↔ (s.dq i).valid = true := by
  simp [scanned]

theorem scanned_pairwise (s : Sched) : (scanned s).Pairwise (· < ·) :=
  (List.pairwise_lt_finRange MAX_DISK_QUEUE).filter _

/-- The keys that the loops compare. -/
def seqKey (s : Sched) (i : Fin MAX_DISK_QUEUE) : Nat := (s.dq i).seq.toNat

def seekKey (s : Sched) (i : Fin MAX_DISK_QUEUE) : Nat ×ₗ Int :=
  toLex ((seekDist (s.dq i).blockno s.currentHead).toNat, (s.dq i).priority)

theorem pickFcfs_eq (s : Sched) :
    pickFcfs s = ((scanned s).foldl (keepLess (seqKey s)) (none, 2 ^ 32 - 1)).1 := by
  refine congrArg Prod.fst (foldl_through (Prod.map id UInt32.toNat) (fun acc i => ?_)
    (none, 0xFFFFFFFF) (List.finRange MAX_DISK_QUEUE))
  cases hv : (s.dq i).valid with
  | false => simp [fcfsTurn, hv]
  | true =>
      have hlt : (s.dq i).seq < acc.2 ↔ seqKey s i < acc.2.toNat := UInt32.lt_iff_toNat_lt
      by_cases h : (s.dq i).seq < acc.2
      · simp [fcfsTurn, hv, keepLess, h, hlt.mp h]
        rfl
      · simp [fcfsTurn, hv, keepLess, h, mt hlt.mpr h]

theorem pickSstf_eq (s : Sched) :
    pickSstf s = ((scanned s).foldl (keepLess (seekKey s))
      (none, toLex (2 ^ 32 - 1, 0x7FFFFFFF))).1 := by
  refine congrArg Prod.fst (foldl_through
    (Prod.map id fun k : UInt32 × Int => (toLex (k.1.toNat, k.2) : Nat ×ₗ Int))
    (fun acc i => ?_) (none, 0xFFFFFFFF, 0x7FFFFFFF) (List.finRange MAX_DISK_QUEUE))
  cases hv : (s.dq i).valid with
  | false => simp [sstfTurn, hv]
  | true =>
      have hlt : (seekDist (s.dq i).blockno s.currentHead < acc.2.1 ∨
          (seekDist (s.dq i).blockno s.currentHead = acc.2.1 ∧ (s.dq i).priority < acc.2.2)) ↔
          seekKey s i < toLex (acc.2.1.toNat, acc.2.2) := by
        rw [seekKey, Prod.Lex.toLex_lt_toLex, UInt32.lt_iff_toNat_lt, UInt32.toNat_inj]
      by_cases h : seekKey s i < toLex (acc.2.1.toNat, acc.2.2)
      · simp [sstfTurn, hv, keepLess, h, hlt.mpr h]
        rfl
      · simp [sstfTurn, hv, keepLess, h, mt hlt.mp h]

theorem seekDist_toNat (b h : UInt32) : (seekDist b h).toNat = Nat.dist b.toNat h.toNat := by
  rw [seekDist]
  split
  · next hlt =>
      have hlt := UInt32.lt_iff_toNat_lt.mp hlt
      rw [UInt32.toNat_sub_of_le _ _ (UInt32.le_iff_toNat_le.mpr hlt.le),
        Nat.dist_eq_sub_of_le_right hlt.le]
  · next hle =>
      have hle : b.toNat ≤ h.toNat := not_lt.mp fun hlt => hle (UInt32.lt_iff_toNat_lt.mpr hlt)
      rw [UInt32.toNat_sub_of_le _ _ (UInt32.le_iff_toNat_le.mpr hle),
        Nat.dist_eq_sub_of_le hle]

/-- No distance is the start value of `best_dist`. -/
theorem QueueFits.dist_lt (h : QueueFits s) (hi : (s.dq i).valid = true) :
    slotDist s.dq s.currentHead.toNat i < 2 ^ 32 - ROTATIONAL_CONST.toNat := by
  have hb := h.blockno_lt i hi
  have hh := h.head_lt
  have hrot : ROTATIONAL_CONST.toNat = 5 := rfl
  rw [slotDist, Nat.dist]
  omega

theorem pickFcfs_precedes (h : QueueFits s) (hne : scanned s ≠ []) :
    ∃ i, pickFcfs s = some i ∧ i ∈ scanned s ∧
      ∀ j ∈ scanned s, j ≠ i → Precedes .fcfs s.dq s.currentHead.toNat i j := by
  obtain ⟨i, hpick, hfirst⟩ := foldl_keepLess_some (none, 2 ^ 32 - 1) hne
    fun j hj => (UInt32.lt_iff_toNat_lt.mp (h.seq_lt j (mem_scanned.mp hj)) : seqKey s j < _)
  refine ⟨i, (pickFcfs_eq s).trans hpick, hfirst.mem, fun j hj hne => ?_⟩
  rcases hfirst.lt_or_eq (scanned_pairwise s) hj hne with hlt | ⟨heq, -⟩
  · exact UInt32.lt_iff_toNat_lt.mpr hlt
  · exact absurd (h.seq_inj j i (mem_scanned.mp hj) (mem_scanned.mp hfirst.mem)
      (UInt32.toNat_inj.mp heq.symm)) hne

theorem pickSstf_precedes (h : QueueFits s) (hne : scanned s ≠ []) :
    ∃ i, pickSstf s = some i ∧ i ∈ scanned s ∧
      ∀ j ∈ scanned s, j ≠ i → Precedes .sstf s.dq s.currentHead.toNat i j := by
  have hkey : ∀ k, seekKey s k = toLex (slotDist s.dq s.currentHead.toNat k, (s.dq k).priority) :=
    fun k => by rw [seekKey, seekDist_toNat, slotDist]
  obtain ⟨i, hpick, hfirst⟩ := foldl_keepLess_some (none, toLex (2 ^ 32 - 1, 0x7FFFFFFF)) hne
    fun j hj => (by
      rw [hkey, Prod.Lex.toLex_lt_toLex]
      exact Or.inl ((h.dist_lt (mem_scanned.mp hj)).trans (by decide)) : seekKey s j < _)
  refine ⟨i, (pickSstf_eq s).trans hpick, hfirst.mem, fun j hj hne => ?_⟩
  rcases hfirst.lt_or_eq (scanned_pairwise s) hj hne with hlt | ⟨heq, hij⟩
  · rw [hkey, hkey, Prod.Lex.toLex_lt_toLex] at hlt
    rcases hlt with hlt | ⟨heq, hlt⟩
    · exact Or.inl hlt
    · exact Or.inr ⟨heq, Or.inl hlt⟩
  · rw [hkey, hkey, toLex_inj, Prod.mk.injEq] at heq
    exact Or.inr ⟨heq.1, Or.inr ⟨heq.2, hij⟩⟩

/-- **Selection.**  A queue with a request yields the one that precedes all others. -/
theorem pick_precedes (h : QueueFits s) (hne : (pendingSlots s).Nonempty) :
    ∃ i ∈ pendingSlots s, pick s = some i ∧
      ∀ j ∈ pendingSlots s, j ≠ i → Precedes s.schedPolicy s.dq s.currentHead.toNat i j := by
  have hmem : ∀ {k}, k ∈ pendingSlots s ↔ k ∈ scanned s :=
    mem_pendingSlots.trans mem_scanned.symm
  obtain ⟨k, hk⟩ := hne
  have hne : scanned s ≠ [] := List.ne_nil_of_mem (hmem.mp hk)
  have hfound : ∃ i, pick s = some i ∧ i ∈ scanned s ∧
      ∀ j ∈ scanned s, j ≠ i → Precedes s.schedPolicy s.dq s.currentHead.toNat i j := by
    rw [pick]
    cases s.schedPolicy with
    | fcfs => exact pickFcfs_precedes h hne
    | sstf => exact pickSstf_precedes h hne
  obtain ⟨i, hpick, hi, hall⟩ := hfound
  exact ⟨i, hmem.mpr hi, hpick, fun j hj => hall j (hmem.mp hj)⟩

end Selection

/-! ### One turn -/

section Turn

variable {s : Sched} {i : Fin MAX_DISK_QUEUE}

/-- Two queues with the same requests, valid or not. -/
structure SameRequests (q q' : Fin MAX_DISK_QUEUE → DiskReq) : Prop where
  buf : ∀ k, (q' k).buf = (q k).buf
  write : ∀ k, (q' k).write = (q k).write
  blockno : ∀ k, (q' k).blockno = (q k).blockno
  priority : ∀ k, (q' k).priority = (q k).priority
  seq : ∀ k, (q' k).seq = (q k).seq

theorem extract_dq (s : Sched) (i k : Fin MAX_DISK_QUEUE) :
    (extract s i).2.dq k = if k = i then { s.dq i with valid := false } else s.dq k := by
  by_cases hk : k = i
  · subst hk
    exact (Function.update_self ..).trans (if_pos rfl).symm
  · exact (Function.update_of_ne hk ..).trans (if_neg hk).symm

theorem extract_sameRequests (s : Sched) (i : Fin MAX_DISK_QUEUE) :
    SameRequests s.dq (extract s i).2.dq := by
  have hsame : ∀ {β : Type} (f : DiskReq → β),
      f { s.dq i with valid := false } = f (s.dq i) →
        ∀ k, f ((extract s i).2.dq k) = f (s.dq k) := by
    intro β f hf k
    rw [extract_dq]
    split
    · next hk => rw [hf, hk]
    · rfl
  exact ⟨hsame _ rfl, hsame _ rfl, hsame _ rfl, hsame _ rfl, hsame _ rfl⟩

theorem extract_valid (s : Sched) (i k : Fin MAX_DISK_QUEUE) :
    ((extract s i).2.dq k).valid = true ↔ k ≠ i ∧ (s.dq k).valid = true := by
  rw [extract_dq]
  split
  · next hk => simp [hk]
  · next hk => simp [hk]

theorem pendingSlots_extract (s : Sched) (i : Fin MAX_DISK_QUEUE) :
    pendingSlots (extract s i).2 = (pendingSlots s).erase i := by
  ext k
  rw [mem_pendingSlots, Finset.mem_erase, mem_pendingSlots, extract_valid]

variable {q q' : Fin MAX_DISK_QUEUE → DiskReq} (h : SameRequests q q')

include h

theorem SameRequests.precedes (policy : Policy) (head : Nat) (i j : Fin MAX_DISK_QUEUE) :
    Precedes policy q' head i j ↔ Precedes policy q head i j := by
  cases policy with
  | fcfs => rw [Precedes, Precedes, h.seq, h.seq]
  | sstf => simp only [Precedes, Nearer, slotDist, h.blockno, h.priority]

theorem SameRequests.servedInOrder (policy : Policy) (l : List (Fin MAX_DISK_QUEUE)) (head : Nat) :
    ServedInOrder policy q' head l ↔ ServedInOrder policy q head l := by
  induction l generalizing head with
  | nil => rfl
  | cons i rest ih => simp only [ServedInOrder, h.precedes, h.blockno, ih]

theorem SameRequests.latencyOf (l : List (Fin MAX_DISK_QUEUE)) (head : Nat) :
    latencyOf q' head l = latencyOf q head l := by
  induction l generalizing head with
  | nil => rfl
  | cons i rest ih => simp only [DiskSched.latencyOf, slotDist, h.blockno, ih]

end Turn

/-- Serving a request leaves a queue of the same kind. -/
theorem QueueFits.extract {s : Sched} {i : Fin MAX_DISK_QUEUE} (h : QueueFits s)
    (hi : i ∈ pendingSlots s) : QueueOk (extract s i).2 := by
  have hsame := extract_sameRequests s i
  have hvalid : ∀ {k}, ((DiskSched.extract s i).2.dq k).valid = true → (s.dq k).valid = true :=
    fun hk => ((extract_valid s i _).mp hk).2
  constructor
  · intro j k hj hk heq
    rw [hsame.seq, hsame.seq] at heq
    exact h.seq_inj j k (hvalid hj) (hvalid hk) heq
  · intro j hj
    rw [hsame.seq]
    exact h.seq_lt j (hvalid hj)
  · intro j hj
    rw [hsame.blockno]
    exact h.blockno_lt j (hvalid hj)
  · exact h.blockno_lt i (mem_pendingSlots.mp hi)
  · rw [pendingSlots_extract, Finset.card_erase_of_mem hi]
    have hpos : 0 < (pendingSlots s).card := Finset.card_pos.mpr ⟨i, hi⟩
    change s.dqSize - 1 = _
    rw [h.size]
    omega

/-- The latency of one request, as the statistics count it. -/
theorem extract_totalLatency {s : Sched} {i : Fin MAX_DISK_QUEUE} (h : QueueFits s)
    (hi : i ∈ pendingSlots s) : (extract s i).2.totalLatency = s.totalLatency +
      UInt64.ofNat (slotDist s.dq s.currentHead.toNat i + ROTATIONAL_CONST.toNat) := by
  change s.totalLatency + (seekDist (s.dq i).blockno s.currentHead + ROTATIONAL_CONST).toUInt64 = _
  have hlt := h.dist_lt (mem_pendingSlots.mp hi)
  have hrot : ROTATIONAL_CONST.toNat = 5 := rfl
  congr 1
  rw [← UInt64.toNat_inj, UInt32.toNat_toUInt64, UInt32.toNat_add, seekDist_toNat,
    UInt64.toNat_ofNat', ← slotDist]
  omega

/-- **One turn** of a queue that holds a request takes the next one by the policy out. -/
theorem flushLocked_turn {s : Sched} (h : QueueFits s) (hne : (pendingSlots s).Nonempty) :
    ∃ i ∈ pendingSlots s,
      flushLocked s = (some ((s.dq i).buf, (s.dq i).write), (DiskSched.extract s i).2) ∧
      ∀ j ∈ pendingSlots s, j ≠ i → Precedes s.schedPolicy s.dq s.currentHead.toNat i j := by
  obtain ⟨i, hi, hpick, hall⟩ := pick_precedes h hne
  refine ⟨i, hi, ?_, hall⟩
  have hsize : s.dqSize ≠ 0 := by
    rw [h.size, Nat.cast_ne_zero]
    exact (Finset.card_pos.mpr hne).ne'
  rw [flushLocked, if_neg hsize, hpick]
  rfl

theorem QueueFits.none_pending {s : Sched} (h : QueueFits s) (hnone : pendingSlots s = ∅) :
    Empty s := by
  refine ⟨fun i => ?_, by rw [h.size, hnone, Finset.card_empty, Nat.cast_zero]⟩
  rw [← Bool.not_eq_true, ← mem_pendingSlots, hnone]
  exact Finset.notMem_empty i

/-! ### The whole loop -/

/-- A complete call: it served the slots of `order` and left `s'`. -/
structure Drained (s : Sched) (order : List (Fin MAX_DISK_QUEUE)) (s' : Sched) : Prop where
  nodup : order.Nodup
  mem : ∀ i, i ∈ order ↔ i ∈ pendingSlots s
  served : ServedInOrder s.schedPolicy s.dq s.currentHead.toNat order
  returns : ∀ fuel, order.length < fuel →
    diskschedFlush fuel s = some (order.map fun i => ((s.dq i).buf, (s.dq i).write), s')
  empty : Empty s'
  ops : s'.totalOps = s.totalOps + UInt64.ofNat order.length
  latency : s'.totalLatency = s.totalLatency +
    UInt64.ofNat (latencyOf s.dq s.currentHead.toNat order)

/-- A turn, followed by the complete call from there. -/
theorem Drained.cons {s s' : Sched} {i : Fin MAX_DISK_QUEUE} {order : List (Fin MAX_DISK_QUEUE)}
    (h : QueueFits s) (hi : i ∈ pendingSlots s)
    (hturn : flushLocked s = (some ((s.dq i).buf, (s.dq i).write), (extract s i).2))
    (hall : ∀ j ∈ pendingSlots s, j ≠ i → Precedes s.schedPolicy s.dq s.currentHead.toNat i j)
    (hrest : Drained (extract s i).2 order s') : Drained s (i :: order) s' := by
  have hsame := extract_sameRequests s i
  have hmem : ∀ j, j ∈ order ↔ j ≠ i ∧ j ∈ pendingSlots s := fun j => by
    rw [hrest.mem, pendingSlots_extract, Finset.mem_erase]
  constructor
  · exact List.nodup_cons.mpr ⟨fun hin => ((hmem i).mp hin).1 rfl, hrest.nodup⟩
  · intro j
    rw [List.mem_cons, hmem]
    by_cases hj : j = i
    · simp [hj, hi]
    · simp [hj]
  · refine ⟨fun j hj => hall j ((hmem j).mp hj).2 ((hmem j).mp hj).1, ?_⟩
    exact (hsame.servedInOrder ..).mp hrest.served
  · intro fuel hfuel
    obtain ⟨n, rfl⟩ := Nat.exists_eq_add_one_of_ne_zero (Nat.ne_of_gt (Nat.zero_lt_of_lt hfuel))
    rw [diskschedFlush, hturn]
    simp only [hrest.returns n (Nat.succ_lt_succ_iff.mp hfuel), Option.map_some, List.map_cons,
      hsame.buf, hsame.write]
  · exact hrest.empty
  · rw [hrest.ops, List.length_cons]
    change s.totalOps + 1 + _ = _
    rw [Nat.add_comm, UInt64.ofNat_add, ← UInt64.add_assoc]
    rfl
  · rw [hrest.latency, extract_totalLatency h hi, hsame.latencyOf, UInt64.add_assoc,
      ← UInt64.ofNat_add]
    rfl

theorem drained_nil {s : Sched} (h : QueueFits s) (hnone : pendingSlots s = ∅) : Drained s [] s := by
  have hempty := h.none_pending hnone
  constructor
  · exact List.nodup_nil
  · simp [hnone]
  · trivial
  · intro fuel hfuel
    obtain ⟨n, rfl⟩ := Nat.exists_eq_add_one_of_ne_zero (Nat.ne_of_gt hfuel)
    rw [diskschedFlush, flushLocked_empty hempty]
    rfl
  · exact hempty
  · exact (UInt64.add_zero _).symm
  · exact (UInt64.add_zero _).symm

/-- Any queue is drained, by induction on the number of pending requests. -/
theorem exists_drained (n : Nat) {s : Sched} (h : QueueFits s) (hn : (pendingSlots s).card = n) :
    ∃ order s', Drained s order s' := by
  induction n generalizing s with
  | zero => exact ⟨[], s, drained_nil h (Finset.card_eq_zero.mp hn)⟩
  | succ n ih =>
      have hne : (pendingSlots s).Nonempty := Finset.card_pos.mp (by omega)
      obtain ⟨i, hi, hturn, hall⟩ := flushLocked_turn h hne
      have hcard : (pendingSlots (extract s i).2).card = n := by
        rw [pendingSlots_extract, Finset.card_erase_of_mem hi, hn]
        rfl
      obtain ⟨order, s', hrest⟩ := ih (h.extract hi).fits hcard
      exact ⟨i :: order, s', hrest.cons h hi hturn hall⟩

/-- Under FCFS the head does not matter, and the order is the one of the sequence numbers. -/
theorem servedInOrder_fcfs {q : Fin MAX_DISK_QUEUE → DiskReq} {l : List (Fin MAX_DISK_QUEUE)}
    {head : Nat} (h : ServedInOrder .fcfs q head l) :
    l.Pairwise fun i j => (q i).seq < (q j).seq := by
  induction l generalizing head with
  | nil => exact List.Pairwise.nil
  | cons i rest ih => exact List.pairwise_cons.mpr ⟨h.1, ih h.2⟩

/-- **`disksched_flush` drains the queue in policy order.**  It returns after one turn more than
there are pending requests, having issued each of them once: under FCFS by increasing `seq`, under
SSTF each time the nearest to the head as the request before left it.  The queue is then empty
and the statistics have grown by the requests served. -/
theorem flush_order {s : Sched} (h : QueueOk s) :
    ∃ order s',
      (∀ fuel, order.length < fuel →
        diskschedFlush fuel s = some (order.map fun i => ((s.dq i).buf, (s.dq i).write), s')) ∧
      order.Nodup ∧ (∀ i, i ∈ order ↔ (s.dq i).valid = true) ∧
      (s.schedPolicy = .fcfs → order.Pairwise fun i j => (s.dq i).seq < (s.dq j).seq) ∧
      (s.schedPolicy = .sstf → ServedInOrder .sstf s.dq s.currentHead.toNat order) ∧
      (∀ i, (s'.dq i).valid = false) ∧ s'.dqSize = 0 ∧
      s'.totalOps = s.totalOps + UInt64.ofNat order.length ∧
      s'.totalLatency = s.totalLatency +
        UInt64.ofNat (latencyOf s.dq s.currentHead.toNat order) := by
  obtain ⟨order, s', hd⟩ := exists_drained _ h.fits rfl
  refine ⟨order, s', hd.returns, hd.nodup, fun i => (hd.mem i).trans mem_pendingSlots, ?_, ?_,
    hd.empty.invalid, hd.empty.size, hd.ops, hd.latency⟩
  · intro hpol
    exact servedInOrder_fcfs (hpol ▸ hd.served)
  · intro hpol
    exact hpol ▸ hd.served

/-- Three requests under SSTF: the head is at block 20, slots 1 and 2 are equally far from it, and
slot 2 has the smaller priority. -/
def threeRequests : Sched where
  dq i :=
    { buf := ⟨i, if i.val = 0 then 90 else if i.val = 1 then 10 else 30⟩, write := false,
      blockno := if i.val = 0 then 90 else if i.val = 1 then 10 else 30,
      priority := if i.val = 1 then 2 else 0, pid := 1, valid := i.val < 3,
      seq := UInt32.ofNat i.val }
  dqSize := 3
  dqSeq := 3
  currentHead := 20
  schedPolicy := .sstf
  totalLatency := 0
  totalOps := 0

example : (diskschedFlush 4 threeRequests).map (fun r => (r.1.map (·.1.id), r.2.totalLatency)) =
    some ([2, 1, 0], 125) := by decide +kernel

theorem threeRequests_ok : QueueOk threeRequests := by
  constructor
  · intro i j _ _ heq
    have heq := congrArg UInt32.toNat heq
    simp only [threeRequests, UInt32.toNat_ofNat'] at heq
    have hi : i.val < 64 := i.isLt
    have hj : j.val < 64 := j.isLt
    exact Fin.ext (by omega)
  · decide +kernel
  · decide +kernel
  · decide
  · decide +kernel

theorem flush_order_three :
    QueueOk threeRequests ∧ ∃ order issued s', order.length = 3 ∧
      ServedInOrder .sstf threeRequests.dq 20 order ∧
      diskschedFlush 4 threeRequests = some (issued, s') ∧ s'.dqSize = 0 ∧ s'.totalOps = 3 := by
  obtain ⟨order, s', hret, hnodup, hmem, -, hsstf, -, hsize, hops, -⟩ := flush_order threeRequests_ok
  have hlen : order.length = 3 := by
    rw [← List.toFinset_card_of_nodup hnodup, show order.toFinset = pendingSlots threeRequests from
      Finset.ext fun i => by rw [List.mem_toFinset, hmem, mem_pendingSlots]]
    decide +kernel
  refine ⟨threeRequests_ok, order, _, s', hlen, hsstf rfl, hret 4 (by omega), hsize, ?_⟩
  rw [hops, hlen]
  rfl

end Xv6.DiskSched
