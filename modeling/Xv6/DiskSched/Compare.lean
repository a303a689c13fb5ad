import Xv6.Lib.Seek
import Xv6.DiskSched.Flush

/-!
# DiskSched — Compare

The total latency of SSTF against that of FCFS on the same queue and head.

SSTF is greedy: it may go a short way to one side first and pay for it later (`zigzag`).  What it
records is never more than twice what FCFS records, and no more than that when the requests lie on one
side of the head or there are two of them at most (`sstf_fcfs`).
-/

namespace Xv6.DiskSched
open Xv6.Lib

variable {s : Sched} {q : Fin MAX_DISK_QUEUE → DiskReq} {l l' : List (Fin MAX_DISK_QUEUE)} {head : Nat}

/-! ### The head on a line -/

/-- The block of a slot, as a point. -/
def blockPos (q : Fin MAX_DISK_QUEUE → DiskReq) (i : Fin MAX_DISK_QUEUE) : Int := (q i).blockno.toNat

theorem dist_cast (a b : Nat) : (Nat.dist a b : Int) = |(a : Int) - b| := by
  rcases le_total a b with hab | hba
  · rw [Nat.dist_eq_sub_of_le hab, Nat.cast_sub hab,
      abs_of_nonpos (sub_nonpos.mpr (Int.ofNat_le.mpr hab)), neg_sub]
  · rw [Nat.dist_eq_sub_of_le_right hba, Nat.cast_sub hba,
      abs_of_nonneg (sub_nonneg.mpr (Int.ofNat_le.mpr hba))]

/-- The latency is the way of the head and the rotations. -/
theorem latencyOf_eq_tour : ∀ (l : List (Fin MAX_DISK_QUEUE)) (head : Nat),
    (latencyOf q head l : Int) = tour (head : Int) (l.map (blockPos q)) +
      ROTATIONAL_CONST.toNat * l.length := by
  intro l
  induction l with
  | nil => exact fun _ => rfl
  | cons i l ih =>
      intro head
      rw [latencyOf, List.map_cons, tour, List.length_cons, Nat.cast_add, Nat.cast_add, ih, slotDist,
        dist_cast, blockPos]
      push_cast
      ring

theorem nearest_of_served : ∀ (l : List (Fin MAX_DISK_QUEUE)) (head : Nat),
    ServedInOrder .sstf q head l → Nearest (head : Int) (l.map (blockPos q)) := by
  intro l
  induction l with
  | nil => exact fun _ _ => trivial
  | cons i l ih =>
      rintro head ⟨hi, hl⟩
      refine ⟨fun y hy => ?_, ih _ hl⟩
      obtain ⟨j, hj, rfl⟩ := List.mem_map.mp hy
      have hle : slotDist q head i ≤ slotDist q head j := by
        rcases hi j hj with hlt | ⟨heq, -⟩
        · exact hlt.le
        · exact heq.le
      rw [slotDist, slotDist] at hle
      have hle := Int.ofNat_le.mpr hle
      rwa [dist_cast, dist_cast] at hle

/-! ### Two orders of the same points -/

section Orders

variable {c : Int} {ps ps' : List Int} (hperm : ps.Perm ps') (hnear : Nearest c ps)

include hperm hnear

theorem tour_le_twice : tour c ps ≤ 2 * tour c ps' := by
  obtain ⟨lo, hlo, hmin⟩ := (c :: ps).toFinset.exists_min_image id ⟨c, by simp⟩
  obtain ⟨hi, hhi, hmax⟩ := (c :: ps).toFinset.exists_max_image id ⟨c, by simp⟩
  have hin : ∀ x ∈ c :: ps, lo ≤ x ∧ x ≤ hi := fun x hx =>
    ⟨hmin x (List.mem_toFinset.mpr hx), hmax x (List.mem_toFinset.mpr hx)⟩
  have hmem : ∀ {x}, x ∈ (c :: ps).toFinset → x ∈ c :: ps' := fun hx =>
    (hperm.cons c).mem_iff.mp (List.mem_toFinset.mp hx)
  have hspan := le_tour ps' c (hmem hhi) (hmem hlo)
  have hgreedy := hnear.tour_le (hin c (List.mem_cons_self ..)) fun x hx =>
    hin x (List.mem_cons_of_mem c hx)
  have hle : hi - lo ≤ |hi - lo| := le_abs_self _
  omega

theorem tour_le_below (hle : ∀ x ∈ ps, x ≤ c) : tour c ps ≤ tour c ps' := by
  obtain ⟨lo, hlo, hmin⟩ := (c :: ps).toFinset.exists_min_image id ⟨c, by simp⟩
  have hlo' : lo ∈ c :: ps' := (hperm.cons c).mem_iff.mp (List.mem_toFinset.mp hlo)
  have hge : ∀ x ∈ c :: ps, lo ≤ x := fun x hx => hmin x (List.mem_toFinset.mpr hx)
  have hspan := le_tour ps' c (List.mem_cons_self ..) hlo'
  have hgreedy := hnear.one_sided ps c hle (hge c (List.mem_cons_self ..)) fun x hx =>
    hge x (List.mem_cons_of_mem c hx)
  have hle : c - lo ≤ |c - lo| := le_abs_self _
  omega

theorem tour_le_above (hge : ∀ x ∈ ps, c ≤ x) : tour c ps ≤ tour c ps' := by
  rw [← tour_neg ps, ← tour_neg ps']
  refine tour_le_below (hperm.map Neg.neg) (Nearest.neg ps c hnear) fun x hx => ?_
  obtain ⟨y, hy, rfl⟩ := List.mem_map.mp hx
  exact neg_le_neg (hge y hy)

theorem tour_le_two (hlen : ps.length ≤ 2) : tour c ps ≤ tour c ps' := by
  match ps, hlen with
  | [], _ => rw [List.nil_perm.mp hperm]
  | [x], _ => rw [List.singleton_perm.mp hperm]
  | [x, y], _ =>
      -- the other order starts with the same request, or with the one that is farther
      have hxy := hnear.1 y (List.mem_cons_self ..)
      have hlen' : ps'.length = 2 := hperm.length_eq.symm
      obtain ⟨u, v, rfl⟩ := List.length_eq_two.mp hlen'
      have hu : u ∈ [x, y] := hperm.mem_iff.mpr (List.mem_cons_self ..)
      rcases List.mem_pair.mp hu with rfl | rfl
      · have hv := List.singleton_perm.mp ((List.perm_cons u).mp hperm)
        cases hv
        exact le_refl _
      · have hv := List.singleton_perm.mp ((List.perm_cons u).mp ((List.Perm.swap x u []).trans hperm))
        cases hv
        simp only [tour, add_zero]
        rw [abs_sub_comm u x]
        exact Int.add_le_add_right hxy _

end Orders

/-! ### Totals -/

/-- What a call adds to `total_latency`. -/
def recorded (s s' : Sched) : Nat := (s'.totalLatency - s.totalLatency).toNat

theorem latencyOf_le : ∀ (l : List (Fin MAX_DISK_QUEUE)) (head : Nat), head < 2 ^ 32 →
    latencyOf q head l ≤ l.length * (2 ^ 32 + 5) := by
  intro l
  induction l with
  | nil => exact fun _ _ => Nat.zero_le _
  | cons i l ih =>
      intro head hhead
      have hrest := ih (q i).blockno.toNat (UInt32.toNat_lt _)
      have hb : (q i).blockno.toNat < 2 ^ 32 := UInt32.toNat_lt _
      have hrot : ROTATIONAL_CONST.toNat = 5 := rfl
      have hd : slotDist q head i ≤ 2 ^ 32 := by
        rw [slotDist, Nat.dist]
        omega
      rw [latencyOf, List.length_cons, Nat.add_mul, hrot]
      omega

/-- The statistics do not overflow within a call. -/
theorem Drained.recorded {s' : Sched} (h : Drained s l s') :
    recorded s s' = latencyOf s.dq s.currentHead.toNat l := by
  have hlen : l.length ≤ 64 := (h.nodup.length_le_card).trans (Fintype.card_fin _).le
  have hle := latencyOf_le (q := s.dq) l s.currentHead.toNat (UInt32.toNat_lt _)
  rw [DiskSched.recorded, h.latency, UInt64.add_comm, UInt64.add_sub_cancel, UInt64.toNat_ofNat']
  exact Nat.mod_eq_of_lt (by omega)

/-- The queue under a policy. -/
def Sched.under (s : Sched) (policy : Policy) : Sched := { s with schedPolicy := policy }

theorem QueueFits.under (h : QueueFits s) (policy : Policy) : QueueFits (s.under policy) :=
  ⟨h.seq_inj, h.seq_lt, h.blockno_lt, h.head_lt, h.size⟩

/-- No two pending requests lie on different sides of the head. -/
def OneSided (s : Sched) : Prop :=
  (∀ i, (s.dq i).valid = true → (s.dq i).blockno ≤ s.currentHead) ∨
    ∀ i, (s.dq i).valid = true → s.currentHead ≤ (s.dq i).blockno

/-- **SSTF against FCFS.**  On the same queue and head SSTF records at most twice what FCFS records,
and at most as much when the requests are on one side of the head or at most two are pending. -/
theorem sstf_fcfs (s : Sched) (h : QueueFits s) :
    ∃ issued issued' sf ss,
      (∀ fuel, MAX_DISK_QUEUE < fuel → diskschedFlush fuel (s.under .fcfs) = some (issued, sf) ∧
        diskschedFlush fuel (s.under .sstf) = some (issued', ss)) ∧
      recorded s ss ≤ 2 * recorded s sf ∧
      (OneSided s ∨ (pendingSlots s).card ≤ 2 → recorded s ss ≤ recorded s sf) := by
  obtain ⟨order, sf, hf⟩ := exists_drained _ (h.under .fcfs) rfl
  obtain ⟨order', ss, hs⟩ := exists_drained _ (h.under .sstf) rfl
  have hlen : ∀ {l : List (Fin MAX_DISK_QUEUE)}, l.Nodup → l.length ≤ MAX_DISK_QUEUE := fun hl =>
    hl.length_le_card.trans (Fintype.card_fin _).le
  have hperm : order'.Perm order := (List.perm_ext_iff_of_nodup hs.nodup hf.nodup).mpr fun i =>
    (hs.mem i).trans (hf.mem i).symm
  have hpos := hperm.map (blockPos s.dq)
  have hnear : Nearest (s.currentHead.toNat : Int) (order'.map (blockPos s.dq)) :=
    nearest_of_served order' _ hs.served
  have hvalid : ∀ x ∈ order'.map (blockPos s.dq), ∃ i, (s.dq i).valid = true ∧ blockPos s.dq i = x := by
    intro x hx
    obtain ⟨i, hi, rfl⟩ := List.mem_map.mp hx
    exact ⟨i, mem_pendingSlots.mp ((hs.mem i).mp hi), rfl⟩
  have hrf : recorded s sf = latencyOf s.dq s.currentHead.toNat order := hf.recorded
  have hrs : recorded s ss = latencyOf s.dq s.currentHead.toNat order' := hs.recorded
  have htf := latencyOf_eq_tour (q := s.dq) order s.currentHead.toNat
  have hts := latencyOf_eq_tour (q := s.dq) order' s.currentHead.toNat
  rw [hperm.length_eq] at hts
  have hrot : ROTATIONAL_CONST.toNat = 5 := rfl
  rw [hrot] at htf hts
  refine ⟨_, _, sf, ss, fun fuel hfuel => ⟨hf.returns fuel ((hlen hf.nodup).trans_lt hfuel),
    hs.returns fuel ((hlen hs.nodup).trans_lt hfuel)⟩, ?_, fun hgood => ?_⟩
  · have := tour_le_twice hpos hnear
    omega
  · have : tour (s.currentHead.toNat : Int) (order'.map (blockPos s.dq)) ≤
        tour (s.currentHead.toNat : Int) (order.map (blockPos s.dq)) := by
      rcases hgood with (hbelow | habove) | htwo
      · refine tour_le_below hpos hnear fun x hx => ?_
        obtain ⟨i, hi, rfl⟩ := hvalid x hx
        exact Int.ofNat_le.mpr (UInt32.le_iff_toNat_le.mp (hbelow i hi))
      · refine tour_le_above hpos hnear fun x hx => ?_
        obtain ⟨i, hi, rfl⟩ := hvalid x hx
        exact Int.ofNat_le.mpr (UInt32.le_iff_toNat_le.mp (habove i hi))
      · refine tour_le_two hpos hnear ?_
        rw [List.length_map, ← List.toFinset_card_of_nodup hs.nodup,
          show order'.toFinset = pendingSlots s from Finset.ext fun i => by
            rw [List.mem_toFinset, hs.mem]
            rfl]
        exact htwo
    omega

/-- The head is at block 100; the requests came for blocks 98, 101 and 106. -/
def zigzag : Sched where
  dq i :=
    let block : UInt32 := if i.val = 0 then 98 else if i.val = 1 then 101 else 106
    { buf := ⟨i, block⟩, write := false, blockno := block, priority := 0, pid := 1, valid := i.val < 3,
      seq := UInt32.ofNat i.val }
  dqSize := 3
  dqSeq := 3
  currentHead := 100
  schedPolicy := .fcfs
  totalLatency := 0
  totalOps := 0

theorem zigzag_ok : QueueOk zigzag := by
  constructor
  · intro i j _ _ heq
    have heq := congrArg UInt32.toNat heq
    simp only [zigzag, UInt32.toNat_ofNat'] at heq
    have hi : i.val < 64 := i.isLt
    have hj : j.val < 64 := j.isLt
    exact Fin.ext (by omega)
  · decide +kernel
  · decide +kernel
  · decide
  · decide +kernel

/-- FCFS goes down by 2 and then up by 8; SSTF goes up by 1, down by 3 and up by 8. -/
theorem sstf_worse : QueueOk zigzag ∧
    (diskschedFlush 65 (zigzag.under .fcfs)).map (fun r => recorded zigzag r.2) = some 25 ∧
    (diskschedFlush 65 (zigzag.under .sstf)).map (fun r => recorded zigzag r.2) = some 27 :=
  ⟨zigzag_ok, by decide +kernel, by decide +kernel⟩

theorem sstf_fcfs_zigzag : ∃ sf ss,
    diskschedFlush 65 (zigzag.under .fcfs) = some sf ∧ diskschedFlush 65 (zigzag.under .sstf) = some ss ∧
      recorded zigzag ss.2 ≤ 2 * recorded zigzag sf.2 := by
  obtain ⟨issued, issued', sf, ss, hret, hle, -⟩ := sstf_fcfs zigzag zigzag_ok.fits
  obtain ⟨hf, hs⟩ := hret 65 (by decide)
  exact ⟨_, _, hf, hs, hle⟩

end Xv6.DiskSched
