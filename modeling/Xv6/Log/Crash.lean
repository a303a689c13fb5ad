import Xv6.Log.Defs

/-!
# Log — Crash

What a crash can leave on the disk, and what recovery makes of it.

The writes of `commit` are the logged blocks, the header, the home blocks and the header again.  A
disk is `Settled` when its log is empty and its home blocks are those of some reference; it is
`Pending` from the moment the header reaches it, when the log holds the new contents and every home
block is old or new.

* `commit_issued`, `recover_issued`: the writes, in order.
* `commit_cut`: what any number of the writes of `commit` leaves.
* `Recovers.settled`, `Recovers.pending`: recovery, with any crashes in it.
* `crash_atomic`: the transaction is on the disk as a whole or not at all.
-/

namespace Xv6.Log
open Xv6.Lib

variable {start b : BlockNo} {lh : List BlockNo} {m : Machine} {d d' old new : Disk} {i j tail : Nat}

/-! ### The places of the log -/

theorem slot_eq (start : BlockNo) (i : Nat) : slot start i = start + BitVec.ofNat 32 (i + 1) := by
  rw [slot, BitVec.ofNat_add, BitVec.add_assoc]
  rfl

theorem inLog_slot (hi : i < LOGBLOCKS) : InLog start (slot start i) := ⟨i + 1, hi, slot_eq start i⟩

theorem inLog_start : InLog start start := ⟨0, Nat.zero_le _, by simp⟩

theorem slot_ne_start (hi : i < LOGBLOCKS) : slot start i ≠ start := by
  rw [slot_eq]
  intro h
  have h0 : BitVec.ofNat 32 (i + 1) = BitVec.ofNat 32 0 := by simpa using h
  have := congrArg BitVec.toNat h0
  simp only [BitVec.toNat_ofNat, LOGBLOCKS, MAXOPBLOCKS] at this hi
  omega

theorem slot_inj (hi : i < LOGBLOCKS) (hj : j < LOGBLOCKS) (h : slot start i = slot start j) :
    i = j := by
  rw [slot_eq, slot_eq] at h
  have h' : BitVec.ofNat 32 (i + 1) = BitVec.ofNat 32 (j + 1) := by simpa using h
  have := congrArg BitVec.toNat h'
  simp only [BitVec.toNat_ofNat, LOGBLOCKS, MAXOPBLOCKS] at this hi hj
  omega

/-! ### The header block -/

theorem storeHead_zero (x : Block) : storeHead x [] (Fin.ofNat WORDS 0) = 0 := rfl

theorem headBlocks_of_zero {x : Block} (h : x (Fin.ofNat WORDS 0) = 0) : headBlocks x = [] := by
  rw [headBlocks, h]
  rfl

/-- **The header that is read is the one that was written.** -/
theorem headBlocks_storeHead (x : Block) (hlen : lh.length ≤ LOGBLOCKS) :
    headBlocks (storeHead x lh) = lh := by
  have hn : (storeHead x lh (Fin.ofNat WORDS 0)).toInt.toNat = lh.length := by
    have h0 : storeHead x lh (Fin.ofNat WORDS 0) = BitVec.ofNat 32 lh.length := rfl
    have hnat : (BitVec.ofNat 32 lh.length).toNat = lh.length := by
      rw [BitVec.toNat_ofNat, Nat.mod_eq_of_lt]
      simp only [LOGBLOCKS, MAXOPBLOCKS] at hlen
      omega
    rw [h0, BitVec.toInt_eq_toNat_of_lt, hnat]
    · exact Int.toNat_natCast _
    · rw [hnat]
      simp only [LOGBLOCKS, MAXOPBLOCKS] at hlen
      omega
  have hlength : (headBlocks (storeHead x lh)).length = lh.length := by
    rw [headBlocks, List.length_map, List.length_range, hn]
  refine List.ext_getElem hlength fun i h₁ h₂ => ?_
  have hval : (Fin.ofNat WORDS (i + 1)).val = i + 1 := by
    show (i + 1) % WORDS = i + 1
    simp only [LOGBLOCKS, MAXOPBLOCKS, WORDS] at *
    omega
  simp only [headBlocks, List.getElem_map, List.getElem_range, storeHead, hval]
  rw [if_neg (Nat.succ_ne_zero i), dif_pos (show i + 1 - 1 < lh.length by omega)]
  rfl

/-! ### The writes, in order -/

/-- The machine after the writes `ws`, each of a block that has just been stored. -/
def Machine.perform (m : Machine) (ws : List (BlockNo × Block)) : Machine :=
  ⟨applyWrites m.view ws, m.issued ++ ws⟩

theorem Machine.perform_nil (m : Machine) : m.perform [] = m := by
  rw [Machine.perform, List.append_nil]
  rfl

theorem Machine.perform_append (m : Machine) (ws ws' : List (BlockNo × Block)) :
    (m.perform ws).perform ws' = m.perform (ws ++ ws') := by
  simp only [Machine.perform, applyWrites_append, List.append_assoc]

theorem store_bwrite (m : Machine) (b : BlockNo) (x : Block) :
    (m.store b x).bwrite b = m.perform [(b, x)] := by
  simp [Machine.store, Machine.bwrite, Machine.perform]

theorem writeHead_perform (start : BlockNo) (lh : List BlockNo) (m : Machine) :
    writeHead start lh m = m.perform [(start, storeHead (m.view start) lh)] :=
  store_bwrite ..

/-- The writes of `write_log`, from `tail` on. -/
def slotWrites (start : BlockNo) (f : BlockNo → Block) : Nat → List BlockNo → List (BlockNo × Block)
  | _, [] => []
  | tail, b :: lh => (slot start tail, f b) :: slotWrites start f (tail + 1) lh

/-- The writes of `install_trans`. -/
def homeWrites (f : BlockNo → Block) (lh : List BlockNo) : List (BlockNo × Block) :=
  lh.map fun b => (b, f b)

theorem slotWrites_congr {f g : BlockNo → Block} : ∀ {lh : List BlockNo} {tail : Nat},
    (∀ b ∈ lh, f b = g b) → slotWrites start f tail lh = slotWrites start g tail lh
  | [], _, _ => rfl
  | b :: lh, tail, h => by
      rw [slotWrites, slotWrites, h b List.mem_cons_self,
        slotWrites_congr fun b' hb' => h b' (List.mem_cons_of_mem b hb')]

/-- A block that is written there is a slot. -/
theorem mem_slotWrites {f : BlockNo → Block} : ∀ {lh : List BlockNo} {tail : Nat}
    {w : BlockNo × Block}, w ∈ slotWrites start f tail lh →
      ∃ i, ∃ h : i < lh.length, w = (slot start (tail + i), f lh[i])
  | [], _, _, h => by cases h
  | b :: lh, tail, w, h => by
      rcases List.mem_cons.mp h with rfl | h
      · exact ⟨0, Nat.succ_pos _, rfl⟩
      · obtain ⟨i, hi, rfl⟩ := mem_slotWrites h
        refine ⟨i + 1, Nat.succ_lt_succ hi, ?_⟩
        rw [List.getElem_cons_succ, show tail + 1 + i = tail + (i + 1) by omega]

theorem slotWrites_mem (start : BlockNo) (f : BlockNo → Block) : ∀ (lh : List BlockNo)
    (tail i : Nat) (h : i < lh.length),
      (slot start (tail + i), f lh[i]) ∈ slotWrites start f tail lh
  | b :: lh, tail, 0, _ => List.mem_cons_self
  | b :: lh, tail, i + 1, h => by
      have := slotWrites_mem start f lh (tail + 1) i (Nat.lt_of_succ_lt_succ h)
      rw [show tail + 1 + i = tail + (i + 1) by omega] at this
      exact List.mem_cons_of_mem _ this

/-- **`write_log`** writes the cached blocks to the slots. -/
theorem writeLog_perform : ∀ {lh : List BlockNo} {tail : Nat} {m : Machine},
    (∀ b ∈ lh, ¬ InLog start b) → tail + lh.length ≤ LOGBLOCKS →
      writeLog start tail lh m = m.perform (slotWrites start m.view tail lh)
  | [], _, m, _, _ => m.perform_nil.symm
  | b :: lh, tail, m, hout, hlen => by
      rw [List.length_cons] at hlen
      have hview : ∀ b' ∈ lh, (m.perform [(slot start tail, m.view b)]).view b' = m.view b' := by
        intro b' hb'
        refine Function.update_of_ne (fun he => ?_) ..
        exact hout b' (List.mem_cons_of_mem b hb') (he ▸ inLog_slot (by omega))
      rw [writeLog, store_bwrite, writeLog_perform
        (fun b' hb' => hout b' (List.mem_cons_of_mem b hb')) (by omega), Machine.perform_append,
        slotWrites_congr hview]
      rfl

/-- **`install_trans`** writes the contents of the slots to the home blocks. -/
theorem installTrans_perform : ∀ {lh : List BlockNo} {tail : Nat} {m : Machine},
    (∀ b ∈ lh, ¬ InLog start b) → tail + lh.length ≤ LOGBLOCKS →
      (∀ i, ∀ h : i < lh.length, m.view (slot start (tail + i)) = new lh[i]) →
        installTrans start tail lh m = m.perform (homeWrites new lh)
  | [], _, m, _, _, _ => m.perform_nil.symm
  | b :: lh, tail, m, hout, hlen, hslot => by
      rw [List.length_cons] at hlen
      have hfirst : m.view (slot start tail) = new b := hslot 0 (Nat.succ_pos _)
      rw [installTrans, store_bwrite, hfirst, installTrans_perform
        (fun b' hb' => hout b' (List.mem_cons_of_mem b hb')) (by omega), Machine.perform_append]
      · rfl
      · intro i hi
        have hne : slot start (tail + 1 + i) ≠ b := fun he =>
          hout b List.mem_cons_self (he ▸ inLog_slot (by omega))
        have hnext := hslot (i + 1) (Nat.succ_lt_succ hi)
        rw [show tail + (i + 1) = tail + 1 + i by omega, List.getElem_cons_succ] at hnext
        rw [← hnext]
        exact Function.update_of_ne hne ..

/-! ### The states of the disk -/

/-- The log is empty, and the home blocks are those of `f`. -/
structure Settled (start : BlockNo) (f d : Disk) : Prop where
  empty : LogEmpty start d
  home : ∀ b, ¬ InLog start b → d b = f b

/-- The log holds the transaction `lh` with the contents `new`, and every home block is old or
new. -/
structure Pending (start : BlockNo) (lh : List BlockNo) (old new d : Disk) : Prop where
  head : headBlocks (d start) = lh
  slots : ∀ i, ∀ h : i < lh.length, d (slot start i) = new lh[i]
  home : ∀ b, ¬ InLog start b → d b = old b ∨ d b = new b

theorem Settled.head (h : Settled start new d) : headBlocks (d start) = [] :=
  headBlocks_of_zero h.empty

/-- The header is cleared. -/
theorem settled_cleared {x : Block} (h : ∀ b, ¬ InLog start b → d b = new b) :
    Settled start new (Function.update d start (storeHead x [])) := by
  refine ⟨?_, fun b hb => ?_⟩
  · rw [LogEmpty, Function.update_self]
    exact storeHead_zero x
  · rw [Function.update_of_ne, h b hb]
    rintro rfl
    exact hb inLog_start

section Transaction

variable (hout : ∀ b ∈ lh, ¬ InLog start b) (hlen : lh.length ≤ LOGBLOCKS)
  (hnew : ∀ b, b ∉ lh → ¬ InLog start b → new b = old b)

include hout in
/-- Some of the home blocks are written. -/
theorem Pending.install (h : Pending start lh old new d) (hlen : lh.length ≤ LOGBLOCKS) (k : Nat) :
    Pending start lh old new (applyWrites d ((homeWrites new lh).take k)) := by
  have hmem : ∀ w ∈ (homeWrites new lh).take k, ¬ InLog start w.1 ∧ w.2 = new w.1 := by
    intro w hw
    obtain ⟨b, hb, rfl⟩ := List.mem_map.mp (List.mem_of_mem_take hw)
    exact ⟨hout b hb, rfl⟩
  have hlog : ∀ b, InLog start b →
      applyWrites d ((homeWrites new lh).take k) b = d b := by
    intro b hb
    refine applyWrites_of_notMem fun w hw he => ?_
    exact (hmem w hw).1 (he ▸ hb)
  refine ⟨?_, fun i hi => ?_, fun b hb => ?_⟩
  · rw [hlog start inLog_start]
    exact h.head
  · rw [hlog _ (inLog_slot (by omega))]
    exact h.slots i hi
  · have hwr : ∀ w ∈ (homeWrites new lh).take k, w.1 = b → w.2 = new b := by
      rintro w hw rfl
      exact (hmem w hw).2
    rcases applyWrites_eq_or (d := d) hwr with hb' | ⟨hb', -⟩
    · exact Or.inr hb'
    · rw [hb']
      exact h.home b hb

include hnew in
/-- All of them are. -/
theorem Pending.installed (h : Pending start lh old new d) (hb : ¬ InLog start b) :
    applyWrites d (homeWrites new lh) b = new b := by
  by_cases hmem : b ∈ lh
  · refine applyWrites_of_forall (fun w hw he => ?_) ⟨(b, new b), List.mem_map.mpr ⟨b, hmem, rfl⟩, rfl⟩
    obtain ⟨b', -, rfl⟩ := List.mem_map.mp hw
    exact congrArg new he
  · rw [applyWrites_of_notMem]
    · rcases h.home b hb with h₁ | h₁
      · rw [h₁, hnew b hmem hb]
      · exact h₁
    · intro w hw he
      obtain ⟨b', hb', rfl⟩ := List.mem_map.mp hw
      exact hmem (he ▸ hb')

include hout hlen hnew in
/-- The home blocks are written, and then the header is cleared: any number of these writes. -/
theorem Pending.cut (h : Pending start lh old new d) (x : Block) (k : Nat) :
    Pending start lh old new
        (applyWrites d ((homeWrites new lh ++ [(start, storeHead x [])]).take k)) ∨
      Settled start new
        (applyWrites d ((homeWrites new lh ++ [(start, storeHead x [])]).take k)) := by
  rcases take_append_cases (homeWrites new lh) [(start, storeHead x [])] k with
    ⟨m, he, -⟩ | ⟨m, he, -⟩
  · rw [he]
    exact Or.inl (h.install hout hlen m)
  · rw [he, applyWrites_append]
    cases m with
    | zero =>
        have := h.install hout hlen (homeWrites new lh).length
        rw [List.take_length] at this
        exact Or.inl this
    | succ m =>
        rw [List.take_succ_cons, List.take_nil]
        exact Or.inr (settled_cleared fun b hb => h.installed hnew hb)

/-! ### Recovery -/

theorem recover_settled {f : Disk} (h : Settled start f d) :
    (recoverFromLog start d).issued = [(start, storeHead (d start) [])] := by
  rw [recoverFromLog, h.head, installTrans, writeHead_perform]
  rfl

include hout hlen in
/-- **The writes of recovery** when the log holds a transaction. -/
theorem recover_issued (h : Pending start lh old new d) : (recoverFromLog start d).issued =
    homeWrites new lh ++ [(start, storeHead (applyWrites d (homeWrites new lh) start) [])] := by
  have hslots : ∀ i, ∀ hi : i < lh.length, d (slot start (0 + i)) = new lh[i] := by
    intro i hi
    rw [Nat.zero_add]
    exact h.slots i hi
  rw [recoverFromLog, h.head, installTrans_perform hout (by omega) hslots, writeHead_perform,
    Machine.perform_append]
  rfl

/-- **Recovery from an empty log** changes no home block, however often it is stopped. -/
theorem Recovers.settled {f : Disk} (hr : Recovers start d d') (h : Settled start f d) :
    Settled start f d' := by
  have hcut : ∀ {d : Disk}, Settled start f d → ∀ k,
      Settled start f (applyWrites d ((recoverFromLog start d).issued.take k)) := by
    intro d h k
    rw [recover_settled h]
    cases k with
    | zero => exact h
    | succ k =>
        rw [List.take_succ_cons, List.take_nil]
        exact settled_cleared h.home
  induction hr with
  | completed d =>
      have := hcut h (recoverFromLog start d).issued.length
      rwa [List.take_length] at this
  | stopped d k _ ih => exact ih (hcut h k)

include hout hlen hnew in
/-- **Recovery from a logged transaction** ends with the new contents, however often it is
stopped. -/
theorem Recovers.pending (hr : Recovers start d d') (h : Pending start lh old new d) :
    Settled start new d' := by
  induction hr with
  | completed d =>
      rw [recover_issued hout hlen h, applyWrites_append]
      exact settled_cleared fun b hb => h.installed hnew hb
  | stopped d k again ih =>
      rw [recover_issued hout hlen h] at again ih
      rcases h.cut hout hlen hnew (applyWrites d (homeWrites new lh) start) k with h' | h'
      · exact ih h'
      · exact again.settled h'

/-! ### Commit -/

include hlen in
/-- After `write_log` the slots hold the cached blocks. -/
theorem slotWrites_slot (f : BlockNo → Block) (d : Disk) (hi : i < lh.length) :
    applyWrites d (slotWrites start f 0 lh) (slot start i) = f lh[i] := by
  have hmem := slotWrites_mem start f lh 0 i hi
  rw [Nat.zero_add] at hmem
  refine applyWrites_of_forall (fun w hw he => ?_) ⟨_, hmem, rfl⟩
  obtain ⟨j, hj, rfl⟩ := mem_slotWrites hw
  rw [Nat.zero_add] at he
  cases slot_inj (by omega) (by omega) he
  rfl

include hout hlen in
/-- **The writes of `commit`**: the slots, the header, the home blocks, the header. -/
theorem commit_issued (hne : lh ≠ []) (view : BlockNo → Block) : ∃ x y,
    (commit start lh ⟨view, []⟩).issued =
      slotWrites start view 0 lh ++ ((start, storeHead x lh) ::
        (homeWrites view lh ++ [(start, storeHead y [])])) := by
  set m₁ : Machine := Machine.perform ⟨view, []⟩ (slotWrites start view 0 lh) with hm₁
  set m₂ := m₁.perform [(start, storeHead (m₁.view start) lh)] with hm₂
  set m₃ := m₂.perform (homeWrites view lh) with hm₃
  have hlog : writeLog start 0 lh ⟨view, []⟩ = m₁ := writeLog_perform hout (by omega)
  have hhead : writeHead start lh m₁ = m₂ := writeHead_perform ..
  have hinst : installTrans start 0 lh m₂ = m₃ := by
    refine installTrans_perform hout (by omega) fun i hi => ?_
    rw [Nat.zero_add]
    have hne : slot start i ≠ start := slot_ne_start (by omega)
    exact (Function.update_of_ne hne ..).trans (slotWrites_slot hlen view view hi)
  refine ⟨m₁.view start, m₃.view start, ?_⟩
  rw [commit, if_pos (List.length_pos_of_ne_nil hne), hlog, hhead, hinst, writeHead_perform, hm₃,
    Machine.perform_append, hm₂, Machine.perform_append, hm₁, Machine.perform_append,
    Machine.perform, List.nil_append, List.singleton_append]

end Transaction

/-- The header is among the writes that reached the disk. -/
def HeadReached (start : BlockNo) (ws : List (BlockNo × Block)) : Prop := ∃ w ∈ ws, w.1 = start

/-- **What any number of the writes of `commit` leaves.** -/
theorem commit_cut {view : BlockNo → Block} (hout : ∀ b ∈ lh, ¬ InLog start b)
    (hlen : lh.length ≤ LOGBLOCKS) (hview : ∀ b, b ∉ lh → view b = d b) (hempty : LogEmpty start d)
    (k : Nat) :
    (Settled start d (applyWrites d ((commit start lh ⟨view, []⟩).issued.take k)) ∧
        ¬ HeadReached start ((commit start lh ⟨view, []⟩).issued.take k)) ∨
      Pending start lh d view (applyWrites d ((commit start lh ⟨view, []⟩).issued.take k)) ∨
      Settled start view (applyWrites d ((commit start lh ⟨view, []⟩).issued.take k)) := by
  have hd : Settled start d d := ⟨hempty, fun _ _ => rfl⟩
  by_cases hne : lh = []
  · subst hne
    refine Or.inl ⟨?_, ?_⟩
    · rw [show (commit start [] ⟨view, []⟩).issued = [] from rfl, List.take_nil]
      exact hd
    · rintro ⟨w, hw, -⟩
      rw [show (commit start [] ⟨view, []⟩).issued = [] from rfl, List.take_nil] at hw
      cases hw
  · obtain ⟨x, y, hissued⟩ := commit_issued hout hlen hne view
    have hslot : ∀ w ∈ slotWrites start view 0 lh, InLog start w.1 ∧ w.1 ≠ start := by
      intro w hw
      obtain ⟨i, hi, rfl⟩ := mem_slotWrites hw
      exact ⟨inLog_slot (by omega), slot_ne_start (by omega)⟩
    rw [hissued]
    rcases take_append_cases (slotWrites start view 0 lh) ((start, storeHead x lh) ::
      (homeWrites view lh ++ [(start, storeHead y [])])) k with ⟨m, he, -⟩ | ⟨m, he, hk⟩
    · -- only slots have been written
      rw [he]
      have hmem : ∀ w ∈ (slotWrites start view 0 lh).take m, InLog start w.1 ∧ w.1 ≠ start :=
        fun w hw => hslot w (List.mem_of_mem_take hw)
      refine Or.inl ⟨⟨?_, fun b hb => ?_⟩, ?_⟩
      · rw [LogEmpty, applyWrites_of_notMem fun w hw => (hmem w hw).2]
        exact hempty
      · exact applyWrites_of_notMem fun w hw he => hb (he ▸ (hmem w hw).1)
      · rintro ⟨w, hw, hws⟩
        exact (hmem w hw).2 hws
    · cases m with
      | zero =>
          rw [he, List.take_zero, List.append_nil]
          refine Or.inl ⟨⟨?_, fun b hb => ?_⟩, ?_⟩
          · rw [LogEmpty, applyWrites_of_notMem fun w hw => (hslot w hw).2]
            exact hempty
          · exact applyWrites_of_notMem fun w hw he => hb (he ▸ (hslot w hw).1)
          · rintro ⟨w, hw, hws⟩
            exact (hslot w hw).2 hws
      | succ m =>
          rw [he, List.take_succ_cons, applyWrites_append, applyWrites_cons]
          refine Or.inr (Pending.cut hout hlen (fun b hb _ => hview b hb) ?_ y m)
          refine ⟨?_, fun i hi => ?_, fun b hb => Or.inl ?_⟩
          · rw [Function.update_self]
            exact headBlocks_storeHead x hlen
          · rw [Function.update_of_ne (slot_ne_start (by omega))]
            exact slotWrites_slot hlen view d hi
          · have hbs : b ≠ start := by
              rintro rfl
              exact hb inLog_start
            rw [Function.update_of_ne hbs]
            exact applyWrites_of_notMem fun w hw he => hb (he ▸ (hslot w hw).1)

/-- **A transaction is atomic.**  Let the log on disk `d` be empty, and let the cache hold the new
contents of at most `LOGBLOCKS` blocks outside the log.  Whatever number of the writes of `commit`
has reached the disk, recovery leaves all home blocks as they were or all as they are in the cache,
the latter if the header had been written; the other blocks outside the log are as they were, and
the log is empty. -/
theorem crash_atomic {view : BlockNo → Block} {k : Nat} (hempty : LogEmpty start d)
    (hlen : lh.length ≤ LOGBLOCKS) (hout : ∀ b ∈ lh, ¬ InLog start b)
    (hview : ∀ b, b ∉ lh → view b = d b)
    (hr : Recovers start (applyWrites d ((commit start lh ⟨view, []⟩).issued.take k)) d') :
    ((∀ b ∈ lh, d' b = d b) ∨ ∀ b ∈ lh, d' b = view b) ∧
      (HeadReached start ((commit start lh ⟨view, []⟩).issued.take k) → ∀ b ∈ lh, d' b = view b) ∧
      (∀ b, b ∉ lh → ¬ InLog start b → d' b = d b) ∧ LogEmpty start d' := by
  have hafter : Settled start view d' → ((∀ b ∈ lh, d' b = d b) ∨ ∀ b ∈ lh, d' b = view b) ∧
      (HeadReached start ((commit start lh ⟨view, []⟩).issued.take k) → ∀ b ∈ lh, d' b = view b) ∧
      (∀ b, b ∉ lh → ¬ InLog start b → d' b = d b) ∧ LogEmpty start d' := by
    intro h
    have hall : ∀ b ∈ lh, d' b = view b := fun b hb => h.home b (hout b hb)
    exact ⟨Or.inr hall, fun _ => hall, fun b hb hl => (h.home b hl).trans (hview b hb), h.empty⟩
  rcases commit_cut hout hlen hview hempty k with ⟨h, hhead⟩ | h | h
  · have h' := hr.settled h
    exact ⟨Or.inl fun b hb => h'.home b (hout b hb), fun hre => absurd hre hhead,
      fun b _ hl => h'.home b hl, h'.empty⟩
  · exact hafter (hr.pending hout hlen (fun b hb _ => hview b hb) h)
  · exact hafter (hr.settled h)

/-- Two blocks of sevens in the cache of a zeroed disk. -/
def twoSevens : BlockNo → Block := fun b _ => if b = 100 ∨ b = 101 then 7 else 0

/-- The machine stops after the first home block, and again after one write of its recovery. -/
theorem crash_atomic_twoSevens : ∃ d',
    Recovers 2 (applyWrites (fun _ _ => 0) ((commit 2 [100, 101] ⟨twoSevens, []⟩).issued.take 4)) d' ∧
      (∀ b ∈ [(100 : BlockNo), 101], d' b = twoSevens b) ∧ d' 102 = (fun _ => 0) ∧ LogEmpty 2 d' := by
  have hempty : LogEmpty 2 fun _ _ => 0 := rfl
  have hout : ∀ b ∈ [(100 : BlockNo), 101], ¬ InLog 2 b := by
    intro b hb
    rcases List.mem_cons.mp hb with rfl | hb
    · decide +kernel
    · rw [List.mem_singleton.mp hb]
      decide +kernel
  have hview : ∀ b, b ∉ [(100 : BlockNo), 101] → twoSevens b = fun _ => 0 := by
    intro b hb
    have hb' : ¬ (b = 100 ∨ b = 101) := by simpa using hb
    funext i
    exact if_neg hb'
  have hreached : HeadReached 2 ((commit 2 [100, 101] ⟨twoSevens, []⟩).issued.take 4) := by
    obtain ⟨x, y, he⟩ := commit_issued hout (by decide) (List.cons_ne_nil _ _) twoSevens
    rw [he]
    exact ⟨(2, storeHead x [100, 101]), by simp [slotWrites], rfl⟩
  have hr : Recovers 2 (applyWrites (fun _ _ => 0)
      ((commit 2 [100, 101] ⟨twoSevens, []⟩).issued.take 4)) _ := .stopped _ 1 (.completed _)
  obtain ⟨-, hnew, hother, hempty'⟩ := crash_atomic hempty (by decide) hout hview hr
  exact ⟨_, hr, hnew hreached, hother 102 (by simp) (by decide +kernel), hempty'⟩

end Xv6.Log
