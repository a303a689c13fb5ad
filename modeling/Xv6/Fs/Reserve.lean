import Xv6.Fs.Exact
import Xv6.Log.Defs

/-!
# Fs — Reserve

`filewrite` and the log space that `begin_op` reserves.

`filewrite` writes an inode in sections of at most `maxChunk` bytes, each between `begin_op` and
`end_op`.  The inode is locked within a section only, so that another process may change it, and
the offset of the file, between two sections.

* `writeiL_logs_blocks`: the blocks that `writei` logs, counted by the blocks of the file that it touches.
* `filewrite_fits`: every section of `filewrite` logs at most `MAXOPBLOCKS` blocks.
-/

namespace Xv6.Fs
open Xv6.Lib

/-- `max` of `filewrite`. -/
abbrev maxChunk : Nat := ((Log.MAXOPBLOCKS - 1 - 1 - 2) / 2) * BSIZE

/-- What a section finds or leaves: the cached blocks, the inode and the offset of the file. -/
structure Section where
  cache : Cache
  d : Dinode
  off : Nat

/-- The result of `writei` and what the section leaves. -/
def writeSection (sb : Super) (inum : Nat) (w : Section) (src : Source) (n1 : Nat) :
    Except String (Option Nat × Section) := do
  let (r, c, d) ← writeiL sb w.cache inum w.d src w.off n1
  return (r, { cache := c, d := d, off := w.off + r.getD 0 })

/-- The loop of `filewrite` before section `k`, with `i` bytes written; with a bound on the turns.  It
returns `i` and the sections, as `enter` says that they are found and as they are left. -/
def filewriteLoop (sb : Super) (inum : Nat) (enter : Nat → Section) (src : Nat → Source) (n : Int) :
    Nat → Nat → Nat → Except String (Nat × List (Section × Section))
  | 0, _, _ => .error "filewrite: no turn left"
  | turns + 1, k, i =>
    if n ≤ i then .ok (i, [])
    else do
      let n1 := min (n - i).toNat maxChunk
      let (r, w) ← writeSection sb inum (enter k) (src k) n1
      if r ≠ some n1 then return (i, [(enter k, w)])
      else do
        let (i, ws) ← filewriteLoop sb inum enter src n turns (k + 1) (i + n1)
        return (i, (enter k, w) :: ws)

/-- `filewrite` of a writable file of type `FD_INODE`. -/
def filewrite (sb : Super) (inum : Nat) (enter : Nat → Section) (src : Nat → Source) (n : Int) :
    Except String (Int × List (Section × Section)) := do
  let (i, ws) ← filewriteLoop sb inum enter src n (n.toNat + 1) 0 0
  return (if (i : Int) = n then n else -1, ws)

/-- The block number that `bmap` finds for `bn`, 0 when there is none. -/
def blockAt (disk : Disk) (d : Dinode) (bn : Nat) : Word :=
  if bn < NDIRECT then d.addrs (directSlot bn)
  else if d.addrs indirectSlot = 0 then 0
  else disk (d.addrs indirectSlot).toNat (bn - NDIRECT)

/-- The blocks below the size are allocated. -/
def Allocated (disk : Disk) (d : Dinode) : Prop :=
  ∀ bn, bn < MAXFILE → bn * BSIZE < d.size.toNat → blockAt disk d bn ≠ 0

/-! ### The blocks that are logged -/

variable {sb : Super} {c c' c₁ c₂ : Cache} {d d' d₁ : Dinode} {a : Word} {src : Source}
  {S T : Finset Nat} {bn off left tot n inum : Nat}

/-- `log_write` is called on blocks of `S` between `c` and `c'`. -/
def LogsIn (S : Finset Nat) (c c' : Cache) : Prop :=
  ∃ l, c'.pinned = l ++ c.pinned ∧ l.toFinset ⊆ S

theorem LogsIn.refl (S : Finset Nat) (c : Cache) : LogsIn S c c :=
  ⟨[], rfl, Finset.empty_subset S⟩

theorem LogsIn.mono (h : LogsIn S c c') (hsub : S ⊆ T) : LogsIn T c c' := by
  obtain ⟨l, hl, hS⟩ := h
  exact ⟨l, hl, hS.trans hsub⟩

theorem LogsIn.trans (h : LogsIn S c c₁) (h' : LogsIn T c₁ c') : LogsIn (S ∪ T) c c' := by
  obtain ⟨l, hl, hS⟩ := h
  obtain ⟨l', hl', hT⟩ := h'
  refine ⟨l' ++ l, by rw [hl', hl, List.append_assoc], ?_⟩
  rw [List.toFinset_append, Finset.union_comm]
  exact Finset.union_subset_union hS hT

theorem logsIn_logWrite (c : Cache) (b : Nat) (x : Block) : LogsIn {b} c (c.logWrite b x) :=
  ⟨[b], rfl, by rw [List.toFinset_cons, List.toFinset_nil, Finset.insert_empty]⟩

/-- A block and the bitmap block that has its bit. -/
def withBitmap (sb : Super) (a : Word) : Finset Nat := {a.toNat, bblock sb a.toNat}

/-- The indirect block of an inode and its bitmap block. -/
def indirectBlocks (sb : Super) (d : Dinode) : Finset Nat :=
  if d.addrs indirectSlot = 0 then ∅ else withBitmap sb (d.addrs indirectSlot)

theorem card_withBitmap (sb : Super) (a : Word) : (withBitmap sb a).card ≤ 2 := Finset.card_le_two

theorem card_indirectBlocks (sb : Super) (d : Dinode) : (indirectBlocks sb d).card ≤ 2 := by
  rw [indirectBlocks]
  split
  · exact Nat.zero_le 2
  · exact card_withBitmap sb _

/-- `balloc` logs the block that it returns and its bitmap block. -/
theorem ballocL_logsIn (hsize : sb.size < 2 ^ 32) (c : Cache) :
    LogsIn (withBitmap sb (ballocL sb c).1) c (ballocL sb c).2 := by
  rw [ballocL]
  cases hfind : (List.range sb.size).find? fun b => !inUse sb c.disk b with
  | none => exact .refl _ c
  | some b =>
      have hb : b < sb.size := List.mem_range.mp (List.mem_of_find?_eq_some hfind)
      have hnat : (BitVec.ofNat 32 b).toNat = b := by
        rw [BitVec.toNat_ofNat, Nat.mod_eq_of_lt (hb.trans hsize)]
      simp only [withBitmap, hnat]
      refine ((logsIn_logWrite ..).trans (logsIn_logWrite ..)).mono ?_
      rw [Finset.union_comm]
      exact subset_rfl

/-- The entry of an inode: what is there, or a block that is allocated. -/
theorem bmapSlotL_logsIn (hsize : sb.size < 2 ^ 32) (c : Cache) (d : Dinode) (j : Fin (NDIRECT + 1)) :
    ∃ a c' d', bmapSlotL sb c d j = (a, c', d') ∧ LogsIn (withBitmap sb a) c c' ∧
      (a ≠ 0 → d'.addrs j = a) ∧ (∀ i, d.addrs i ≠ 0 → d'.addrs i = d.addrs i) ∧
      (∀ i, i ≠ j → d'.addrs i = d.addrs i) ∧ (d.addrs j ≠ 0 → a = d.addrs j ∧ c' = c ∧ d' = d) := by
  have hlogs := ballocL_logsIn hsize c
  rw [bmapSlotL]
  by_cases hz : d.addrs j = 0
  · rw [if_pos hz]
    generalize ballocL sb c = y at hlogs
    obtain ⟨a, c'⟩ := y
    by_cases ha : a = 0
    · exact ⟨0, c', d, if_pos ha, ha ▸ hlogs, fun h => absurd rfl h, fun _ _ => rfl, fun _ _ => rfl,
        fun h => absurd hz h⟩
    · refine ⟨a, c', d.setAddr j a, if_neg ha, hlogs, fun _ => Function.update_self .., fun i hi => ?_,
        fun i hi => Function.update_of_ne hi .., fun h => absurd hz h⟩
      exact Function.update_of_ne (fun hij : i = j => hi (hij.symm ▸ hz)) ..
  · rw [if_neg hz]
    exact ⟨_, c, d, rfl, .refl _ c, fun _ => rfl, fun _ _ => rfl, fun _ _ => rfl, fun _ => ⟨rfl, rfl, rfl⟩⟩

theorem indirectBlocks_kept (h : d.addrs indirectSlot ≠ 0 → d'.addrs indirectSlot = d.addrs indirectSlot) :
    indirectBlocks sb d ⊆ indirectBlocks sb d' := by
  by_cases hz : d.addrs indirectSlot = 0
  · rw [indirectBlocks, if_pos hz]
    exact Finset.empty_subset _
  · rw [indirectBlocks, indirectBlocks, h hz]

/-- `bmap` logs the block that it returns with its bitmap block, and the indirect block with its
bitmap block; and nothing where the block was there. -/
theorem bmapL_logsIn (hsize : sb.size < 2 ^ 32) (c : Cache) (d : Dinode) (hbn : bn < MAXFILE) :
    ∃ a c' d', bmapL sb c d bn = .ok (a, c', d') ∧
      LogsIn (withBitmap sb a ∪ indirectBlocks sb d') c c' ∧ indirectBlocks sb d ⊆ indirectBlocks sb d' ∧
      (blockAt c.disk d bn ≠ 0 → c' = c ∧ d' = d) := by
  rw [bmapL, blockAt]
  by_cases hdir : bn < NDIRECT
  · obtain ⟨a, c', d', hrun, hlogs, -, hkept, -, hthere⟩ := bmapSlotL_logsIn hsize c d (directSlot bn)
    rw [if_pos hdir, if_pos hdir, hrun]
    exact ⟨a, c', d', rfl, hlogs.mono Finset.subset_union_left, indirectBlocks_kept (hkept _),
      fun h => (hthere h).2⟩
  · have hind : bn - NDIRECT < NINDIRECT := by
      simp only [MAXFILE, NDIRECT, NINDIRECT] at *
      omega
    obtain ⟨ind, c₁, d₁, hrun, hlogs, haddr, hkept, -, hthere⟩ := bmapSlotL_logsIn hsize c d indirectSlot
    rw [if_neg hdir, if_pos hind, if_neg hdir, hrun]
    have hsub : indirectBlocks sb d ⊆ indirectBlocks sb d₁ := indirectBlocks_kept (hkept _)
    by_cases h0 : ind = 0
    · refine ⟨0, c₁, d₁, if_pos h0, (h0 ▸ hlogs).mono Finset.subset_union_left, hsub, fun h => ?_⟩
      by_cases hz : d.addrs indirectSlot = 0
      · rw [if_pos hz] at h
        exact absurd rfl h
      · exact absurd ((hthere hz).1.symm.trans h0) hz
    · have hset : indirectBlocks sb d₁ = withBitmap sb ind := by
        rw [indirectBlocks, haddr h0, if_neg h0]
      have hmem : ind.toNat ∈ indirectBlocks sb d₁ := hset ▸ Finset.mem_insert_self ..
      rw [← hset] at hlogs
      simp only [h0, if_false]
      by_cases hz : c₁.disk ind.toNat (bn - NDIRECT) = 0
      · have hnone : ¬ (if d.addrs indirectSlot = 0 then 0
            else c.disk (d.addrs indirectSlot).toNat (bn - NDIRECT)) ≠ 0 := by
          intro h
          by_cases hd : d.addrs indirectSlot = 0
          · exact h (if_pos hd)
          · obtain ⟨rfl, rfl, -⟩ := hthere hd
            rw [if_neg hd] at h
            exact h hz
        have hballoc := ballocL_logsIn hsize c₁
        simp only [hz, if_true]
        generalize ballocL sb c₁ = y at hballoc
        obtain ⟨a, c₂⟩ := y
        have hboth := (hlogs.trans hballoc).mono (Finset.union_comm _ _).subset
        by_cases ha : a = 0
        · exact ⟨0, c₂, d₁, if_pos ha, ha ▸ hboth, hsub, fun h => absurd h hnone⟩
        · refine ⟨a, _, d₁, if_neg ha, (hboth.trans (logsIn_logWrite ..)).mono ?_, hsub,
            fun h => absurd h hnone⟩
          refine Finset.union_subset subset_rfl (Finset.singleton_subset_iff.mpr ?_)
          exact Finset.mem_union_right _ hmem
      · refine ⟨_, c₁, d₁, if_neg hz, hlogs.mono Finset.subset_union_right, hsub, fun h => ?_⟩
        by_cases hd : d.addrs indirectSlot = 0
        · rw [if_pos hd] at h
          exact absurd rfl h
        · exact (hthere hd).2

/-- The blocks of one turn of `writei`, besides the indirect block and its bitmap block: one where the
block of the file was there, else at most two. -/
theorem bmapL_turn (hsize : sb.size < 2 ^ 32) (c : Cache) (d : Dinode) (hbn : bn < MAXFILE) :
    ∃ a c' d' S, bmapL sb c d bn = .ok (a, c', d') ∧ LogsIn (S ∪ indirectBlocks sb d') c c' ∧
      indirectBlocks sb d ⊆ indirectBlocks sb d' ∧ a.toNat ∈ S ∧ S.card ≤ 2 ∧
      (blockAt c.disk d bn ≠ 0 → S.card ≤ 1) := by
  obtain ⟨a, c', d', hrun, hlogs, hsub, hthere⟩ := bmapL_logsIn hsize c d hbn
  by_cases h : blockAt c.disk d bn = 0
  · exact ⟨a, c', d', withBitmap sb a, hrun, hlogs, hsub, Finset.mem_insert_self .., card_withBitmap sb a,
      fun hne => absurd h hne⟩
  · obtain ⟨rfl, rfl⟩ := hthere h
    exact ⟨a, c', d', {a.toNat}, hrun, .refl _ c', hsub, Finset.mem_singleton_self _,
      (Finset.card_singleton _).le.trans one_le_two, fun _ => (Finset.card_singleton _).le⟩

/-! ### The blocks of a write -/

/-- The number of blocks of the file that a write of `left` bytes at `off` touches. -/
def turnsOf (off left : Nat) : Nat :=
  if left = 0 then 0 else (off % BSIZE + left + (BSIZE - 1)) / BSIZE

theorem turnsOf_step (off : Nat) (h : left ≠ 0) : turnsOf off left =
    turnsOf (off + min left (BSIZE - off % BSIZE)) (left - min left (BSIZE - off % BSIZE)) + 1 := by
  rw [turnsOf, turnsOf, if_neg h]
  have hlt : off % 1024 < 1024 := Nat.mod_lt _ (by decide)
  simp only [BSIZE]
  by_cases hle : left ≤ 1024 - off % 1024
  · rw [min_eq_left hle, if_pos (Nat.sub_self left)]
    omega
  · rw [min_eq_right (by omega), if_neg (by omega)]
    omega

/-- The blocks that the loop of `writei` logs, by induction on the turns. -/
theorem writeiLoopL_logsIn (hsize : sb.size < 2 ^ 32) (src : Source) : ∀ (turns : Nat) (c : Cache)
    (d : Dinode) (off left tot : Nat), left < turns → off + left ≤ MAXFILE * BSIZE →
    ∃ r c' d' S, writeiLoopL sb src turns c d off left tot = .ok (r, c', d') ∧
      LogsIn (S ∪ indirectBlocks sb d') c c' ∧ indirectBlocks sb d ⊆ indirectBlocks sb d' ∧
      S.card ≤ 2 * turnsOf off left ∧
      (left ≠ 0 → blockAt c.disk d (off / BSIZE) ≠ 0 → S.card + 1 ≤ 2 * turnsOf off left) := by
  intro turns
  induction turns with
  | zero => exact fun _ _ _ _ _ h => absurd h (Nat.not_lt_zero _)
  | succ turns ih =>
      intro c d off left tot hturns hmax
      rw [writeiLoopL]
      by_cases h0 : left = 0
      · rw [if_pos h0]
        exact ⟨_, c, d, ∅, rfl, .refl _ c, subset_rfl, Nat.zero_le _, fun h => absurd h0 h⟩
      · have hbn : off / BSIZE < MAXFILE := (Nat.div_lt_iff_lt_mul (by decide)).mpr (by omega)
        obtain ⟨a, c₁, d₁, S, hbmap, hlogs, hsub, hmem, hcard, hthere⟩ := bmapL_turn hsize c d hbn
        have hstep := turnsOf_step off h0
        rw [if_neg h0, hbmap, ok_bind]
        by_cases ha : a = 0
        · refine ⟨(tot, off), c₁, d₁, S, if_pos ha, hlogs, hsub, by omega, fun _ h => ?_⟩
          have := hthere h
          omega
        · simp only [ha, if_false]
          cases hok : (src tot).2 with
          | false =>
              refine ⟨(tot, off), _, d₁, S, rfl, hlogs, hsub, by omega, fun _ h => ?_⟩
              have := hthere h
              omega
          | true =>
              simp only [Bool.not_true, Bool.false_eq_true, if_false]
              have hm : 0 < min left (BSIZE - off % BSIZE) := by
                have := Nat.mod_lt off (show 0 < BSIZE by decide)
                omega
              generalize (c₁.disk a.toNat).store (off % BSIZE) _ = x
              obtain ⟨r, c', d', T, hrun, hlogs', hsub', hcard', -⟩ := ih (c₁.logWrite a.toNat x) d₁
                (off + min left (BSIZE - off % BSIZE)) (left - min left (BSIZE - off % BSIZE))
                (tot + min left (BSIZE - off % BSIZE)) (by omega) (by omega)
              have hunion := Finset.card_union_le S T
              refine ⟨r, c', d', S ∪ T, hrun, ?_, hsub.trans hsub', by omega, fun _ h => ?_⟩
              · refine ((hlogs.trans (logsIn_logWrite ..)).trans hlogs').mono ?_
                refine Finset.union_subset (Finset.union_subset (Finset.union_subset ?_ ?_) ?_) ?_
                · exact Finset.subset_union_left.trans Finset.subset_union_left
                · exact hsub'.trans Finset.subset_union_right
                · exact Finset.singleton_subset_iff.mpr
                    (Finset.mem_union_left _ (Finset.mem_union_left _ hmem))
                · exact Finset.union_subset_union_left Finset.subset_union_right
              · have := hthere h
                omega

/-- **The blocks that `writei` logs.**  Each block of the file takes two, with its bitmap block, and
the indirect block, its bitmap block and the inode block three; one less where the first block of
the file was there. -/
theorem writeiL_logs_blocks (hsize : sb.size < 2 ^ 32) (c : Cache) (inum : Nat) (d : Dinode)
    (src : Source) (off n : Nat) :
    ∃ r c' d' S, writeiL sb c inum d src off n = .ok (r, c', d') ∧ LogsIn S c c' ∧
      S.card ≤ 2 * turnsOf off n + 3 ∧
      (n ≠ 0 → Refused d off n ∨ blockAt c.disk d (off / BSIZE) ≠ 0 →
        S.card ≤ 2 * turnsOf off n + 2) := by
  by_cases href : Refused d off n
  · exact ⟨none, c, d, ∅, writeiL_refused sb c inum href src, .refl _ c, Nat.zero_le _,
      fun _ _ => Nat.zero_le _⟩
  · obtain ⟨hoff, hrest⟩ := not_or.mp href
    obtain ⟨hwrap, hmax⟩ := not_or.mp hrest
    obtain ⟨⟨tot, off'⟩, c', d', S, hrun, hlogs, -, hcard, hthere⟩ :=
      writeiLoopL_logsIn hsize src (n + 1) c d off n 0 (Nat.lt_succ_self n) (not_lt.mp hmax)
    rw [writeiL, if_neg (not_or.mpr ⟨hoff, hwrap⟩), if_neg hmax, hrun]
    have hind := card_indirectBlocks sb d'
    have hunion := Finset.card_union_le S (indirectBlocks sb d')
    have hall := Finset.card_union_le (S ∪ indirectBlocks sb d') {iblock sb inum}
    have hone : ({iblock sb inum} : Finset Nat).card = 1 := Finset.card_singleton _
    refine ⟨_, _, _, _, rfl, hlogs.trans (logsIn_logWrite ..), by omega, fun hn h => ?_⟩
    have := hthere hn (h.resolve_left href)
    omega

/-! ### Sections -/

/-- The block that an offset within a block falls in is allocated, when the offset is at most the size. -/
theorem Allocated.there {disk : Disk} (h : Allocated disk d) (hoff : off ≤ d.size.toNat)
    (hmax : off < MAXFILE * BSIZE) (hne : off % BSIZE ≠ 0) : blockAt disk d (off / BSIZE) ≠ 0 := by
  refine h _ ((Nat.div_lt_iff_lt_mul (by decide)).mpr hmax) ?_
  have := Nat.div_add_mod off BSIZE
  simp only [BSIZE] at *
  omega

/-- A section of at most `maxChunk` bytes. -/
theorem writeSection_fits (hsize : sb.size < 2 ^ 32) (inum : Nat) (w : Section) (src : Source)
    (h : Allocated w.cache.disk w.d) (hn : n ≤ maxChunk) :
    ∃ r w', writeSection sb inum w src n = .ok (r, w') ∧
      ∃ l, w'.cache.pinned = l ++ w.cache.pinned ∧ l.toFinset.card ≤ Log.MAXOPBLOCKS := by
  obtain ⟨r, c', d', S, hrun, ⟨l, hl, hsub⟩, hcard, hthere⟩ :=
    writeiL_logs_blocks hsize w.cache inum w.d src w.off n
  rw [writeSection, hrun]
  refine ⟨r, _, rfl, l, hl, (Finset.card_le_card hsub).trans ?_⟩
  by_cases hn0 : n = 0
  · rw [turnsOf, if_pos hn0] at hcard
    exact hcard.trans (by decide)
  · have hchunk : n ≤ 3072 := hn
    have hlt : w.off % BSIZE < BSIZE := Nat.mod_lt _ (by decide)
    rw [turnsOf, if_neg hn0] at hcard hthere
    by_cases haligned : w.off % BSIZE = 0
    · simp only [BSIZE, Log.MAXOPBLOCKS] at *
      omega
    · have hfour : S.card ≤ 2 * ((w.off % BSIZE + n + (BSIZE - 1)) / BSIZE) + 2 := by
        refine hthere hn0 ?_
        by_cases href : Refused w.d w.off n
        · exact Or.inl href
        · obtain ⟨hoff, hrest⟩ := not_or.mp href
          exact Or.inr (h.there (not_lt.mp hoff) (by omega) haligned)
      simp only [BSIZE, Log.MAXOPBLOCKS] at *
      omega

/-- The loop, from any section on. -/
theorem filewriteLoop_fits (hsize : sb.size < 2 ^ 32) (inum : Nat) (enter : Nat → Section)
    (src : Nat → Source) (n : Int) (h : ∀ k, Allocated (enter k).cache.disk (enter k).d) :
    ∀ turns k i : Nat, (n - i).toNat < turns →
    ∃ i' ws, filewriteLoop sb inum enter src n turns k i = .ok (i', ws) ∧ ∀ p ∈ ws,
      ∃ l, p.2.cache.pinned = l ++ p.1.cache.pinned ∧ l.toFinset.card ≤ Log.MAXOPBLOCKS := by
  intro turns
  induction turns with
  | zero => exact fun _ _ h => absurd h (Nat.not_lt_zero _)
  | succ turns ih =>
      intro k i hturns
      rw [filewriteLoop]
      by_cases hdone : n ≤ i
      · exact ⟨i, [], if_pos hdone, fun p hp => absurd hp List.not_mem_nil⟩
      · have hpos : 0 < min (n - i).toNat maxChunk := lt_min (by omega) (by decide)
        have hle : min (n - i).toNat maxChunk ≤ (n - i).toNat := min_le_left _ _
        obtain ⟨r, w, hrun, hfits⟩ := writeSection_fits hsize inum (enter k) (src k) (h k)
          (min_le_right (n - i).toNat maxChunk)
        simp only [hdone, if_false]
        generalize min (n - i).toNat maxChunk = n1 at hpos hle hrun
        rw [hrun, ok_bind]
        by_cases hr : r ≠ some n1
        · refine ⟨i, [(enter k, w)], if_pos hr, fun p hp => ?_⟩
          rw [List.mem_singleton.mp hp]
          exact hfits
        · obtain ⟨i', ws, hloop, hws⟩ := ih (k + 1) (i + n1) (by push_cast; omega)
          rw [if_neg hr, hloop]
          refine ⟨i', (enter k, w) :: ws, rfl, fun p hp => ?_⟩
          rcases List.mem_cons.mp hp with rfl | hp
          · exact hfits
          · exact hws p hp

/-- **A file write fits its log reservation.** -/
theorem filewrite_fits (sb : Super) (hsize : sb.size < 2 ^ 32) (inum : Nat) (enter : Nat → Section)
    (src : Nat → Source) (n : Int) (h : ∀ k, Allocated (enter k).cache.disk (enter k).d) :
    ∃ ret ws, filewrite sb inum enter src n = .ok (ret, ws) ∧ ∀ p ∈ ws,
      ∃ l, p.2.cache.pinned = l ++ p.1.cache.pinned ∧ l.toFinset.card ≤ Log.MAXOPBLOCKS := by
  obtain ⟨i, ws, hrun, hws⟩ :=
    filewriteLoop_fits hsize inum enter src n h (n.toNat + 1) 0 0 (by omega)
  rw [filewrite, hrun]
  exact ⟨_, ws, rfl, hws⟩

/-- The inodes of a file system are as `filewrite` needs them. -/
theorem Whole.allocated {disk : Disk} {i : Nat} (h : Whole (dinodes sb disk) disk i)
    (hd : dinodes sb disk i = d) (ht : d.type ≠ 0) : Allocated disk d := by
  intro bn hbn hsize hzero
  have hblock : HasBlock (dinodes sb disk) disk i bn := by
    have := h.blocks (bn * BSIZE) (hd.symm ▸ hsize)
    rwa [Nat.mul_div_cancel _ (show 0 < BSIZE by decide)] at this
  refine hblock ?_
  by_cases hdir : bn < NDIRECT
  · rw [blockAt, if_pos hdir] at hzero
    rw [slotOf_direct hdir, entry, hd, if_neg ht, hzero]
  · have hmod : (indirectIndex bn).val = bn - NDIRECT := by
      refine Nat.mod_eq_of_lt ?_
      simp only [MAXFILE, NDIRECT, NINDIRECT] at *
      omega
    rw [blockAt, if_neg hdir] at hzero
    rw [slotOf_ind hdir, entry, hd, hmod]
    by_cases hz : d.addrs indirectSlot = 0
    · exact if_pos (Or.inr hz)
    · rw [if_neg hz] at hzero
      rw [if_neg (not_or.mpr ⟨ht, hz⟩), hzero]

/-- A write of 5000 bytes to a small disk: the first section is cut short, and the loop ends after it. -/
theorem filewrite_fits_tiny : ∃ ret ws, filewrite tinySuper 1
      (fun k => ⟨tinyCache, tinyInode, 4 * k⟩) (fun _ => copyin (fun _ => 9) 5000 0 3072) 5000 = .ok (ret, ws) ∧
    ∀ p ∈ ws, ∃ l, p.2.cache.pinned = l ++ p.1.cache.pinned ∧ l.toFinset.card ≤ Log.MAXOPBLOCKS :=
  filewrite_fits tinySuper (by decide) 1 _ _ 5000 fun _ =>
    tinyDisk_whole.allocated rfl (show tinyInode.type ≠ 0 by decide)

end Xv6.Fs
