import Xv6.Raid.Defs

/-!
# Raid — Layout

Where each mode keeps a logical block, what a read of it returns, and what a write does to what
the reads return, block by block.

`blockView s lb` is the block a read of `lb` yields in `s`.  In RAID-5 a block of a failed disk
is the XOR of the other three blocks of its row; `rowXor` is the XOR of the whole row, so the
reconstruction is `rowXor s r ⊕ sim_disk[d][r]`.

* `readBlock_eq`: a read returns `blockView`, provided no more disks are failed than the mode
  tolerates (`Readable`).
* `writeBlock_spec`: a write sets the view at its own block and keeps every other block of the
  view, except that in RAID-5 the block of the written stripe that lies on the failed disk reads
  as zeros afterwards (`Lost`).
-/

namespace Xv6.Raid
open Xv6.Lib

/-! ### XOR of blocks -/

theorem xorBlock_comm (a b : Block) : xorBlock a b = xorBlock b a :=
  funext fun i => UInt8.xor_comm (a i) (b i)

theorem xorBlock_assoc (a b c : Block) : xorBlock (xorBlock a b) c = xorBlock a (xorBlock b c) :=
  funext fun i => UInt8.xor_assoc (a i) (b i) (c i)

@[simp] theorem xorBlock_self (a : Block) : xorBlock a a = zeroBlock :=
  funext fun _ => UInt8.xor_self

@[simp] theorem xorBlock_zero (a : Block) : xorBlock a zeroBlock = a :=
  funext fun _ => UInt8.xor_zero

@[simp] theorem zero_xorBlock (a : Block) : xorBlock zeroBlock a = a :=
  funext fun _ => UInt8.zero_xor

instance : Std.Commutative xorBlock := ⟨xorBlock_comm⟩
instance : Std.Associative xorBlock := ⟨xorBlock_assoc⟩

@[simp] theorem xorBlock_cancel_left (a b : Block) : xorBlock a (xorBlock a b) = b := by
  rw [← xorBlock_assoc, xorBlock_self, zero_xorBlock]

theorem xorBlock_left_comm (a b c : Block) :
    xorBlock a (xorBlock b c) = xorBlock b (xorBlock a c) := by
  rw [← xorBlock_assoc, xorBlock_comm a b, xorBlock_assoc]

/-- `a ⊕ b = 0` exactly when `a = b`. -/
theorem xorBlock_eq_zero {a b : Block} : xorBlock a b = zeroBlock ↔ a = b := by
  refine ⟨fun h => ?_, fun h => by rw [h, xorBlock_self]⟩
  rw [← xorBlock_cancel_left b a, xorBlock_comm b a, h, xorBlock_zero]

/-! ### The disks of a stripe -/

theorem raid5DataDisk_lt (r i : Nat) : raid5DataDisk r i < NUM_DISKS := Nat.mod_lt _ (by decide)

theorem raid5ParityDisk_lt (r : Nat) : raid5ParityDisk r < NUM_DISKS := Nat.mod_lt _ (by decide)

theorem raid5DataDisk_inj {r i j : Nat} (hi : i < DATA_DISKS) (hj : j < DATA_DISKS)
    (h : raid5DataDisk r i = raid5DataDisk r j) : i = j := by
  simp only [raid5DataDisk, raid5ParityDisk, NUM_DISKS, DATA_DISKS] at *
  omega

theorem raid5DataDisk_ne_parity {r i : Nat} (hi : i < DATA_DISKS) :
    raid5DataDisk r i ≠ raid5ParityDisk r := by
  simp only [raid5DataDisk, raid5ParityDisk, NUM_DISKS, DATA_DISKS] at *
  omega

/-- The disk of a logical block in RAID-5. -/
def disk5 (lb : Nat) : Nat := raid5DataDisk (lb / DATA_DISKS) (lb % DATA_DISKS)

theorem disk5_lt (lb : Nat) : disk5 lb < NUM_DISKS := raid5DataDisk_lt _ _

theorem disk5_ne_parity (lb : Nat) : disk5 lb ≠ raid5ParityDisk (lb / DATA_DISKS) :=
  raid5DataDisk_ne_parity (Nat.mod_lt _ (by decide))

theorem disk5_inj {x y : Nat} (hr : x / DATA_DISKS = y / DATA_DISKS) (hd : disk5 x = disk5 y) :
    x = y := by
  simp only [disk5, hr] at hd
  have := raid5DataDisk_inj (Nat.mod_lt x (by decide)) (Nat.mod_lt y (by decide)) hd
  simp only [DATA_DISKS] at *
  omega

/-! ### What a read returns -/

/-- The XOR of the four blocks of row `r`, data disks first. -/
def rowXor (s : State) (r : Nat) : Block :=
  xorBlock (s.simDisk (raid5DataDisk r 0) r) (xorBlock (s.simDisk (raid5DataDisk r 1) r)
    (xorBlock (s.simDisk (raid5DataDisk r 2) r) (s.simDisk (raid5ParityDisk r) r)))

/-- `rowXor` does not depend on which disk holds the parity. -/
theorem rowXor_eq (s : State) (r : Nat) :
    rowXor s r = xorBlock (s.simDisk 0 r) (xorBlock (s.simDisk 1 r)
      (xorBlock (s.simDisk 2 r) (s.simDisk 3 r))) := by
  have h4 : r % 4 < 4 := Nat.mod_lt _ (by decide)
  unfold rowXor raid5DataDisk raid5ParityDisk
  simp only [NUM_DISKS]
  interval_cases r % 4 <;> norm_num <;> ac_rfl

/-- The block a read of `lb` yields. -/
def blockView (s : State) (lb : Nat) : Block :=
  match s.raidMode with
  | .mode0 => s.simDisk (lb % NUM_DISKS) (lb / NUM_DISKS)
  | .mode1 => if s.diskFailed 0 then s.simDisk 1 lb else s.simDisk 0 lb
  | .mode5 =>
      if s.diskFailed (disk5 lb) then
        xorBlock (rowXor s (lb / DATA_DISKS)) (s.simDisk (disk5 lb) (lb / DATA_DISKS))
      else s.simDisk (disk5 lb) (lb / DATA_DISKS)

theorem blockView_mode5 {s : State} (hm : s.raidMode = .mode5) (lb : Nat) :
    blockView s lb = if s.diskFailed (disk5 lb) then
        xorBlock (rowXor s (lb / DATA_DISKS)) (s.simDisk (disk5 lb) (lb / DATA_DISKS))
      else s.simDisk (disk5 lb) (lb / DATA_DISKS) := by
  unfold blockView
  rw [hm]

/-- At most one disk is marked failed. -/
def OneFailed (s : State) : Prop :=
  ∀ d e, d < NUM_DISKS → e < NUM_DISKS → s.diskFailed d = true → s.diskFailed e = true → d = e

/-- No disk is marked failed. -/
def Healthy (s : State) : Prop := ∀ d, d < NUM_DISKS → s.diskFailed d = false

/-- The failures the mode tolerates on a read. -/
def Readable (s : State) : Prop :=
  OneFailed s ∧ (s.raidMode = .mode0 → Healthy s)

theorem Healthy.oneFailed {s : State} (h : Healthy s) : OneFailed s := by
  intro d e hd _ hf _
  rw [h d hd] at hf
  cases hf

theorem Healthy.readable {s : State} (h : Healthy s) : Readable s := ⟨h.oneFailed, fun _ => h⟩

theorem physReadBlock_eq (s : State) {d r : Nat} (hd : d < NUM_DISKS) (hr : r < DISK_BLOCKS) :
    physReadBlock s d r = .ok (if s.diskFailed d then none else some (s.simDisk d r)) := by
  simp only [physReadBlock, NUM_DISKS, DISK_BLOCKS] at *
  rw [if_neg (by omega), if_neg (by omega)]
  simp only [Int.toNat_natCast]
  split <;> rfl

/-- The state after a physical write: unchanged when the disk is failed. -/
def putRow (s : State) (d blk : Nat) (b : Block) : State :=
  if s.diskFailed d then s else { s with simDisk := setRow s.simDisk d blk b }

theorem physWriteBlock_eq (s : State) {d r : Nat} (hd : d < NUM_DISKS) (hr : r < DISK_BLOCKS)
    (b : Block) : physWriteBlock s d r b = .ok (putRow s d r b) := by
  simp only [physWriteBlock, putRow, NUM_DISKS, DISK_BLOCKS] at *
  rw [if_neg (by omega), if_neg (by omega)]
  simp only [Int.toNat_natCast]
  split <;> rfl

@[simp] theorem putRow_diskFailed (s : State) (d blk : Nat) (b : Block) :
    (putRow s d blk b).diskFailed = s.diskFailed := by unfold putRow; split <;> rfl

@[simp] theorem putRow_raidMode (s : State) (d blk : Nat) (b : Block) :
    (putRow s d blk b).raidMode = s.raidMode := by unfold putRow; split <;> rfl

theorem putRow_simDisk (s : State) (d blk : Nat) (b : Block) (d' blk' : Nat) :
    (putRow s d blk b).simDisk d' blk' =
      if d' = d ∧ blk' = blk ∧ s.diskFailed d = false then b else s.simDisk d' blk' := by
  unfold putRow
  by_cases h : s.diskFailed d
  · simp [h]
  · simp [h, setRow]

theorem raid0Read_eq {s : State} (hs : Healthy s) {lb : Nat} (hlb : lb < 512) :
    raid0Read s lb = .ok (s.simDisk (lb % NUM_DISKS) (lb / NUM_DISKS)) := by
  have hd : lb % NUM_DISKS < NUM_DISKS := Nat.mod_lt _ (by decide)
  have hb : lb / NUM_DISKS < DISK_BLOCKS := by simp only [NUM_DISKS, DISK_BLOCKS]; omega
  rw [raid0Read, physReadBlock_eq s hd hb, hs _ hd]
  rfl

theorem raid1Read_eq {s : State} (hs : OneFailed s) {lb : Nat} (hlb : lb < 512) :
    raid1Read s lb = .ok (if s.diskFailed 0 then s.simDisk 1 lb else s.simDisk 0 lb) := by
  have h₀ := physReadBlock_eq s (d := 0) (r := lb) (by decide) hlb
  have h₁ := physReadBlock_eq s (d := 1) (r := lb) (by decide) hlb
  simp only [Nat.cast_zero, Nat.cast_one] at h₀ h₁
  by_cases f₀ : s.diskFailed 0 = true
  · have f₁ : s.diskFailed 1 = false := by
      by_contra h
      have := hs 0 1 (by decide) (by decide) f₀ (by simpa using h)
      omega
    simp [raid1Read, h₀, h₁, f₀, f₁]
  · simp [raid1Read, h₀, f₀]

/-- In RAID-5 a block of the one failed disk is rebuilt from the rest of its row. -/
theorem raid5Read_eq {s : State} (hs : OneFailed s) {lb : Nat} (hlb : lb < 512) :
    raid5Read s lb = .ok (if s.diskFailed (disk5 lb) then
        xorBlock (rowXor s (lb / DATA_DISKS)) (s.simDisk (disk5 lb) (lb / DATA_DISKS))
      else s.simDisk (disk5 lb) (lb / DATA_DISKS)) := by
  have hr : lb / DATA_DISKS < DISK_BLOCKS := by simp only [DATA_DISKS, DISK_BLOCKS]; omega
  set r := lb / DATA_DISKS with hrdef
  have hread : ∀ d, d < NUM_DISKS →
      physReadBlock s d r = .ok (if s.diskFailed d then none else some (s.simDisk d r)) :=
    fun d hd => physReadBlock_eq s hd hr
  have hD : disk5 lb = raid5DataDisk r (lb % DATA_DISKS) := rfl
  by_cases hf : s.diskFailed (disk5 lb) = true
  · -- every other disk of the row is healthy
    have hok : ∀ d, d < NUM_DISKS → d ≠ disk5 lb → s.diskFailed d = false := by
      intro d hd hne
      by_contra h
      exact hne (hs d _ hd (disk5_lt lb) (by simpa using h) hf)
    have hpar : s.diskFailed (raid5ParityDisk r) = false :=
      hok _ (raid5ParityDisk_lt r) (disk5_ne_parity lb).symm
    have hdata : ∀ i, i < DATA_DISKS → i ≠ lb % DATA_DISKS →
        s.diskFailed (raid5DataDisk r i) = false ∧ raid5DataDisk r i ≠ disk5 lb := by
      intro i hi hne
      have : raid5DataDisk r i ≠ disk5 lb := fun h =>
        hne (raid5DataDisk_inj hi (Nat.mod_lt _ (by decide)) (h.trans hD))
      exact ⟨hok _ (raid5DataDisk_lt r i) this, this⟩
    have hj : lb % DATA_DISKS < 3 := Nat.mod_lt _ (by decide)
    rw [if_pos hf]
    simp only [raid5Read, ← hrdef, ← hD, hread _ (disk5_lt lb), hf, if_true, ok_bind,
      hread _ (raid5ParityDisk_lt r), hpar, Bool.false_eq_true, if_false]
    have hrange : List.range DATA_DISKS = [0, 1, 2] := rfl
    rw [hrange]
    simp only [List.foldlM_cons, List.foldlM_nil, hread _ (raid5DataDisk_lt r _)]
    have hcases : lb % DATA_DISKS = 0 ∨ lb % DATA_DISKS = 1 ∨ lb % DATA_DISKS = 2 := by omega
    rcases hcases with h | h | h
    · obtain ⟨f₁, n₁⟩ := hdata 1 (by decide) (by omega)
      obtain ⟨f₂, n₂⟩ := hdata 2 (by decide) (by omega)
      have h0 : raid5DataDisk r 0 = disk5 lb := by rw [hD, h]
      simp only [h0, if_true, n₁, n₂, f₁, f₂, if_false, Bool.false_eq_true, ok_bind, pure_eq_ok,
        rowXor, zero_xorBlock]
      rw [← xorBlock_cancel_left (s.simDisk (disk5 lb) r) (xorBlock (xorBlock _ _) _)]
      congr 1
      ac_rfl
    · obtain ⟨f₀, n₀⟩ := hdata 0 (by decide) (by omega)
      obtain ⟨f₂, n₂⟩ := hdata 2 (by decide) (by omega)
      have h1 : raid5DataDisk r 1 = disk5 lb := by rw [hD, h]
      simp only [h1, if_true, n₀, n₂, f₀, f₂, if_false, Bool.false_eq_true, ok_bind, pure_eq_ok,
        rowXor, zero_xorBlock]
      rw [← xorBlock_cancel_left (s.simDisk (disk5 lb) r) (xorBlock (xorBlock _ _) _)]
      congr 1
      ac_rfl
    · obtain ⟨f₀, n₀⟩ := hdata 0 (by decide) (by omega)
      obtain ⟨f₁, n₁⟩ := hdata 1 (by decide) (by omega)
      have h2 : raid5DataDisk r 2 = disk5 lb := by rw [hD, h]
      simp only [h2, if_true, n₀, n₁, f₀, f₁, if_false, Bool.false_eq_true, ok_bind, pure_eq_ok,
        rowXor, zero_xorBlock]
      rw [← xorBlock_cancel_left (s.simDisk (disk5 lb) r) (xorBlock (xorBlock _ _) _)]
      congr 1
      ac_rfl
  · simp only [raid5Read, ← hrdef, ← hD, hread _ (disk5_lt lb), hf, ok_bind, Bool.false_eq_true,
      if_false]

/-- **A read returns the view.** -/
theorem readBlock_eq {s : State} (hs : Readable s) {lb : Nat} (hlb : lb < 512) :
    readBlock s lb = .ok (blockView s lb) := by
  unfold readBlock blockView
  cases hm : s.raidMode with
  | mode0 => exact raid0Read_eq (hs.2 hm) hlb
  | mode1 => exact raid1Read_eq hs.1 hlb
  | mode5 => exact raid5Read_eq hs.1 hlb

/-! ### What a write changes -/

/-- `s'` has the mode and the failure flags of `s`. -/
def SameFlags (s s' : State) : Prop :=
  s'.raidMode = s.raidMode ∧ s'.diskFailed = s.diskFailed

theorem SameFlags.trans {s s' s'' : State} (h : SameFlags s s') (h' : SameFlags s' s'') :
    SameFlags s s'' :=
  ⟨h'.1.trans h.1, h'.2.trans h.2⟩

theorem SameFlags.readable {s s' : State} (h : SameFlags s s') (hs : Readable s) : Readable s' := by
  simpa [Readable, OneFailed, Healthy, h.1, h.2] using hs

theorem sameFlags_putRow (s : State) (d blk : Nat) (b : Block) : SameFlags s (putRow s d blk b) := by
  unfold putRow
  split <;> exact ⟨rfl, rfl⟩

/-- A write of `lb` loses block `x` in RAID-5: `x` is in the stripe of `lb`, on a failed disk. -/
def Lost (s : State) (lb x : Nat) : Prop :=
  s.raidMode = .mode5 ∧ x / DATA_DISKS = lb / DATA_DISKS ∧ s.diskFailed (disk5 x) = true

theorem SameFlags.lost {s s' : State} (h : SameFlags s s') (lb x : Nat) :
    Lost s' lb x ↔ Lost s lb x := by simp [Lost, h.1, h.2]

instance (s : State) (lb x : Nat) : Decidable (Lost s lb x) := by unfold Lost; infer_instance

/-- The parity block RAID-5 writes: the XOR of the readable data blocks of the row. -/
def parityOf (s : State) (r : Nat) : Block :=
  let part := fun i => if s.diskFailed (raid5DataDisk r i) then zeroBlock
    else s.simDisk (raid5DataDisk r i) r
  xorBlock (xorBlock (part 0) (part 1)) (part 2)

/-- RAID-5's write as two physical writes. -/
theorem raid5Write_eq (s : State) {lb : Nat} (hlb : lb < 512) (src : Block) :
    raid5Write s lb src = .ok (putRow (putRow s (disk5 lb) (lb / DATA_DISKS) src)
      (raid5ParityDisk (lb / DATA_DISKS)) (lb / DATA_DISKS)
      (parityOf (putRow s (disk5 lb) (lb / DATA_DISKS) src) (lb / DATA_DISKS))) := by
  have hr : lb / DATA_DISKS < DISK_BLOCKS := by simp only [DATA_DISKS, DISK_BLOCKS]; omega
  have hD : raid5DataDisk (lb / DATA_DISKS) (lb % DATA_DISKS) = disk5 lb := rfl
  have hrange : List.range DATA_DISKS = [0, 1, 2] := rfl
  simp only [raid5Write, hD, physWriteBlock_eq s (disk5_lt lb) hr, ok_bind, hrange,
    List.foldlM_cons, List.foldlM_nil, physReadBlock_eq _ (raid5DataDisk_lt _ _) hr,
    putRow_diskFailed, parityOf]
  -- which of the three data disks are failed
  cases s.diskFailed (raid5DataDisk (lb / DATA_DISKS) 0) <;>
    cases s.diskFailed (raid5DataDisk (lb / DATA_DISKS) 1) <;>
    cases s.diskFailed (raid5DataDisk (lb / DATA_DISKS) 2) <;>
    simp [physWriteBlock_eq _ (raid5ParityDisk_lt _) hr]

/-- After RAID-5's parity write, with the parity disk healthy, the row XORs to what the parity
left out: the contents of the failed data disks. -/
theorem rowXor_parity (s : State) (r : Nat) (hp : s.diskFailed (raid5ParityDisk r) = false) :
    rowXor (putRow s (raid5ParityDisk r) r (parityOf s r)) r =
      let miss := fun i => if s.diskFailed (raid5DataDisk r i) then s.simDisk (raid5DataDisk r i) r
        else zeroBlock
      xorBlock (miss 0) (xorBlock (miss 1) (miss 2)) := by
  have hd : ∀ i, i < DATA_DISKS → (putRow s (raid5ParityDisk r) r (parityOf s r)).simDisk
      (raid5DataDisk r i) r = s.simDisk (raid5DataDisk r i) r := by
    intro i hi
    rw [putRow_simDisk, if_neg fun h => raid5DataDisk_ne_parity hi h.1]
  have hpar : (putRow s (raid5ParityDisk r) r (parityOf s r)).simDisk (raid5ParityDisk r) r =
      parityOf s r := by rw [putRow_simDisk, if_pos ⟨rfl, rfl, hp⟩]
  rw [rowXor, hd 0 (by decide), hd 1 (by decide), hd 2 (by decide), hpar, parityOf]
  dsimp only
  cases s.diskFailed (raid5DataDisk r 0) <;> cases s.diskFailed (raid5DataDisk r 1) <;>
    cases s.diskFailed (raid5DataDisk r 2) <;>
    simp [xorBlock_assoc, xorBlock_left_comm, xorBlock_comm]

/-- With at most one failed disk, the row of a RAID-5 write XORs to the block of `x`, for any
block `x` of that row on the failed disk. -/
theorem rowXor_parity_failed {s : State} (hs : OneFailed s) {x : Nat}
    (hf : s.diskFailed (disk5 x) = true) :
    rowXor (putRow s (raid5ParityDisk (x / DATA_DISKS)) (x / DATA_DISKS)
      (parityOf s (x / DATA_DISKS))) (x / DATA_DISKS) = s.simDisk (disk5 x) (x / DATA_DISKS) := by
  set r := x / DATA_DISKS with hr
  have hD : disk5 x = raid5DataDisk r (x % DATA_DISKS) := rfl
  have hj : x % DATA_DISKS < DATA_DISKS := Nat.mod_lt _ (by decide)
  have hp : s.diskFailed (raid5ParityDisk r) = false := by
    by_contra h
    exact disk5_ne_parity x (hs _ _ (disk5_lt x) (raid5ParityDisk_lt r) hf (by simpa using h))
  have hok : ∀ i, i < DATA_DISKS → i ≠ x % DATA_DISKS →
      s.diskFailed (raid5DataDisk r i) = false := by
    intro i hi hne
    by_contra h
    exact hne (raid5DataDisk_inj hi hj
      (hs _ _ (raid5DataDisk_lt r i) (disk5_lt x) (by simpa using h) hf))
  rw [rowXor_parity s r hp]
  have hcases : x % DATA_DISKS = 0 ∨ x % DATA_DISKS = 1 ∨ x % DATA_DISKS = 2 := by
    simp only [DATA_DISKS] at hj ⊢; omega
  rw [hD] at hf ⊢
  rcases hcases with h | h | h <;> rw [h] at hf ⊢
  · simp [hf, hok 1 (by decide) (by omega), hok 2 (by decide) (by omega)]
  · simp [hf, hok 0 (by decide) (by omega), hok 2 (by decide) (by omega)]
  · simp [hf, hok 0 (by decide) (by omega), hok 1 (by decide) (by omega)]

theorem raid0Write_spec {s : State} (hs : Healthy s) (hm : s.raidMode = .mode0) {lb : Nat}
    (hlb : lb < 512) (src : Block) :
    ∃ s', raid0Write s lb src = .ok s' ∧ SameFlags s s' ∧
      ∀ x, blockView s' x = if x = lb then src else blockView s x := by
  have hd : lb % NUM_DISKS < NUM_DISKS := Nat.mod_lt _ (by decide)
  have hb : lb / NUM_DISKS < DISK_BLOCKS := by simp only [NUM_DISKS, DISK_BLOCKS]; omega
  refine ⟨_, physWriteBlock_eq s hd hb src, sameFlags_putRow _ _ _ _, fun x => ?_⟩
  simp only [blockView, putRow_raidMode, hm, putRow_simDisk, hs _ hd, and_true]
  have hiff : (x % NUM_DISKS = lb % NUM_DISKS ∧ x / NUM_DISKS = lb / NUM_DISKS) ↔ x = lb := by
    simp only [NUM_DISKS]
    omega
  simp only [hiff]

theorem raid1Write_spec {s : State} (hs : OneFailed s) (hm : s.raidMode = .mode1) {lb : Nat}
    (hlb : lb < 512) (src : Block) :
    ∃ s', raid1Write s lb src = .ok s' ∧ SameFlags s s' ∧
      ∀ x, blockView s' x = if x = lb then src else blockView s x := by
  have h₀ := physWriteBlock_eq s (d := 0) (r := lb) (by decide) hlb src
  have h₁ := physWriteBlock_eq (putRow s 0 lb src) (d := 1) (r := lb) (by decide) hlb src
  simp only [Nat.cast_zero, Nat.cast_one] at h₀ h₁
  refine ⟨putRow (putRow s 0 lb src) 1 lb src, by simp [raid1Write, h₀, h₁],
    (sameFlags_putRow _ _ _ _).trans (sameFlags_putRow _ _ _ _), fun x => ?_⟩
  simp only [blockView, putRow_raidMode, hm, putRow_simDisk, putRow_diskFailed]
  by_cases f₀ : s.diskFailed 0 = true
  · -- reads come from the second mirror, which is healthy
    have f₁ : s.diskFailed 1 = false := by
      by_contra h
      have := hs 0 1 (by decide) (by decide) f₀ (by simpa using h)
      omega
    simp [f₀, f₁]
  · simp [f₀]

theorem raid5Write_spec {s : State} (hs : OneFailed s) (hm : s.raidMode = .mode5) {lb : Nat}
    (hlb : lb < 512) (src : Block) :
    ∃ s', raid5Write s lb src = .ok s' ∧ SameFlags s s' ∧
      ∀ x, blockView s' x = if Lost s lb x then zeroBlock else if x = lb then src
        else blockView s x := by
  refine ⟨_, raid5Write_eq s hlb src, (sameFlags_putRow _ _ _ _).trans (sameFlags_putRow _ _ _ _),
    fun x => ?_⟩
  set r := lb / DATA_DISKS with hr
  set s₁ := putRow s (disk5 lb) r src with hs₁
  set s₂ := putRow s₁ (raid5ParityDisk r) r (parityOf s₁ r) with hs₂
  have hmode : s₂.raidMode = .mode5 := by simp [hs₂, hs₁, hm]
  have hfail : s₂.diskFailed = s.diskFailed := by simp [hs₂, hs₁]
  rw [blockView_mode5 hmode, blockView_mode5 hm, hfail]
  by_cases hx : x / DATA_DISKS = r
  · -- the same stripe: a block on the failed disk is lost, the others are read from their disk
    have hsim : s₂.simDisk (disk5 x) r = s₁.simDisk (disk5 x) r := by
      rw [hs₂, putRow_simDisk, if_neg fun h => disk5_ne_parity x (by rw [hx]; exact h.1)]
    rw [hx, hsim]
    by_cases hf : s.diskFailed (disk5 x) = true
    · have hs' : OneFailed s₁ := by simpa [OneFailed, hs₁] using hs
      have hrow := rowXor_parity_failed hs' (x := x) (by simpa [hs₁] using hf)
      rw [hx, ← hs₂] at hrow
      rw [if_pos hf, if_pos ⟨hm, hx, hf⟩, hrow, xorBlock_self]
    · rw [if_neg hf, if_neg fun h => hf h.2.2, if_neg hf, hs₁, putRow_simDisk]
      by_cases hxx : x = lb
      · subst hxx
        simp [hf]
      · rw [if_neg fun h => hxx (disk5_inj (hx.trans hr) h.1), if_neg hxx]
  · -- another stripe: its row is not touched
    have hsim : ∀ d, s₂.simDisk d (x / DATA_DISKS) = s.simDisk d (x / DATA_DISKS) := by
      intro d
      rw [hs₂, putRow_simDisk, if_neg fun h => hx h.2.1, hs₁, putRow_simDisk,
        if_neg fun h => hx h.2.1]
    have hne : x ≠ lb := fun h => hx (by rw [h])
    have hl : ¬ Lost s lb x := fun h => hx h.2.1
    rw [if_neg hl, if_neg hne]
    simp only [hsim, rowXor]

/-- **A write sets its own block and keeps the others**, except the block of its stripe that
lies on a failed disk in RAID-5: that one reads as zeros. -/
theorem writeBlock_spec {s : State} (hs : Readable s) {lb : Nat} (hlb : lb < 512) (src : Block) :
    ∃ s', writeBlock s lb src = .ok s' ∧ SameFlags s s' ∧
      ∀ x, blockView s' x = if Lost s lb x then zeroBlock else if x = lb then src
        else blockView s x := by
  unfold writeBlock
  cases hm : s.raidMode with
  | mode0 =>
      obtain ⟨s', h, hf, hv⟩ := raid0Write_spec (hs.2 hm) hm hlb src
      exact ⟨s', h, hf, fun x => by simp [hv, Lost, hm]⟩
  | mode1 =>
      obtain ⟨s', h, hf, hv⟩ := raid1Write_spec hs.1 hm hlb src
      exact ⟨s', h, hf, fun x => by simp [hv, Lost, hm]⟩
  | mode5 => exact raid5Write_spec hs.1 hm hlb src

end Xv6.Raid
