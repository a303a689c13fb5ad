import Mathlib.Tactic
import Xv6.Fs.Defs

/-!
# Fs — Owned

Blocks that belong to one file.

A `Place` is where an inode names a block: one of its entries, or an entry of its indirect block.
`entry` is the block number at a place, by the inodes `D`; an inode that is locked counts as it is in
memory, before `iupdate` has put it on disk.

* `Owned`: no two places name the same block, and the blocks are in the data area and marked.
-/

namespace Xv6.Fs
open Xv6.Lib

variable {sb : Super} {disk disk' : Disk} {D : Nat → Dinode} {d : Dinode} {i b n : Nat} {a : Word}

/-! ### Parts of a block -/

theorem Block.bit_setBit (x : Block) (i j : Nat) (v : Bool) :
    (x.setBit i v).bit j = if j = i then v else x.bit j := by
  have hi : i % 32 < 32 := Nat.mod_lt _ (by decide)
  have hj : j % 32 < 32 := Nat.mod_lt _ (by decide)
  by_cases hw : j / 32 = i / 32
  · have hij : j = i ↔ i % 32 = j % 32 := by omega
    rw [Block.bit, Block.setBit, hw, Function.update_self, Block.bit, hw]
    cases v with
    | true =>
        rw [if_pos rfl, BitVec.getLsbD_or, BitVec.getLsbD_twoPow]
        by_cases h : i % 32 = j % 32
        · simp [hij, h, hj]
        · simp [hij, h]
    | false =>
        rw [if_neg Bool.false_ne_true, BitVec.getLsbD_and, BitVec.getLsbD_not, BitVec.getLsbD_twoPow]
        by_cases h : i % 32 = j % 32
        · simp [hij, h, hj]
        · simp [hij, h, hj]
  · have hij : j ≠ i := fun h => hw (by rw [h])
    rw [if_neg hij, Block.bit, Block.setBit, Function.update_of_ne hw, Block.bit]

theorem low_append (x y : BitVec 16) : (x ++ y).setWidth 16 = y := by
  refine BitVec.eq_of_getLsbD_eq fun i hi => ?_
  simp only [BitVec.getLsbD_setWidth, BitVec.getLsbD_append, hi, decide_true, Bool.true_and, if_true]

theorem high_append (x y : BitVec 16) : ((x ++ y) >>> 16).setWidth 16 = x := by
  refine BitVec.eq_of_getLsbD_eq fun i hi => ?_
  have hnot : ¬ 16 + i < 16 := Nat.not_lt.mpr (Nat.le_add_right ..)
  simp only [BitVec.getLsbD_setWidth, BitVec.getLsbD_ushiftRight, BitVec.getLsbD_append, hi,
    decide_true, Bool.true_and, if_neg hnot, Nat.add_sub_cancel_left]

theorem Block.dinode_setDinode (x : Block) (k j : Nat) (d : Dinode) :
    (x.setDinode k d).dinode j = if j = k then d else x.dinode j := by
  have hword : ∀ w, w < 16 → x.setDinode k d (16 * j + w) =
      if j = k then d.word w else x (16 * j + w) := by
    intro w hw
    have hdiv : (16 * j + w) / 16 = j := by omega
    have hmod : (16 * j + w) % 16 = w := by omega
    rw [Block.setDinode, hdiv, hmod]
  have haddr : ∀ e : Fin (NDIRECT + 1), x.setDinode k d (16 * j + 3 + e) =
      if j = k then d.addrs e else x (16 * j + 3 + e) := by
    intro e
    have he : e.val < 13 := e.isLt
    rw [Nat.add_assoc, hword (3 + e) (by omega)]
    have hslot : d.word (3 + e) = d.addrs e := by
      rw [Dinode.word, if_neg (by omega), if_neg (by omega), if_neg (by omega)]
      congr 1
      ext
      simp
    rw [hslot]
  have h0 := hword 0 (by decide)
  rw [Nat.add_zero] at h0
  by_cases hjk : j = k
  · rw [if_pos hjk] at h0 ⊢
    have hw0 : d.word 0 = d.major ++ d.type := rfl
    have hw1 : d.word 1 = d.nlink ++ d.minor := rfl
    have hw2 : d.word 2 = d.size := rfl
    simp only [Block.dinode, h0, hword 1 (by decide), hword 2 (by decide), haddr, if_pos hjk, hw0,
      hw1, hw2, low_append, high_append]
  · rw [if_neg hjk] at h0 ⊢
    simp only [Block.dinode, h0, hword 1 (by decide), hword 2 (by decide), haddr, if_neg hjk]

/-! ### The layout of the disk -/

/-- The first data block. -/
def Super.datastart (sb : Super) : Nat := sb.bmapstart + sb.size / BPB + 1

/-- The inode blocks come before the free map, and the free map before the data. -/
structure Super.Ok (sb : Super) : Prop where
  inodes : sb.inodestart + sb.ninodes / IPB + 1 ≤ sb.bmapstart
  data : sb.datastart ≤ sb.size
  small : sb.size < 2 ^ 31

theorem iblock_lt (h : sb.Ok) (hi : i < sb.ninodes) : iblock sb i < sb.bmapstart := by
  have hdiv : i / IPB ≤ sb.ninodes / IPB := Nat.div_le_div_right hi.le
  have := h.inodes
  simp only [iblock]
  omega

theorem bblock_ge (sb : Super) (b : Nat) : sb.bmapstart ≤ bblock sb b := Nat.le_add_left ..

theorem bblock_lt (hb : b < sb.size) : bblock sb b < sb.datastart := by
  have hdiv : b / BPB ≤ sb.size / BPB := Nat.div_le_div_right hb.le
  simp only [bblock, Super.datastart]
  omega

theorem datastart_gt (sb : Super) : sb.bmapstart < sb.datastart :=
  Nat.lt_succ_of_le (Nat.le_add_right ..)

theorem inUse_congr (h : disk' (bblock sb b) = disk (bblock sb b)) :
    inUse sb disk' b = inUse sb disk b := by
  rw [inUse, inUse, h]

theorem inUse_setInUse (sb : Super) (disk : Disk) (b n : Nat) (v : Bool) :
    inUse sb (setInUse sb disk b v) n = if n = b then v else inUse sb disk n := by
  by_cases hb : bblock sb n = bblock sb b
  · have hn : n % BPB = b % BPB ↔ n = b := by
      simp only [bblock, BPB, BSIZE] at *
      omega
    rw [inUse, setInUse, setBlock, hb, Function.update_self, Block.bit_setBit, inUse, hb]
    simp only [hn]
  · have hn : n ≠ b := fun h => hb (by rw [h])
    rw [if_neg hn]
    exact inUse_congr (Function.update_of_ne hb ..)

/-- The inodes on disk; those that are not there are free. -/
def dinodes (sb : Super) (disk : Disk) (i : Nat) : Dinode :=
  if i < sb.ninodes then dinodeAt sb disk i else newDinode 0

theorem dinodes_congr (h : sb.Ok) (hsame : ∀ k, k < sb.bmapstart → disk' k = disk k) :
    dinodes sb disk' = dinodes sb disk := by
  funext i
  by_cases hi : i < sb.ninodes
  · rw [dinodes, dinodes, if_pos hi, if_pos hi, dinodeAt, dinodeAt, hsame _ (iblock_lt h hi)]
  · rw [dinodes, dinodes, if_neg hi, if_neg hi]

theorem dinodes_iupdate (hi : i < sb.ninodes) (disk : Disk) (d : Dinode) :
    dinodes sb (iupdate sb disk i d) = Function.update (dinodes sb disk) i d := by
  funext k
  by_cases hk : k < sb.ninodes
  · by_cases hb : iblock sb k = iblock sb i
    · have hki : k % IPB = i % IPB ↔ k = i := by
        simp only [iblock, IPB] at *
        omega
      rw [dinodes, if_pos hk, dinodeAt, iupdate, setBlock, hb, Function.update_self,
        Block.dinode_setDinode]
      by_cases h : k = i
      · rw [if_pos (hki.mpr h), h, Function.update_self]
      · rw [if_neg (fun he => h (hki.mp he)), Function.update_of_ne h, dinodes, if_pos hk, dinodeAt, hb]
    · have h : k ≠ i := fun h => hb (by rw [h])
      rw [dinodes, if_pos hk, dinodeAt, iupdate, setBlock, Function.update_of_ne hb,
        Function.update_of_ne h, dinodes, if_pos hk, dinodeAt]
  · have h : k ≠ i := fun h => hk (h ▸ hi)
    rw [Function.update_of_ne h, dinodes, dinodes, if_neg hk, if_neg hk]

/-! ### Places -/

inductive Slot where
  | addr (j : Fin (NDIRECT + 1))
  | ind (j : Fin NINDIRECT)
  deriving DecidableEq

/-- A place of inode `i`. -/
abbrev Place := Nat × Slot

/-- The block number at a place; 0 when there is none. -/
def entry (D : Nat → Dinode) (disk : Disk) : Place → Word
  | (i, .addr j) => if (D i).type = 0 then 0 else (D i).addrs j
  | (i, .ind j) =>
    if (D i).type = 0 ∨ (D i).addrs indirectSlot = 0 then 0
    else disk ((D i).addrs indirectSlot).toNat j

/-- **Blocks belong to one file.** -/
structure Owned (sb : Super) (D : Nat → Dinode) (disk : Disk) : Prop where
  once : ∀ P Q, entry D disk P ≠ 0 → entry D disk P = entry D disk Q → P = Q
  data : ∀ P, entry D disk P ≠ 0 →
    sb.datastart ≤ (entry D disk P).toNat ∧ (entry D disk P).toNat < sb.size
  marked : ∀ P, entry D disk P ≠ 0 → inUse sb disk (entry D disk P).toNat = true
  reserved : ∀ b, b < sb.datastart → inUse sb disk b = true

/-- The indirect block of an inode in use is the block at one of its places. -/
theorem entry_indirect (ht : (D i).type ≠ 0) :
    entry D disk (i, .addr indirectSlot) = (D i).addrs indirectSlot := if_neg ht

/-- Block numbers depend on the inodes and the indirect blocks. -/
theorem entry_congr (h : ∀ i, (D i).type ≠ 0 → (D i).addrs indirectSlot ≠ 0 →
      disk' ((D i).addrs indirectSlot).toNat = disk ((D i).addrs indirectSlot).toNat) :
    entry D disk' = entry D disk := by
  funext P
  obtain ⟨i, j | j⟩ := P
  · rfl
  · by_cases hi : (D i).type = 0 ∨ (D i).addrs indirectSlot = 0
    · rw [entry, entry, if_pos hi, if_pos hi]
    · rw [entry, entry, if_neg hi, if_neg hi, h i (fun h0 => hi (Or.inl h0)) fun h0 => hi (Or.inr h0)]

theorem toNat_ne_zero (h : a ≠ 0) : a.toNat ≠ 0 := fun h0 => h (BitVec.eq_of_toNat_eq h0)

/-- A change of blocks that are not the data area's keeps the block numbers. -/
theorem Owned.entry_meta (h : Owned sb D disk) (hsame : ∀ k, sb.datastart ≤ k → disk' k = disk k) :
    entry D disk' = entry D disk := by
  refine entry_congr fun i ht hne => hsame _ ?_
  have hplace := h.data (i, .addr indirectSlot)
  rw [entry_indirect ht] at hplace
  exact (hplace hne).1

theorem nindirect_pos : 0 < NINDIRECT := by decide

/-- The entry of the indirect block for block `bn` of a file. -/
def indirectIndex (bn : Nat) : Fin NINDIRECT := ⟨(bn - NDIRECT) % NINDIRECT, Nat.mod_lt _ nindirect_pos⟩

/-- The slot of block `bn` of a file. -/
def slotOf (bn : Nat) : Slot :=
  if bn < NDIRECT then .addr (directSlot bn) else .ind (indirectIndex bn)

/-- The blocks that are there stay where they are, and those of data as they are. -/
structure Kept (D : Nat → Dinode) (disk : Disk) (D' : Nat → Dinode) (disk' : Disk) : Prop where
  entries : ∀ P, entry D disk P ≠ 0 → entry D' disk' P = entry D disk P
  blocks : ∀ P, entry D disk P ≠ 0 → P.2 ≠ .addr indirectSlot →
    disk' (entry D disk P).toNat = disk (entry D disk P).toNat

theorem Kept.refl (D : Nat → Dinode) (disk : Disk) : Kept D disk D disk :=
  ⟨fun _ _ => rfl, fun _ _ _ => rfl⟩

theorem Kept.trans {D₁ D₂ : Nat → Dinode} {disk₁ disk₂ : Disk} (h : Kept D disk D₁ disk₁)
    (h' : Kept D₁ disk₁ D₂ disk₂) : Kept D disk D₂ disk₂ := by
  have hne : ∀ P, entry D disk P ≠ 0 → entry D₁ disk₁ P ≠ 0 := fun P hP => (h.entries P hP).symm ▸ hP
  refine ⟨fun P hP => (h'.entries P (hne P hP)).trans (h.entries P hP), fun P hP hslot => ?_⟩
  have hb := h'.blocks P (hne P hP) hslot
  rw [h.entries P hP] at hb
  exact hb.trans (h.blocks P hP hslot)

/-! ### Rules -/

section Rules

variable {D' : Nat → Dinode}

/-- Places are given up, and no bit of a place that is kept is cleared. -/
theorem Owned.shrink (h : Owned sb D disk)
    (hle : ∀ P, entry D' disk' P = 0 ∨ entry D' disk' P = entry D disk P)
    (hbits : ∀ P, entry D' disk' P ≠ 0 → inUse sb disk' (entry D' disk' P).toNat = true)
    (hres : ∀ b, b < sb.datastart → inUse sb disk' b = true) : Owned sb D' disk' := by
  have hkept : ∀ P, entry D' disk' P ≠ 0 → entry D' disk' P = entry D disk P := fun P hP =>
    (hle P).resolve_left hP
  refine ⟨fun P Q hP hPQ => ?_, fun P hP => ?_, hbits, hres⟩
  · have hQ : entry D' disk' Q ≠ 0 := hPQ ▸ hP
    exact h.once P Q (hkept P hP ▸ hP) (by rw [← hkept P hP, hPQ, hkept Q hQ])
  · rw [hkept P hP]
    exact h.data P (hkept P hP ▸ hP)

/-- The block numbers stay. -/
theorem Owned.same (h : Owned sb D disk) (hsb : sb.Ok) (hE : entry D' disk' = entry D disk)
    (hbits : ∀ n, n < sb.size → inUse sb disk n = true → inUse sb disk' n = true) :
    Owned sb D' disk' := by
  refine h.shrink (fun P => Or.inr (by rw [hE])) (fun P hP => ?_) fun b hb =>
    hbits b (hb.trans_le hsb.data) (h.reserved b hb)
  rw [hE] at hP ⊢
  exact hbits _ (h.data P hP).2 (h.marked P hP)

/-- A place takes a block that none has. -/
theorem Owned.add (h : Owned sb D disk) (hsb : sb.Ok) {P : Place}
    (hE : entry D' disk' = Function.update (entry D disk) P a) (hnew : ∀ Q, entry D disk Q ≠ a)
    (hdata : sb.datastart ≤ a.toNat ∧ a.toNat < sb.size) (hmark : inUse sb disk a.toNat = true)
    (hbits : ∀ n, n < sb.size → inUse sb disk' n = inUse sb disk n) : Owned sb D' disk' := by
  refine ⟨fun Q R hQ hQR => ?_, fun Q hQ => ?_, fun Q hQ => ?_, fun b hb => ?_⟩
  · rw [hE] at hQ hQR
    by_cases hQP : Q = P
    · subst hQP
      by_contra hne
      rw [Function.update_self, Function.update_of_ne (Ne.symm hne)] at hQR
      exact hnew R hQR.symm
    · rw [Function.update_of_ne hQP] at hQ hQR
      by_cases hRP : R = P
      · subst hRP
        rw [Function.update_self] at hQR
        exact absurd hQR (hnew Q)
      · rw [Function.update_of_ne hRP] at hQR
        exact h.once Q R hQ hQR
  · rw [hE] at hQ ⊢
    by_cases hQP : Q = P
    · rwa [hQP, Function.update_self]
    · rw [Function.update_of_ne hQP] at hQ ⊢
      exact h.data Q hQ
  · rw [hE] at hQ ⊢
    by_cases hQP : Q = P
    · rw [hQP, Function.update_self, hbits _ hdata.2, hmark]
    · rw [Function.update_of_ne hQP] at hQ ⊢
      rw [hbits _ (h.data Q hQ).2, h.marked Q hQ]
  · rw [hbits b (hb.trans_le hsb.data), h.reserved b hb]

end Rules

/-! ### `balloc` -/

/-- A block that has been allocated and is not named anywhere yet. -/
structure Fresh (sb : Super) (D : Nat → Dinode) (disk : Disk) (a : Word) : Prop where
  ne : a ≠ 0
  data : sb.datastart ≤ a.toNat ∧ a.toNat < sb.size
  marked : inUse sb disk a.toNat = true
  unnamed : ∀ P, entry D disk P ≠ a
  zero : disk a.toNat = fun _ => 0

theorem balloc_spec (h : Owned sb D disk) (hsb : sb.Ok) : ∃ a disk', balloc sb disk = (a, disk') ∧
    Owned sb D disk' ∧ entry D disk' = entry D disk ∧ dinodes sb disk' = dinodes sb disk ∧
    (a ≠ 0 → Fresh sb D disk' a) ∧
    ∀ k, k ≠ a.toNat → sb.datastart ≤ k → disk' k = disk k := by
  cases hfind : (List.range sb.size).find? fun b => !inUse sb disk b with
  | none =>
      exact ⟨0, disk, by rw [balloc, hfind], h, rfl, rfl, fun hne => absurd rfl hne, fun _ _ _ => rfl⟩
  | some b =>
      have hb : b < sb.size := List.mem_range.mp (List.mem_of_find?_eq_some hfind)
      have hfree : inUse sb disk b = false := by simpa using List.find?_some hfind
      have hdata : sb.datastart ≤ b := by
        by_contra hlt
        rw [h.reserved b (not_le.mp hlt)] at hfree
        cases hfree
      have hnat : (BitVec.ofNat 32 b).toNat = b := by
        have := hsb.small
        rw [BitVec.toNat_ofNat]
        exact Nat.mod_eq_of_lt (by omega)
      let disk' := bzero (setInUse sb disk b true) b
      have hbits : ∀ n, n < sb.size → inUse sb disk' n = if n = b then true else inUse sb disk n := by
        intro n hn
        have hne : bblock sb n ≠ b := ((bblock_lt hn).trans_le hdata).ne
        rw [← inUse_setInUse]
        exact inUse_congr (Function.update_of_ne hne ..)
      have hblock : ∀ k, k ≠ b → k ≠ bblock sb b → disk' k = disk k := fun k hk hk' => by
        exact (Function.update_of_ne hk ..).trans (Function.update_of_ne hk' ..)
      -- an indirect block is marked, so it is another one
      have hE : entry D disk' = entry D disk := by
        refine entry_congr fun i ht hne => ?_
        have hplace := h.data (i, .addr indirectSlot)
        have hmark := h.marked (i, .addr indirectSlot)
        rw [entry_indirect ht] at hplace hmark
        refine hblock _ (fun heq => ?_) fun heq => ?_
        · rw [heq, hfree] at hmark
          cases hmark hne
        · have := bblock_lt hb
          have := (hplace hne).1
          omega
      have hD : dinodes sb disk' = dinodes sb disk := dinodes_congr hsb fun k hk => by
        have := datastart_gt sb
        have := bblock_ge sb b
        exact hblock k (by omega) (by omega)
      have hown : Owned sb D disk' := h.same hsb hE fun n hn hu => by rw [hbits n hn, hu, ite_self]
      refine ⟨BitVec.ofNat 32 b, disk', by rw [balloc, hfind], hown, hE, hD, fun hne => ⟨hne, ?_, ?_,
        fun P hP => ?_, ?_⟩, fun k hk hge => ?_⟩
      · rw [hnat]
        exact ⟨hdata, hb⟩
      · rw [hnat, hbits b hb, if_pos rfl]
      · rw [hE] at hP
        have hmark := h.marked P (hP ▸ hne)
        rw [hP, hnat, hfree] at hmark
        cases hmark
      · rw [hnat]
        exact Function.update_self ..
      · have := bblock_lt hb
        exact hblock k (hnat ▸ hk) (by omega)

/-! ### `bmap` -/

section Bmap

variable {j : Fin (NDIRECT + 1)}

theorem setAddr_self (d : Dinode) (j : Fin (NDIRECT + 1)) (a : Word) :
    (d.setAddr j a).addrs j = a := Function.update_self ..

theorem setAddr_ne (d : Dinode) {j k : Fin (NDIRECT + 1)} (h : k ≠ j) (a : Word) :
    (d.setAddr j a).addrs k = d.addrs k := Function.update_of_ne h ..

/-- An empty entry of an inode takes a fresh block. -/
theorem entry_setAddr (ht : (D i).type ≠ 0) (hz : (D i).addrs j = 0) (hfresh : Fresh sb D disk a) :
    entry (Function.update D i ((D i).setAddr j a)) disk =
      Function.update (entry D disk) (i, .addr j) a := by
  funext P
  obtain ⟨k, slot⟩ := P
  by_cases hk : k = i
  · subst hk
    have ht' : ((D k).setAddr j a).type ≠ 0 := ht
    cases slot with
    | addr e =>
        rw [entry, Function.update_self, if_neg ht']
        by_cases he : e = j
        · rw [he, setAddr_self, Function.update_self]
        · rw [setAddr_ne _ he, Function.update_of_ne (by simp [he]), entry, if_neg ht]
    | ind e =>
        rw [Function.update_of_ne (by simp), entry, Function.update_self]
        by_cases hj : indirectSlot = j
        · -- the indirect block is new, and empty
          subst hj
          have hnot : ¬ (((D k).setAddr indirectSlot a).type = 0 ∨
              ((D k).setAddr indirectSlot a).addrs indirectSlot = 0) := by
            rw [setAddr_self]
            exact not_or.mpr ⟨ht, hfresh.ne⟩
          rw [if_neg hnot, setAddr_self, hfresh.zero, entry, if_pos (Or.inr hz)]
        · rw [setAddr_ne _ hj]
          rfl
  · have hne : ((k, slot) : Place) ≠ (i, .addr j) := fun h => hk (congrArg Prod.fst h)
    rw [Function.update_of_ne hne]
    cases slot with
    | addr e => rw [entry, entry, Function.update_of_ne hk]
    | ind e => rw [entry, entry, Function.update_of_ne hk]

theorem Owned.setAddr (h : Owned sb D disk) (hsb : sb.Ok) (ht : (D i).type ≠ 0)
    (hz : (D i).addrs j = 0) (hfresh : Fresh sb D disk a) :
    Owned sb (Function.update D i ((D i).setAddr j a)) disk :=
  h.add hsb (entry_setAddr ht hz hfresh) hfresh.unnamed hfresh.data hfresh.marked fun _ _ => rfl

/-- A write to a block of the data area leaves the free map and the inodes alone. -/
theorem setBlock_data (hsb : sb.Ok) (hb : sb.datastart ≤ b) (x : Block) :
    (∀ n, n < sb.size → inUse sb (setBlock disk b x) n = inUse sb disk n) ∧
      dinodes sb (setBlock disk b x) = dinodes sb disk := by
  constructor
  · exact fun n hn => inUse_congr (Function.update_of_ne ((bblock_lt hn).trans_le hb).ne ..)
  · refine dinodes_congr hsb fun k hk => Function.update_of_ne ?_ ..
    have := datastart_gt sb
    omega

/-- An empty entry of an indirect block takes a fresh block. -/
theorem Owned.setInd (h : Owned sb D disk) (hsb : sb.Ok) (ht : (D i).type ≠ 0)
    (hi : (D i).addrs indirectSlot ≠ 0) {e : Fin NINDIRECT} (hfresh : Fresh sb D disk a) :
    Owned sb D (setBlock disk ((D i).addrs indirectSlot).toNat
      (Function.update (disk ((D i).addrs indirectSlot).toNat) e a)) ∧
    entry D (setBlock disk ((D i).addrs indirectSlot).toNat
      (Function.update (disk ((D i).addrs indirectSlot).toNat) e a)) =
        Function.update (entry D disk) (i, .ind e) a := by
  have hplace := h.data (i, .addr indirectSlot)
  rw [entry_indirect ht] at hplace
  have hE : entry D (setBlock disk ((D i).addrs indirectSlot).toNat
      (Function.update (disk ((D i).addrs indirectSlot).toNat) e a)) =
        Function.update (entry D disk) (i, .ind e) a := by
    funext P
    obtain ⟨k, slot⟩ := P
    cases slot with
    | addr f =>
        rw [Function.update_of_ne (by simp)]
        rfl
    | ind f =>
        by_cases hin : (D k).type = 0 ∨ (D k).addrs indirectSlot = 0
        · have hne : ((k, .ind f) : Place) ≠ (i, .ind e) := fun hki => by
            cases hki
            exact hin.elim ht hi
          rw [Function.update_of_ne hne, entry, entry, if_pos hin, if_pos hin]
        · obtain ⟨htk, hik⟩ := not_or.mp hin
          by_cases hk : k = i
          · subst hk
            rw [entry, if_neg hin, setBlock, Function.update_self]
            by_cases hf : f = e
            · rw [hf, Function.update_self, Function.update_self]
            · rw [Function.update_of_ne (fun hv => hf (Fin.ext hv)),
                Function.update_of_ne (by simp [hf]), entry, if_neg hin]
          · -- two inodes have two indirect blocks
            have hne : ((D k).addrs indirectSlot).toNat ≠ ((D i).addrs indirectSlot).toNat := by
              intro heq
              have := h.once (k, .addr indirectSlot) (i, .addr indirectSlot)
              rw [entry_indirect htk, entry_indirect ht] at this
              exact hk (congrArg Prod.fst (this hik (BitVec.eq_of_toNat_eq heq)))
            rw [Function.update_of_ne (by simp [hk]), entry, entry, if_neg hin, if_neg hin, setBlock,
              Function.update_of_ne hne]
  exact ⟨h.add hsb hE hfresh.unnamed hfresh.data hfresh.marked
    (setBlock_data hsb (hplace hi).1 _).1, hE⟩

theorem directSlot_val {bn : Nat} (h : bn < NDIRECT) : (directSlot bn).val = bn :=
  Nat.mod_eq_of_lt (h.trans (Nat.lt_succ_self _))

theorem directSlot_ne {bn : Nat} (h : bn < NDIRECT) : directSlot bn ≠ indirectSlot := fun heq =>
  h.ne ((directSlot_val h).symm.trans (congrArg Fin.val heq))

/-- `d'` is `d` with other blocks. -/
def SameFields (d d' : Dinode) : Prop := d' = { d with addrs := d'.addrs }

theorem SameFields.refl (d : Dinode) : SameFields d d := rfl

theorem SameFields.trans {d₁ d₂ : Dinode} (h : SameFields d d₁) (h' : SameFields d₁ d₂) :
    SameFields d d₂ := by
  rw [SameFields] at *
  rw [h', h]

theorem SameFields.type_eq {d' : Dinode} (h : SameFields d d') : d'.type = d.type := by rw [h]

theorem SameFields.size_eq {d' : Dinode} (h : SameFields d d') : d'.size = d.size := by rw [h]

/-- What `bmap` leaves, when inode `i` is `d` in memory. -/
structure Mapped (sb : Super) (D : Nat → Dinode) (disk disk' : Disk) (i : Nat) (d d' : Dinode) :
    Prop where
  owned : Owned sb (Function.update D i d') disk'
  inodes : dinodes sb disk' = dinodes sb disk
  fields : SameFields d d'

theorem Mapped.trans {disk₁ disk₂ : Disk} {d₁ d₂ : Dinode} (h : Mapped sb D disk disk₁ i d d₁)
    (h' : Mapped sb D disk₁ disk₂ i d₁ d₂) : Mapped sb D disk disk₂ i d d₂ :=
  ⟨h'.owned, h'.inodes.trans h.inodes, h.fields.trans h'.fields⟩

/-- A fresh block at an empty place keeps what is there. -/
theorem Kept.add {D' : Nat → Dinode} {P : Place} (hz : entry D disk P = 0)
    (hE : entry D' disk' = Function.update (entry D disk) P a)
    (hblocks : ∀ Q, entry D disk Q ≠ 0 → Q.2 ≠ .addr indirectSlot →
      disk' (entry D disk Q).toNat = disk (entry D disk Q).toNat) : Kept D disk D' disk' := by
  refine ⟨fun Q hQ => ?_, hblocks⟩
  have hne : Q ≠ P := fun h => hQ (by rw [h, hz])
  rw [hE, Function.update_of_ne hne]

/-- A block that is there is not the one that has been allocated. -/
theorem Fresh.other {disk₁ : Disk} (hfresh : Fresh sb D disk₁ a) (h : Owned sb D disk)
    (hE : entry D disk₁ = entry D disk)
    (hframe : ∀ k, k ≠ a.toNat → sb.datastart ≤ k → disk₁ k = disk k) (P : Place)
    (hP : entry D disk P ≠ 0) : disk₁ (entry D disk P).toNat = disk (entry D disk P).toNat := by
  refine hframe _ (fun heq => hfresh.unnamed P ?_) (h.data P hP).1
  rw [hE]
  exact BitVec.eq_of_toNat_eq heq

theorem bmapSlot_spec (h : Owned sb (Function.update D i d) disk) (hsb : sb.Ok) (ht : d.type ≠ 0)
    (j : Fin (NDIRECT + 1)) : ∃ a disk' d', bmapSlot sb disk d j = (a, disk', d') ∧
      Mapped sb D disk disk' i d d' ∧
      Kept (Function.update D i d) disk (Function.update D i d') disk' ∧ (a ≠ 0 → d'.addrs j = a) ∧
      (a = 0 → d.addrs j = 0) ∧ (d.addrs j ≠ 0 → disk' = disk ∧ d' = d) := by
  by_cases hz : d.addrs j = 0
  · obtain ⟨a, disk', hrun, hown, hE, hD, hfresh, hframe⟩ := balloc_spec h hsb
    rw [bmapSlot, if_pos hz, hrun]
    have hself : Function.update D i d i = d := Function.update_self ..
    by_cases ha : a = 0
    · have hkept : Kept (Function.update D i d) disk (Function.update D i d) disk' := by
        refine ⟨fun P _ => by rw [hE], fun P hP _ => hframe _ ?_ (h.data P hP).1⟩
        rw [ha]
        exact toNat_ne_zero hP
      exact ⟨0, disk', d, if_pos ha, ⟨hown, hD, .refl d⟩, hkept, fun hne => absurd rfl hne, fun _ => hz,
        fun hne => absurd hz hne⟩
    · have hset := hown.setAddr (i := i) (j := j) hsb (by rwa [hself]) (by rwa [hself]) (hfresh ha)
      have hentry := entry_setAddr (i := i) (j := j) (by rwa [hself]) (by rwa [hself]) (hfresh ha)
      rw [hself, Function.update_idem] at hset hentry
      rw [hE] at hentry
      have hempty : entry (Function.update D i d) disk (i, .addr j) = 0 := by
        rw [entry, hself, hz, ite_self]
      exact ⟨a, disk', d.setAddr j a, if_neg ha, ⟨hset, hD, rfl⟩,
        .add hempty hentry fun Q hQ _ => (hfresh ha).other h hE hframe Q hQ,
        fun _ => setAddr_self .., fun h0 => absurd h0 ha, fun hne => absurd hz hne⟩
  · exact ⟨d.addrs j, disk, d, if_neg hz, ⟨h, rfl, .refl d⟩, .refl _ _, fun _ => rfl,
      fun h0 => absurd h0 hz, fun _ => ⟨rfl, rfl⟩⟩

theorem slotOf_direct {bn : Nat} (h : bn < NDIRECT) : slotOf bn = .addr (directSlot bn) := if_pos h

theorem slotOf_ind {bn : Nat} (h : ¬ bn < NDIRECT) :
    slotOf bn = .ind (indirectIndex bn) := if_neg h

theorem slotOf_ne (bn : Nat) : slotOf bn ≠ .addr indirectSlot := by
  by_cases h : bn < NDIRECT
  · rw [slotOf_direct h]
    exact fun heq => directSlot_ne h (Slot.addr.inj heq)
  · rw [slotOf_ind h]
    exact fun heq => by cases heq

/-- **`bmap`** of block `bn` of the file. -/
theorem bmap_spec (h : Owned sb (Function.update D i d) disk) (hsb : sb.Ok) (ht : d.type ≠ 0)
    {bn : Nat} (hbn : bn < MAXFILE) : ∃ a disk' d', bmap sb disk d bn = .ok (a, disk', d') ∧
      Mapped sb D disk disk' i d d' ∧
      Kept (Function.update D i d) disk (Function.update D i d') disk' ∧
      (a ≠ 0 → entry (Function.update D i d') disk' (i, slotOf bn) = a) ∧
      (a = 0 → entry (Function.update D i d) disk (i, slotOf bn) = 0) ∧
      (entry (Function.update D i d) disk (i, slotOf bn) ≠ 0 → disk' = disk ∧ d' = d) := by
  have hself : Function.update D i d i = d := Function.update_self ..
  by_cases hdir : bn < NDIRECT
  · obtain ⟨a, disk', d', hrun, hmap, hkept, hslot, hnone, hsame⟩ :=
      bmapSlot_spec h hsb ht (directSlot bn)
    have hE : entry (Function.update D i d) disk (i, slotOf bn) = d.addrs (directSlot bn) := by
      rw [slotOf_direct hdir, entry, hself, if_neg ht]
    refine ⟨a, disk', d', by rw [bmap, if_pos hdir, hrun], hmap, hkept, fun ha => ?_, fun ha => ?_,
      fun hne => hsame (hE ▸ hne)⟩
    · have ht' : d'.type ≠ 0 := hmap.fields.type_eq.symm ▸ ht
      rw [slotOf_direct hdir, entry, Function.update_self, if_neg ht', hslot ha]
    · rw [hE, hnone ha]
  · have hind : bn - NDIRECT < NINDIRECT := by
      simp only [MAXFILE] at hbn
      omega
    let e : Fin NINDIRECT := indirectIndex bn
    have he : e.val = bn - NDIRECT := Nat.mod_eq_of_lt hind
    obtain ⟨ind, disk₁, d₁, hrun, hmap, hkept, hslot, hnone, hsame⟩ :=
      bmapSlot_spec h hsb ht indirectSlot
    have ht₁ : d₁.type ≠ 0 := hmap.fields.type_eq.symm ▸ ht
    have hview : Function.update D i d₁ i = d₁ := Function.update_self ..
    have hzero : d.addrs indirectSlot = 0 → entry (Function.update D i d) disk (i, .ind e) = 0 :=
      fun h0 => by rw [entry, hself, if_pos (Or.inr h0)]
    -- an entry that is there is found through the same indirect block
    have hthere : entry (Function.update D i d) disk (i, .ind e) ≠ 0 → disk₁ = disk ∧ d₁ = d ∧
        entry (Function.update D i d) disk (i, .ind e) = disk (d.addrs indirectSlot).toNat e := by
      intro hne
      have h0 : d.addrs indirectSlot ≠ 0 := fun h0 => hne (hzero h0)
      refine ⟨(hsame h0).1, (hsame h0).2, ?_⟩
      rw [entry, hself, if_neg (not_or.mpr ⟨ht, h0⟩)]
    rw [bmap, if_neg hdir, if_pos hind, hrun, show slotOf bn = .ind e from slotOf_ind hdir, ← he]
    by_cases h0 : ind = 0
    · exact ⟨0, disk₁, d₁, if_pos h0, hmap, hkept, fun hne => absurd rfl hne, fun _ => hzero (hnone h0),
        fun hne => ⟨(hthere hne).1, (hthere hne).2.1⟩⟩
    · have haddr : d₁.addrs indirectSlot = ind := hslot h0
      have hnot : ¬ (d₁.type = 0 ∨ d₁.addrs indirectSlot = 0) := not_or.mpr ⟨ht₁, haddr ▸ h0⟩
      have hE₁ : entry (Function.update D i d₁) disk₁ (i, .ind e) = disk₁ ind.toNat e := by
        rw [entry, hview, if_neg hnot, haddr]
      by_cases hz : disk₁ ind.toNat e = 0
      · have hempty : entry (Function.update D i d) disk (i, .ind e) = 0 := by
          by_contra hne
          rw [← hkept.entries _ hne, hE₁] at hne
          exact hne hz
        obtain ⟨a, disk₂, hrun₂, hown₂, hE₂, hD₂, hfresh, hframe⟩ := balloc_spec hmap.owned hsb
        simp only [if_neg h0, if_pos hz, hrun₂]
        by_cases ha : a = 0
        · have hkept₂ : Kept (Function.update D i d₁) disk₁ (Function.update D i d₁) disk₂ := by
            refine ⟨fun P _ => by rw [hE₂], fun P hP _ => hframe _ ?_ (hmap.owned.data P hP).1⟩
            rw [ha]
            exact toNat_ne_zero hP
          exact ⟨0, disk₂, d₁, if_pos ha, ⟨hown₂, hD₂.trans hmap.inodes, hmap.fields⟩,
            hkept.trans hkept₂, fun hne => absurd rfl hne, fun _ => hempty, fun hne => absurd hempty hne⟩
        · have hset := hown₂.setInd (i := i) hsb (by rwa [hview]) (by rw [hview]; exact haddr ▸ h0)
            (e := e) (hfresh ha)
          rw [hview, haddr] at hset
          have hdata := hown₂.data (i, .addr indirectSlot)
          have hplace : entry (Function.update D i d₁) disk₂ (i, .addr indirectSlot) = ind := by
            rw [entry_indirect (by rwa [hview]), hview, haddr]
          rw [hplace] at hdata
          have hkept₂ : Kept (Function.update D i d₁) disk₁ (Function.update D i d₁)
              (setBlock disk₂ ind.toNat (Function.update (disk₂ ind.toNat) e a)) := by
            refine .add (hE₁.trans hz) (by rw [hset.2, hE₂]) fun Q hQ hslotQ => ?_
            rw [setBlock, Function.update_of_ne fun heq => hslotQ ?_]
            · exact (hfresh ha).other hmap.owned hE₂ hframe Q hQ
            · -- only the indirect block is at that place
              rw [← hE₂] at hQ heq
              have hQP := hown₂.once Q (i, .addr indirectSlot) hQ
                ((BitVec.eq_of_toNat_eq heq).trans hplace.symm)
              exact congrArg Prod.snd hQP
          refine ⟨a, _, d₁, if_neg ha, ⟨hset.1, ?_, hmap.fields⟩, hkept.trans hkept₂, fun _ => ?_,
            fun h0' => absurd h0' ha, fun hne => absurd hempty hne⟩
          · exact ((setBlock_data hsb (hdata h0).1 _).2.trans hD₂).trans hmap.inodes
          · rw [hset.2, Function.update_self]
      · exact ⟨_, disk₁, d₁, by simp only [if_neg h0, if_neg hz], hmap, hkept, fun _ => hE₁,
          fun h0' => absurd h0' hz, fun hne => ⟨(hthere hne).1, (hthere hne).2.1⟩⟩

end Bmap

/-! ### `writei` -/

/-- A write to a data block of a file changes no block number: an indirect block is at another
place. -/
theorem Owned.entry_setData (h : Owned sb D disk) {slot : Slot} (hslot : slot ≠ .addr indirectSlot)
    (ha : entry D disk (i, slot) = a) (x : Block) :
    entry D (setBlock disk a.toNat x) = entry D disk := by
  refine entry_congr fun k ht hk => Function.update_of_ne (fun heq => ?_) ..
  have hsame : entry D disk (k, .addr indirectSlot) = entry D disk (i, slot) := by
    rw [entry_indirect ht, ha]
    exact BitVec.eq_of_toNat_eq heq
  have hP := h.once (k, .addr indirectSlot) (i, slot) (by rwa [entry_indirect ht]) hsame
  exact hslot (congrArg Prod.snd hP).symm

theorem Owned.setData (h : Owned sb D disk) (hsb : sb.Ok) {slot : Slot}
    (hslot : slot ≠ .addr indirectSlot) (ha : entry D disk (i, slot) = a) (hne : a ≠ 0) (x : Block) :
    Owned sb D (setBlock disk a.toNat x) := by
  have hdata := (ha ▸ h.data (i, slot)) (ha ▸ hne)
  have hbits : ∀ n, n < sb.size → inUse sb (setBlock disk a.toNat x) n = inUse sb disk n :=
    (setBlock_data hsb hdata.1 x).1
  exact h.same hsb (h.entry_setData hslot ha x) fun n hn hu => by rwa [hbits n hn]

theorem writeiLoop_spec (hsb : sb.Ok) (src : Source) : ∀ (turns : Nat) (disk : Disk) (d : Dinode)
    (off left tot : Nat), left < turns → off + left ≤ MAXFILE * BSIZE →
    Owned sb (Function.update D i d) disk → d.type ≠ 0 →
    ∃ x disk' d', writeiLoop sb src turns disk d off left tot = .ok (x, disk', d') ∧
      Mapped sb D disk disk' i d d' := by
  intro turns
  induction turns with
  | zero => exact fun _ _ _ _ _ hlt => absurd hlt (Nat.not_lt_zero _)
  | succ turns ih =>
      intro disk d off left tot hlt hmax h ht
      rw [writeiLoop]
      by_cases h0 : left = 0
      · exact ⟨_, disk, d, if_pos h0, h, rfl, .refl d⟩
      · have hbn : off / BSIZE < MAXFILE := by
          simp only [MAXFILE, NDIRECT, NINDIRECT, BSIZE] at *
          omega
        obtain ⟨a, disk₁, d₁, hrun, hmap, -, hplace, -⟩ := bmap_spec h hsb ht hbn
        simp only [if_neg h0, hrun, ok_bind]
        by_cases ha : a = 0
        · exact ⟨_, disk₁, d₁, if_pos ha, hmap⟩
        · have hE := hplace ha
          have hslot := slotOf_ne (off / BSIZE)
          have hdata := (hE ▸ hmap.owned.data (i, slotOf (off / BSIZE))) (hE ▸ ha)
          let disk₂ := setBlock disk₁ a.toNat ((disk₁ a.toNat).store (off % BSIZE)
            ((src tot).1.take (min left (BSIZE - off % BSIZE))))
          have hmap₂ : Mapped sb D disk disk₂ i d d₁ := ⟨hmap.owned.setData hsb hslot hE ha _,
            (setBlock_data hsb hdata.1 _).2.trans hmap.inodes, hmap.fields⟩
          simp only [if_neg ha]
          cases hok : (src tot).2 with
          | false => exact ⟨_, disk₂, d₁, rfl, hmap₂⟩
          | true =>
              have hpos : 0 < min left (BSIZE - off % BSIZE) := by
                have := Nat.mod_lt off (show 0 < BSIZE by decide)
                omega
              obtain ⟨x, disk₃, d₃, hrun₃, hmap₃⟩ := ih disk₂ d₁ (off + min left (BSIZE - off % BSIZE))
                (left - min left (BSIZE - off % BSIZE)) (tot + min left (BSIZE - off % BSIZE))
                (by omega) (by omega) hmap₂.owned (hmap.fields.type_eq.symm ▸ ht)
              exact ⟨x, disk₃, d₃, hrun₃, hmap₂.trans hmap₃⟩

/-- `iupdate` leaves the free map and the data alone. -/
theorem Owned.iupdate (h : Owned sb D disk) (hsb : sb.Ok) (hi : i < sb.ninodes) (d : Dinode) :
    Owned sb D (iupdate sb disk i d) := by
  have hlt := iblock_lt hsb hi
  refine h.same hsb (h.entry_meta fun k hk => Function.update_of_ne ?_ ..) fun n _ hu => ?_
  · have := datastart_gt sb
    omega
  · have hne : bblock sb n ≠ iblock sb i := by
      have := bblock_ge sb n
      omega
    rwa [inUse_congr (show Fs.iupdate sb disk i d (bblock sb n) = _ from Function.update_of_ne hne ..)]

/-- A file has been written to: its inode is `d'` now, on disk and in memory. -/
structure Updated (sb : Super) (disk disk' : Disk) (i : Nat) (d' : Dinode) : Prop where
  inodes : dinodes sb disk' = Function.update (dinodes sb disk) i d'
  owned : Owned sb (dinodes sb disk') disk'

theorem Owned.updated (h : Owned sb (Function.update (dinodes sb disk) i d) disk) (hsb : sb.Ok)
    (hi : i < sb.ninodes) : Updated sb disk (Fs.iupdate sb disk i d) i d := by
  have hD := dinodes_iupdate hi disk d
  refine ⟨hD, ?_⟩
  rw [hD]
  exact h.iupdate hsb hi d

theorem iupdate_data (hsb : sb.Ok) (hi : i < sb.ninodes) (d : Dinode) {k : Nat}
    (hk : sb.datastart ≤ k) : Fs.iupdate sb disk i d k = disk k := by
  refine Function.update_of_ne ?_ ..
  have := iblock_lt hsb hi
  have := datastart_gt sb
  omega

theorem entry_size (d : Dinode) (w : Word) :
    entry (Function.update D i { d with size := w }) disk = entry (Function.update D i d) disk := by
  funext P
  obtain ⟨k, slot⟩ := P
  by_cases hk : k = i
  · subst hk
    cases slot with
    | addr j => rw [entry, entry, Function.update_self, Function.update_self]
    | ind j => rw [entry, entry, Function.update_self, Function.update_self]
  · cases slot with
    | addr j => rw [entry, entry, Function.update_of_ne hk, Function.update_of_ne hk]
    | ind j => rw [entry, entry, Function.update_of_ne hk, Function.update_of_ne hk]

section AtRest

variable (h : Owned sb (dinodes sb disk) disk) (hsb : sb.Ok) (hi : i < sb.ninodes)
  (hd : dinodes sb disk i = d) (ht : d.type ≠ 0)

include h hsb hi hd ht

/-- **`writei`** keeps every block with its file. -/
theorem writei_spec (src : Source) (off n : Nat) : ∃ res disk' d',
    writei sb disk i d src off n = .ok (res, disk', d') ∧ Updated sb disk disk' i d' ∧
      d'.type ≠ 0 := by
  have hself : Function.update (dinodes sb disk) i d = dinodes sb disk := by
    rw [← hd, Function.update_eq_self]
  have hown : Owned sb (Function.update (dinodes sb disk) i d) disk := by rwa [hself]
  by_cases hbad : off > d.size.toNat ∨ off + n ≥ 2 ^ 32
  · exact ⟨none, disk, d, if_pos hbad, ⟨hself.symm, h⟩, ht⟩
  · by_cases hbig : off + n > MAXFILE * BSIZE
    · exact ⟨none, disk, d, by rw [writei, if_neg hbad, if_pos hbig], ⟨hself.symm, h⟩, ht⟩
    · obtain ⟨x, disk₁, d₁, hrun, hmap⟩ := writeiLoop_spec hsb src (n + 1) disk d off n 0
        (Nat.lt_succ_self n) (not_lt.mp hbig) hown ht
      obtain ⟨d₂, hd₂, hent, ht₂⟩ : ∃ d₂, (if x.2 > d₁.size.toNat then
          { d₁ with size := BitVec.ofNat 32 x.2 } else d₁) = d₂ ∧
          entry (Function.update (dinodes sb disk) i d₂) disk₁ =
            entry (Function.update (dinodes sb disk) i d₁) disk₁ ∧ d₂.type = d.type := by
        by_cases hsz : x.2 > d₁.size.toNat
        · exact ⟨_, if_pos hsz, entry_size .., hmap.fields.type_eq⟩
        · exact ⟨d₁, if_neg hsz, rfl, hmap.fields.type_eq⟩
      have hown₂ : Owned sb (Function.update (dinodes sb disk₁) i d₂) disk₁ := by
        rw [hmap.inodes]
        exact hmap.owned.same hsb hent fun _ _ hu => hu
      have hup := hown₂.updated hsb hi
      refine ⟨some x.1, Fs.iupdate sb disk₁ i d₂, d₂, ?_, ⟨?_, hup.owned⟩, ht₂.symm ▸ ht⟩
      · rw [writei, if_neg hbad, if_neg hbig, hrun, ok_bind, ← hd₂]
        rfl
      · rw [hup.inodes, hmap.inodes]

end AtRest

end Xv6.Fs
