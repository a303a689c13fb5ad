import Xv6.Fs.Owned

/-!
# Fs — Contents

What `readi` reads and `writei` writes, byte by byte.

The block of a file at byte `x` is the one at the place `slotOf (x / BSIZE)`; while a file is written
to, the blocks it has keep their places (`Kept`), so that the bytes that are not written stay.

* `bmap_kept`: what `bmap` leaves alone.
* `writeiLoop_contents`: the bytes after `writei`, also when it is stopped.
* `readi_spec`: a file all of whose blocks are there is read in full.
-/

namespace Xv6.Fs
open Xv6.Lib

variable {sb : Super} {disk disk' : Disk} {D : Nat → Dinode} {d d' : Dinode} {i n : Nat} {a : Word}

/-! ### Bytes of a block -/

theorem ones_byte (k : Nat) : (0xFF : Word).getLsbD k = decide (k < 8) := by
  by_cases hk : k < 32
  · interval_cases k <;> rfl
  · rw [BitVec.getLsbD_of_ge _ _ (not_lt.mp hk)]
    exact (decide_eq_false (by omega)).symm

theorem byte_insert (w : Word) (b : BitVec 8) {p r : Nat} (hp : p < 4) (hr : r < 4) :
    ((w &&& ~~~((0xFF : Word) <<< (8 * p)) ||| b.setWidth 32 <<< (8 * p)) >>> (8 * r)).setWidth 8 =
      if r = p then b else (w >>> (8 * r)).setWidth 8 := by
  refine BitVec.eq_of_getLsbD_eq fun i hi => ?_
  have hlt : 8 * r + i < 32 := by omega
  by_cases h : r = p
  · subst h
    simp only [BitVec.getLsbD_setWidth, BitVec.getLsbD_ushiftRight, BitVec.getLsbD_or,
      BitVec.getLsbD_and, BitVec.getLsbD_not, BitVec.getLsbD_shiftLeft, ones_byte, hi, hlt, if_true,
      Nat.add_sub_cancel_left, decide_true, Bool.true_and, Nat.not_lt.mpr (Nat.le_add_right ..),
      decide_false, Bool.not_false, Bool.not_true, Bool.and_false, Bool.false_or]
    rw [decide_eq_true (by omega : i < 32), Bool.true_and]
  · rw [if_neg h]
    simp only [BitVec.getLsbD_setWidth, BitVec.getLsbD_ushiftRight, BitVec.getLsbD_or,
      BitVec.getLsbD_and, BitVec.getLsbD_not, BitVec.getLsbD_shiftLeft, ones_byte, hi, hlt,
      decide_true, Bool.true_and]
    rcases Nat.lt_or_gt_of_ne h with hlt' | hgt
    · have hbelow : 8 * r + i < 8 * p := by omega
      simp [hbelow]
    · have habove : ¬ 8 * r + i < 8 * p := by omega
      have hfar : ¬ 8 * r + i - 8 * p < 8 := by omega
      simp [habove, hfar, BitVec.getLsbD_of_ge b _ (not_lt.mp hfar)]

theorem Block.byte_setByte (x : Block) (k j : Nat) (b : BitVec 8) :
    (x.setByte k b).byte j = if j = k then b else x.byte j := by
  rw [Block.byte, Block.setByte]
  by_cases hw : j / 4 = k / 4
  · rw [hw, Function.update_self, byte_insert _ _ (Nat.mod_lt _ (by decide)) (Nat.mod_lt _ (by decide)),
      Block.byte, hw]
    have hjk : j % 4 = k % 4 ↔ j = k := by omega
    simp only [hjk]
  · have hjk : j ≠ k := fun h => hw (by rw [h])
    rw [Function.update_of_ne hw, if_neg hjk, Block.byte]

/-- The bytes after `memmove`. -/
theorem Block.byte_store : ∀ (l : List (BitVec 8)) (x : Block) (off j : Nat),
    (x.store off l).byte j =
      if off ≤ j ∧ j < off + l.length then l.getD (j - off) 0 else x.byte j := by
  intro l
  induction l with
  | nil =>
      intro x off j
      rw [if_neg (by simp), Block.store]
  | cons b l ih =>
      intro x off j
      rw [Block.store, ih, Block.byte_setByte, List.length_cons]
      by_cases hj : j = off
      · rw [if_neg (by omega), if_pos hj, if_pos (by omega), hj, Nat.sub_self]
        rfl
      · rw [if_neg hj]
        by_cases hin : off + 1 ≤ j ∧ j < off + 1 + l.length
        · obtain ⟨k, rfl⟩ : ∃ k, j = off + k + 1 := ⟨j - off - 1, by omega⟩
          rw [if_pos hin, if_pos (by omega), show off + k + 1 - (off + 1) = k by omega,
            show off + k + 1 - off = k + 1 by omega, List.getD_cons_succ]
        · rw [if_neg hin, if_neg (by omega)]

/-! ### Bytes of a file -/

/-- Block `bn` of file `i` is there. -/
def HasBlock (D : Nat → Dinode) (disk : Disk) (i bn : Nat) : Prop := entry D disk (i, slotOf bn) ≠ 0

/-- Byte `x` of file `i`. -/
def fileByte (D : Nat → Dinode) (disk : Disk) (i x : Nat) : BitVec 8 :=
  (disk (entry D disk (i, slotOf (x / BSIZE))).toNat).byte (x % BSIZE)

theorem slotOf_inj {b c : Nat} (hb : b < MAXFILE) (hc : c < MAXFILE) (h : slotOf b = slotOf c) :
    b = c := by
  by_cases hbd : b < NDIRECT
  · rw [slotOf_direct hbd] at h
    by_cases hcd : c < NDIRECT
    · rw [slotOf_direct hcd] at h
      have := congrArg Fin.val (Slot.addr.inj h)
      rwa [directSlot_val hbd, directSlot_val hcd] at this
    · rw [slotOf_ind hcd] at h
      cases h
  · rw [slotOf_ind hbd] at h
    by_cases hcd : c < NDIRECT
    · rw [slotOf_direct hcd] at h
      cases h
    · rw [slotOf_ind hcd] at h
      have hval := congrArg Fin.val (Slot.ind.inj h)
      simp only [indirectIndex, MAXFILE] at hval hb hc
      rw [Nat.mod_eq_of_lt (by omega), Nat.mod_eq_of_lt (by omega)] at hval
      omega

/-- The blocks that are there keep their bytes. -/
theorem Kept.fileByte {D' : Nat → Dinode} (h : Kept D disk D' disk') {x : Nat}
    (hx : HasBlock D disk i (x / BSIZE)) : fileByte D' disk' i x = fileByte D disk i x := by
  rw [Fs.fileByte, Fs.fileByte, h.entries _ hx, h.blocks _ hx (slotOf_ne _)]

theorem Kept.hasBlock {D' : Nat → Dinode} (h : Kept D disk D' disk') {bn : Nat}
    (hbn : HasBlock D disk i bn) : HasBlock D' disk' i bn := by
  rw [HasBlock, h.entries _ hbn]
  exact hbn

/-! ### Copying in -/

/-- How far the turn at `t` goes in a write of `n` bytes at `off`. -/
def turn (off n t : Nat) : Nat := min (n - t) (BSIZE - (off + t) % BSIZE)

/-- `either_copyin` of `bytes`, of which `limit` can be read. -/
def copyin (bytes : Nat → BitVec 8) (limit off n : Nat) : Source := fun t =>
  ((List.range (min (turn off n t) (limit - t))).map fun j => bytes (t + j),
    decide (t + turn off n t ≤ limit))

variable {bytes : Nat → BitVec 8} {limit off t t' k : Nat}

theorem copyin_take : ((copyin bytes limit off n t).1.take (turn off n t)) =
    (List.range (min (turn off n t) (limit - t))).map fun j => bytes (t + j) := by
  refine List.take_of_length_le ?_
  rw [copyin, List.length_map, List.length_range]
  exact Nat.min_le_left ..

/-- **What has been written**: the bytes from `t` to `t'`, and `k` more in the block where the copy
failed.  The others are as they were. -/
structure Wrote (D : Nat → Dinode) (disk : Disk) (D' : Nat → Dinode) (disk' : Disk) (i : Nat)
    (bytes : Nat → BitVec 8) (off t t' k : Nat) : Prop where
  entries : ∀ P, entry D disk P ≠ 0 → entry D' disk' P = entry D disk P
  there : ∀ x, off + t ≤ x → x < off + t' → HasBlock D' disk' i (x / BSIZE)
  byte : ∀ x, x < MAXFILE * BSIZE →
    HasBlock D disk i (x / BSIZE) ∨ (off + t ≤ x ∧ x < off + t') →
    fileByte D' disk' i x =
      if off + t ≤ x ∧ x < off + t' + k then bytes (x - off) else fileByte D disk i x

theorem Wrote.hasBlock {D' : Nat → Dinode} {bn : Nat} (h : Wrote D disk D' disk' i bytes off t t' k)
    (hbn : HasBlock D disk i bn) : HasBlock D' disk' i bn := by
  rw [HasBlock, h.entries _ hbn]
  exact hbn

theorem Wrote.of_kept {D' : Nat → Dinode} (h : Kept D disk D' disk') :
    Wrote D disk D' disk' i bytes off t t 0 := by
  refine ⟨h.entries, fun x hle hlt => absurd hlt (by omega), fun x _ hx => ?_⟩
  rw [if_neg (by omega)]
  exact h.fileByte (hx.resolve_right (by omega))

theorem Wrote.trans {D₁ D₂ : Nat → Dinode} {disk₁ disk₂ : Disk} {t₁ t₂ : Nat}
    (h : Wrote D disk D₁ disk₁ i bytes off t t₁ 0) (ht : t ≤ t₁)
    (h' : Wrote D₁ disk₁ D₂ disk₂ i bytes off t₁ t₂ k) (ht' : t₁ ≤ t₂) :
    Wrote D disk D₂ disk₂ i bytes off t t₂ k := by
  refine ⟨fun P hP => ?_, fun x hle hlt => ?_, fun x hmax hx => ?_⟩
  · have h₁ := h.entries P hP
    rw [h'.entries P (h₁.symm ▸ hP), h₁]
  · by_cases hx : x < off + t₁
    · exact h'.hasBlock (h.there x hle hx)
    · exact h'.there x (by omega) hlt
  · have hx₁ : HasBlock D₁ disk₁ i (x / BSIZE) ∨ (off + t₁ ≤ x ∧ x < off + t₂) := by
      rcases hx with hx | ⟨hle, hlt⟩
      · exact Or.inl (h.hasBlock hx)
      · by_cases hx : x < off + t₁
        · exact Or.inl (h.there x hle hx)
        · exact Or.inr ⟨by omega, hlt⟩
    rw [h'.byte x hmax hx₁]
    by_cases hin : off + t₁ ≤ x ∧ x < off + t₂ + k
    · rw [if_pos hin, if_pos (by omega)]
    · rw [if_neg hin]
      have hx₀ : HasBlock D disk i (x / BSIZE) ∨ (off + t ≤ x ∧ x < off + t₁) := by
        rcases hx with hx | hx
        · exact Or.inl hx
        · exact Or.inr ⟨hx.1, by omega⟩
      rw [h.byte x hmax hx₀]
      by_cases hin₁ : off + t ≤ x ∧ x < off + t₁ + 0
      · rw [if_pos hin₁, if_pos (by omega)]
      · rw [if_neg hin₁, if_neg (by omega)]

/-- A write of `l` to block `bn` of the file. -/
theorem fileByte_setBlock (h : Owned sb D disk) {bn o x : Nat} {l : List (BitVec 8)}
    (hbn : bn < MAXFILE) (ha : entry D disk (i, slotOf bn) = a)
    (hx : x < MAXFILE * BSIZE) (hhas : HasBlock D disk i (x / BSIZE)) :
    fileByte D (setBlock disk a.toNat ((disk a.toNat).store o l)) i x =
      if x / BSIZE = bn ∧ o ≤ x % BSIZE ∧ x % BSIZE < o + l.length then l.getD (x % BSIZE - o) 0
      else fileByte D disk i x := by
  have hent : entry D (setBlock disk a.toNat ((disk a.toNat).store o l)) = entry D disk :=
    h.entry_setData (slotOf_ne bn) ha _
  rw [fileByte, hent, fileByte]
  by_cases hb : x / BSIZE = bn
  · rw [hb, ha, setBlock, Function.update_self, Block.byte_store]
    simp only [true_and]
  · have hother : (entry D disk (i, slotOf (x / BSIZE))).toNat ≠ a.toNat := by
      intro heq
      have hP := h.once _ (i, slotOf bn) hhas ((BitVec.eq_of_toNat_eq heq).trans ha.symm)
      exact hb (slotOf_inj (Nat.div_lt_of_lt_mul (by rwa [Nat.mul_comm])) hbn (congrArg Prod.snd hP))
    rw [setBlock, Function.update_of_ne hother, if_neg fun hin => hb hin.1]

/-! ### `writei` -/

/-- Why a write has stopped at `t`, with `k` bytes copied in vain. -/
inductive Stopped (D : Nat → Dinode) (disk : Disk) (i limit off n t k : Nat) : Prop where
  | done (ht : t = n) (hk : k = 0)
  | full (ht : t < n) (hk : k = 0) (hnone : ¬ HasBlock D disk i ((off + t) / BSIZE))
  | fault (ht : t < n) (hlim : limit < t + turn off n t) (hk : k = limit - t)

theorem turn_pos (off : Nat) (h : t < n) : 0 < turn off n t := by
  have := Nat.mod_lt (off + t) (show 0 < BSIZE by decide)
  rw [turn]
  omega

theorem turn_le (off : Nat) (h : t ≤ n) : t + turn off n t ≤ n := by
  rw [turn]
  omega

/-- A turn stays within one block. -/
theorem turn_block {x : Nat} (hle : off + t ≤ x) (hlt : x < off + t + turn off n t) :
    x / BSIZE = (off + t) / BSIZE := by
  have := Nat.mod_lt (off + t) (show 0 < BSIZE by decide)
  simp only [turn, BSIZE] at *
  omega

/-- The bytes of one turn. -/
theorem wrote_turn (h : Owned sb D disk) {m : Nat} (hbn : (off + t) / BSIZE < MAXFILE)
    (ha : entry D disk (i, slotOf ((off + t) / BSIZE)) = a) (hne : a ≠ 0) (hm : m ≤ turn off n t)
    {t₁ k : Nat} (ht₁ : t₁ + k = t + m) :
    Wrote D disk D (setBlock disk a.toNat ((disk a.toNat).store ((off + t) % BSIZE)
      ((List.range m).map fun j => bytes (t + j)))) i bytes off t t₁ k := by
  have hhas : HasBlock D disk i ((off + t) / BSIZE) := by rwa [HasBlock, ha]
  have hin : ∀ x, off + t ≤ x → x < off + t + m → x / BSIZE = (off + t) / BSIZE := fun x hx hlt =>
    turn_block (n := n) hx (by omega)
  refine ⟨fun P _ => by rw [h.entry_setData (slotOf_ne _) ha], fun x hx hlt => ?_, fun x hmax hx => ?_⟩
  · rw [HasBlock, h.entry_setData (slotOf_ne _) ha, hin x hx (by omega)]
    exact hhas
  · have hx : HasBlock D disk i (x / BSIZE) := by
      rcases hx with hx | ⟨hge, hlt⟩
      · exact hx
      · rwa [hin x hge (by omega)]
    have hlen : ((List.range m).map fun j => bytes (t + j)).length = m := by simp
    rw [fileByte_setBlock h hbn ha hmax hx, hlen]
    by_cases hreg : off + t ≤ x ∧ x < off + t + m
    · have hb := hin x hreg.1 hreg.2
      have hmod : (off + t) % BSIZE ≤ x % BSIZE ∧ x % BSIZE - (off + t) % BSIZE = x - (off + t) := by
        simp only [BSIZE] at *
        omega
      rw [if_pos ⟨hb, hmod.1, by omega⟩, if_pos (by omega), hmod.2]
      have hj : x - (off + t) < m := by omega
      simp only [List.getD_eq_getElem?_getD, List.getElem?_map, List.getElem?_range hj, Option.map_some,
        Option.getD_some]
      congr 1
      omega
    · have hout : ¬ (x / BSIZE = (off + t) / BSIZE ∧ (off + t) % BSIZE ≤ x % BSIZE ∧
          x % BSIZE < (off + t) % BSIZE + m) := by
        simp only [BSIZE] at *
        omega
      rw [if_neg hout, if_neg (by omega)]

/-- The same source, except that a copy that fails copies nothing. -/
def Source.kept (src : Source) : Source := fun t => if (src t).2 then src t else ([], false)

/-- A copy that failed has torn block `bn`: but for its bytes, the disk is `disk₀`. -/
def Torn (D : Nat → Dinode) (disk₀ disk' : Disk) (i bn : Nat) : Prop :=
  disk' = disk₀ ∨ (HasBlock D disk₀ i bn ∧
    ∀ b, b ≠ (entry D disk₀ (i, slotOf bn)).toNat → disk' b = disk₀ b)

/-- What the loop of `writei` leaves when it goes from `t` to `t'`. -/
structure LoopEnd (sb : Super) (D : Nat → Dinode) (disk : Disk) (i : Nat) (d : Dinode)
    (bytes : Nat → BitVec 8) (limit off n t t' k : Nat) (disk' disk₀ : Disk) (d' : Dinode) : Prop where
  mapped : Mapped sb D disk disk' i d d'
  wrote : Wrote (Function.update D i d) disk (Function.update D i d') disk' i bytes off t t' k
  mapped₀ : Mapped sb D disk disk₀ i d d'
  wrote₀ : Wrote (Function.update D i d) disk (Function.update D i d') disk₀ i bytes off t t' 0
  torn : Torn (Function.update D i d') disk₀ disk' i ((off + t') / BSIZE)
  stopped : Stopped (Function.update D i d) disk i limit off n t' k
  ge : t ≤ t'
  le : t' ≤ n
  le_limit : t' ≤ limit
  bound : t' = n ∨ t' = 0 ∨ (off + t') % BSIZE = 0

/-- A turn before the rest of the loop. -/
theorem LoopEnd.cons {disk₁ disk₂ disk₀ : Disk} {d₁ d₂ : Dinode} {t₁ : Nat}
    (hmap : Mapped sb D disk disk₁ i d d₁)
    (hw : Wrote (Function.update D i d) disk (Function.update D i d₁) disk₁ i bytes off t t₁ 0)
    (ht : t ≤ t₁) (h : LoopEnd sb D disk₁ i d₁ bytes limit off n t₁ t' k disk₂ disk₀ d₂) :
    LoopEnd sb D disk i d bytes limit off n t t' k disk₂ disk₀ d₂ := by
  refine ⟨hmap.trans h.mapped, hw.trans ht h.wrote h.ge, hmap.trans h.mapped₀, hw.trans ht h.wrote₀ h.ge,
    h.torn, ?_, ht.trans h.ge, h.le, h.le_limit, h.bound⟩
  cases h.stopped with
  | done ht' hk => exact .done ht' hk
  | full ht' hk hno => exact .full ht' hk fun hb => hno (hw.hasBlock hb)
  | fault ht' hl hk => exact .fault ht' hl hk

/-- **The loop of `writei`**, byte by byte. -/
theorem writeiLoop_contents (hsb : sb.Ok) (bytes : Nat → BitVec 8) (limit off n : Nat) :
    ∀ (turns : Nat) (disk : Disk) (d : Dinode) (t : Nat), n - t < turns → off + n ≤ MAXFILE * BSIZE →
    t ≤ n → t ≤ limit → t = n ∨ t = 0 ∨ (off + t) % BSIZE = 0 →
    Owned sb (Function.update D i d) disk → d.type ≠ 0 →
    ∃ t' k disk' disk₀ d', writeiLoop sb (copyin bytes limit off n) turns disk d (off + t) (n - t) t =
        .ok ((t', off + t'), disk', d') ∧
      writeiLoop sb (copyin bytes limit off n).kept turns disk d (off + t) (n - t) t =
        .ok ((t', off + t'), disk₀, d') ∧
      LoopEnd sb D disk i d bytes limit off n t t' k disk' disk₀ d' := by
  intro turns
  induction turns with
  | zero => exact fun _ _ _ hlt => absurd hlt (Nat.not_lt_zero _)
  | succ turns ih =>
      intro disk d t hturns hmax ht hlim hstart h htype
      rw [writeiLoop, writeiLoop]
      by_cases h0 : n - t = 0
      · have hn : t = n := by omega
        have hw : Wrote (Function.update D i d) disk (Function.update D i d) disk i bytes off t t 0 :=
          .of_kept (.refl _ _)
        exact ⟨t, 0, disk, disk, d, if_pos h0, if_pos h0, ⟨h, rfl, .refl d⟩, hw, ⟨h, rfl, .refl d⟩, hw,
          Or.inl rfl, .done hn rfl, le_refl t, ht, hlim, Or.inl hn⟩
      · have hlt : t < n := by omega
        have hbn : (off + t) / BSIZE < MAXFILE :=
          Nat.div_lt_of_lt_mul (by rw [Nat.mul_comm]; omega)
        obtain ⟨a, disk₁, d₁, hrun, hmap, hkept, hplace, hnone, -⟩ := bmap_spec h hsb htype hbn
        have hw₀ : Wrote (Function.update D i d) disk (Function.update D i d₁) disk₁ i bytes off t t 0 :=
          .of_kept hkept
        simp only [if_neg h0, hrun, ok_bind]
        by_cases ha : a = 0
        · exact ⟨t, 0, disk₁, disk₁, d₁, if_pos ha, if_pos ha, hmap, hw₀, hmap, hw₀, Or.inl rfl,
            .full hlt rfl fun hb => hb (hnone ha), le_refl t, ht, hlim, hstart⟩
        · have hE := hplace ha
          have hm : min (n - t) (BSIZE - (off + t) % BSIZE) = turn off n t := rfl
          simp only [if_neg ha, hm]
          let m := min (turn off n t) (limit - t)
          let disk₂ := setBlock disk₁ a.toNat ((disk₁ a.toNat).store ((off + t) % BSIZE)
            ((List.range m).map fun j => bytes (t + j)))
          have hdata := (hE ▸ hmap.owned.data (i, slotOf ((off + t) / BSIZE))) (hE ▸ ha)
          have hmap₂ : Mapped sb D disk disk₂ i d d₁ := ⟨hmap.owned.setData hsb (slotOf_ne _) hE ha _,
            (setBlock_data hsb hdata.1 _).2.trans hmap.inodes, hmap.fields⟩
          by_cases hok : t + turn off n t ≤ limit
          · have hflag : (copyin bytes limit off n t).2 = true := decide_eq_true hok
            have hsame : (copyin bytes limit off n).kept t = copyin bytes limit off n t := if_pos hflag
            have hmt : m = turn off n t := Nat.min_eq_left (by omega)
            have hw₁ : Wrote (Function.update D i d₁) disk₁ (Function.update D i d₁) disk₂ i bytes off t
                (t + turn off n t) 0 := wrote_turn (n := n) hmap.owned hbn hE ha hmt.le
              (show t + turn off n t + 0 = t + m by rw [hmt]; rfl)
            have hpos := turn_pos off hlt
            have hle := turn_le off ht
            have hbound : t + turn off n t = n ∨ t + turn off n t = 0 ∨
                (off + (t + turn off n t)) % BSIZE = 0 := by
              simp only [turn, BSIZE] at *
              omega
            obtain ⟨t', k, disk₃, disk₀, d₃, hrun₃, hrun₀, hend⟩ :=
              ih disk₂ d₁ (t + turn off n t) (by omega) hmax hle hok hbound hmap₂.owned
                (hmap.fields.type_eq.symm ▸ htype)
            have hleft : n - t - turn off n t = n - (t + turn off n t) := Nat.sub_sub ..
            simp only [hsame, copyin_take, hflag, Bool.not_true, Bool.false_eq_true, if_false,
              Nat.add_assoc, hleft]
            exact ⟨t', k, disk₃, disk₀, d₃, hrun₃, hrun₀,
              hend.cons hmap₂ (hw₀.trans (le_refl t) hw₁ (Nat.le_add_right ..)) (Nat.le_add_right ..)⟩
          · have hflag : (copyin bytes limit off n t).2 = false := decide_eq_false hok
            have hvain : (copyin bytes limit off n).kept t = ([], false) := by
              rw [Source.kept, hflag]
              rfl
            have hw₁ : Wrote (Function.update D i d₁) disk₁ (Function.update D i d₁) disk₂ i bytes off t t
                (limit - t) := wrote_turn (n := n) hmap.owned hbn hE ha (Nat.min_le_left ..) (by omega)
            have hback : setBlock disk₁ a.toNat (disk₁ a.toNat) = disk₁ := Function.update_eq_self ..
            simp only [hvain, copyin_take, hflag, Bool.not_false, if_true, List.take_nil, Block.store, hback]
            refine ⟨t, limit - t, disk₂, disk₁, d₁, rfl, rfl, hmap₂, hw₀.trans (le_refl t) hw₁ (le_refl t),
              hmap, hw₀, Or.inr ⟨by rwa [HasBlock, hE], fun b hb => ?_⟩, .fault hlt (by omega) rfl, le_refl t,
              ht, hlim, hstart⟩
            rw [hE] at hb
            exact Function.update_of_ne hb ..

/-- A file has all the blocks below its size. -/
structure Whole (D : Nat → Dinode) (disk : Disk) (i : Nat) : Prop where
  blocks : ∀ x, x < (D i).size.toNat → HasBlock D disk i (x / BSIZE)
  small : (D i).size.toNat ≤ MAXFILE * BSIZE

/-- A change that leaves the data area and the block numbers alone. -/
theorem Wrote.elsewhere {D₁ D₂ : Nat → Dinode} {disk₁ disk₂ : Disk}
    (h : Wrote D disk D₁ disk₁ i bytes off t t' k) (hown : Owned sb D₁ disk₁)
    (hE : entry D₂ disk₂ = entry D₁ disk₁) (hsame : ∀ k, sb.datastart ≤ k → disk₂ k = disk₁ k) :
    Wrote D disk D₂ disk₂ i bytes off t t' k := by
  have hhas : ∀ bn, HasBlock D₂ disk₂ i bn ↔ HasBlock D₁ disk₁ i bn := fun bn => by
    rw [HasBlock, HasBlock, hE]
  refine ⟨fun P hP => by rw [hE, h.entries P hP], fun x hle hlt => (hhas _).mpr (h.there x hle hlt),
    fun x hmax hx => ?_⟩
  have hx₁ : HasBlock D₁ disk₁ i (x / BSIZE) := by
    rcases hx with hx | ⟨hle, hlt⟩
    · exact h.hasBlock hx
    · exact h.there x hle hlt
  rw [← h.byte x hmax hx, fileByte, fileByte, hE, hsame _ (hown.data _ hx₁).1]

section AtRest

variable (h : Owned sb (dinodes sb disk) disk) (hsb : sb.Ok) (hi : i < sb.ninodes)
  (hd : dinodes sb disk i = d) (ht : d.type ≠ 0)

include h hsb hi hd ht

/-- What `writei` leaves. -/
structure WriteEnd (sb : Super) (disk : Disk) (i : Nat) (bytes : Nat → BitVec 8) (off t k : Nat)
    (disk' : Disk) (d' : Dinode) : Prop where
  updated : Updated sb disk disk' i d'
  wrote : Wrote (dinodes sb disk) disk (dinodes sb disk') disk' i bytes off 0 t k
  whole : Whole (dinodes sb disk') disk' i

omit h hd ht in
/-- The inode that has gone to the disk names the same blocks. -/
theorem entry_iupdate {disk₁ : Disk} {d₁ d₂ : Dinode} (hmap : Mapped sb (dinodes sb disk) disk disk₁ i d d₁)
    (hent : ∀ X, entry (Function.update (dinodes sb disk) i d₂) X =
      entry (Function.update (dinodes sb disk) i d₁) X) :
    Updated sb disk (iupdate sb disk₁ i d₂) i d₂ ∧
    entry (dinodes sb (iupdate sb disk₁ i d₂)) (iupdate sb disk₁ i d₂) =
      entry (Function.update (dinodes sb disk) i d₁) disk₁ := by
  have hown : Owned sb (Function.update (dinodes sb disk) i d₂) disk₁ :=
    hmap.owned.same hsb (hent disk₁) fun _ _ hu => hu
  have hup := (hmap.inodes.symm ▸ hown).updated hsb hi
  have hD : dinodes sb (iupdate sb disk₁ i d₂) = Function.update (dinodes sb disk) i d₂ :=
    hup.inodes.trans (by rw [hmap.inodes])
  refine ⟨⟨hD, hup.owned⟩, ?_⟩
  rw [hD, ← hent]
  exact hown.entry_meta fun _ hk => iupdate_data hsb hi d₂ hk

omit h hd ht in
/-- The inode goes to the disk, with the new size. -/
theorem writeEnd_of_loop {disk₁ : Disk} {d₁ d₂ : Dinode} (hmap : Mapped sb (dinodes sb disk) disk disk₁ i d d₁)
    (hw : Wrote (dinodes sb disk) disk (Function.update (dinodes sb disk) i d₁) disk₁ i bytes off 0 t k)
    (hent : ∀ X, entry (Function.update (dinodes sb disk) i d₂) X =
      entry (Function.update (dinodes sb disk) i d₁) X)
    (hd : dinodes sb disk i = d) (hoff : off ≤ d.size.toNat)
    (hsz : d₂.size.toNat = max d.size.toNat (off + t)) (hmax : off + t ≤ MAXFILE * BSIZE)
    (hwhole : Whole (dinodes sb disk) disk i) :
    WriteEnd sb disk i bytes off t k (iupdate sb disk₁ i d₂) d₂ := by
  obtain ⟨hup, hE⟩ := entry_iupdate hsb hi hmap hent
  have hw₂ := hw.elsewhere hmap.owned hE fun _ hk => iupdate_data hsb hi d₂ hk
  have hself₂ : dinodes sb (iupdate sb disk₁ i d₂) i = d₂ := by
    rw [hup.inodes, Function.update_self]
  refine ⟨hup, hw₂, fun x hx => ?_, ?_⟩
  · rw [hself₂, hsz] at hx
    by_cases hx' : x < d.size.toNat
    · exact hw₂.hasBlock (hwhole.blocks x (hd.symm ▸ hx'))
    · exact hw₂.there x (by omega) (by omega)
  · have := hwhole.small
    rw [hd] at this
    rw [hself₂, hsz]
    omega

/-- **`writei`** that is not refused, byte by byte: with what a failed copy leaves, and without. -/
theorem writei_contents (bytes : Nat → BitVec 8) (limit : Nat) (hoff : off ≤ d.size.toNat)
    (hwrap : off + n < 2 ^ 32) (hmax : off + n ≤ MAXFILE * BSIZE)
    (hwhole : Whole (dinodes sb disk) disk i) :
    ∃ t k disk' disk₀ d', writei sb disk i d (copyin bytes limit off n) off n = .ok (some t, disk', d') ∧
      writei sb disk i d (copyin bytes limit off n).kept off n = .ok (some t, disk₀, d') ∧
      WriteEnd sb disk i bytes off t k disk' d' ∧ WriteEnd sb disk i bytes off t 0 disk₀ d' ∧
      Torn (dinodes sb disk₀) disk₀ disk' i ((off + t) / BSIZE) ∧
      Stopped (dinodes sb disk) disk i limit off n t k ∧ t ≤ n ∧ t ≤ limit ∧
      (t = n ∨ t = 0 ∨ (off + t) % BSIZE = 0) ∧ d'.type = d.type ∧
      d'.size.toNat = max d.size.toNat (off + t) := by
  have hself : Function.update (dinodes sb disk) i d = dinodes sb disk := by
    rw [← hd, Function.update_eq_self]
  obtain ⟨t, k, disk₁, disk₀, d₁, hrun, hrun₀, hend⟩ :=
    writeiLoop_contents hsb bytes limit off n (n + 1) disk d 0 (by omega) hmax (Nat.zero_le n)
      (Nat.zero_le _) (Or.inr (Or.inl rfl)) (by rwa [hself]) ht
  have hw := hend.wrote
  have hw₀ := hend.wrote₀
  have hstop := hend.stopped
  rw [hself] at hw hw₀ hstop
  have htn := hend.le
  have hsize := hend.mapped.fields.size_eq
  obtain ⟨d₂, hd₂, hent, ht₂, hsz⟩ : ∃ d₂, (if off + t > d₁.size.toNat then
      { d₁ with size := BitVec.ofNat 32 (off + t) } else d₁) = d₂ ∧
      (∀ X, entry (Function.update (dinodes sb disk) i d₂) X =
        entry (Function.update (dinodes sb disk) i d₁) X) ∧ d₂.type = d₁.type ∧
      d₂.size.toNat = max d.size.toNat (off + t) := by
    by_cases hgt : off + t > d₁.size.toNat
    · refine ⟨_, if_pos hgt, fun _ => entry_size .., rfl, ?_⟩
      rw [hsize] at hgt
      rw [BitVec.toNat_ofNat, Nat.mod_eq_of_lt (by omega)]
      omega
    · refine ⟨d₁, if_neg hgt, fun _ => rfl, rfl, ?_⟩
      rw [hsize] at hgt ⊢
      omega
  have hbad : ¬ (off > d.size.toNat ∨ off + n ≥ 2 ^ 32) := by omega
  have hbig : ¬ off + n > MAXFILE * BSIZE := not_lt.mpr hmax
  simp only [Nat.add_zero, Nat.sub_zero] at hrun hrun₀
  refine ⟨t, k, iupdate sb disk₁ i d₂, iupdate sb disk₀ i d₂, d₂, ?_, ?_,
    writeEnd_of_loop hsb hi hend.mapped hw hent hd hoff hsz (by omega) hwhole,
    writeEnd_of_loop hsb hi hend.mapped₀ hw₀ hent hd hoff hsz (by omega) hwhole, ?_, hstop, htn,
    hend.le_limit, hend.bound, ht₂.trans hend.mapped.fields.type_eq, hsz⟩
  · rw [writei, if_neg hbad, if_neg hbig, hrun, ok_bind, ← hd₂]
    rfl
  · rw [writei, if_neg hbad, if_neg hbig, hrun₀, ok_bind, ← hd₂]
    rfl
  · -- the torn block is not the one of the inode
    have hE := (entry_iupdate hsb hi hend.mapped₀ hent).2
    rcases hend.torn with heq | ⟨hhas, hother⟩
    · exact Or.inl (by rw [heq])
    · have hdata := (hend.mapped₀.owned.data _ hhas).1
      refine Or.inr ⟨by rwa [HasBlock, hE], fun b hb => ?_⟩
      rw [hE] at hb
      have hne : iblock sb i ≠ (entry (Function.update (dinodes sb disk) i d₁) disk₀
          (i, slotOf ((off + t) / BSIZE))).toNat := by
        have := iblock_lt hsb hi
        have := datastart_gt sb
        omega
      by_cases hib : b = iblock sb i
      · rw [hib, iupdate, iupdate, setBlock, setBlock, Function.update_self, Function.update_self,
          hother _ hne]
      · rw [iupdate, iupdate, setBlock, setBlock, Function.update_of_ne hib, Function.update_of_ne hib,
          hother b hb]

end AtRest

/-! ### `readi` -/

/-- The bytes of file `i` from `off` on. -/
def fileBytes (D : Nat → Dinode) (disk : Disk) (i off n : Nat) : List (BitVec 8) :=
  (List.range n).map fun j => fileByte D disk i (off + j)

theorem fileBytes_add (D : Nat → Dinode) (disk : Disk) (i off m n : Nat) :
    fileBytes D disk i off (m + n) = fileBytes D disk i off m ++ fileBytes D disk i (off + m) n := by
  rw [fileBytes, List.range_add, List.map_append, List.map_map]
  simp only [fileBytes, Function.comp_def, Nat.add_assoc]

/-- The bytes of one turn come from one block. -/
theorem load_eq {m : Nat} (ha : entry D disk (i, slotOf (off / BSIZE)) = a)
    (hm : m ≤ BSIZE - off % BSIZE) :
    (disk a.toNat).load (off % BSIZE) m = fileBytes D disk i off m := by
  refine List.map_congr_left fun j hj => ?_
  have hj := List.mem_range.mp hj
  have hdiv : (off + j) / BSIZE = off / BSIZE := by
    simp only [BSIZE] at *
    omega
  have hmod : (off + j) % BSIZE = off % BSIZE + j := by
    simp only [BSIZE] at *
    omega
  rw [fileByte, hdiv, hmod, ha]

theorem readiLoop_spec (h : Owned sb D disk) (hsb : sb.Ok) (hd : D i = d) (ht : d.type ≠ 0) :
    ∀ (turns off left tot : Nat) (out : List (BitVec 8)), left < turns →
    off + left ≤ MAXFILE * BSIZE → (∀ x, x < off + left → HasBlock D disk i (x / BSIZE)) →
    readiLoop sb (fun _ => true) turns disk d off left tot out =
      .ok ((some (tot + left), out ++ fileBytes D disk i off left), disk, d) := by
  have hself : Function.update D i d = D := by rw [← hd, Function.update_eq_self]
  intro turns
  induction turns with
  | zero => exact fun _ _ _ _ hlt => absurd hlt (Nat.not_lt_zero _)
  | succ turns ih =>
      intro off left tot out hlt hmax hblocks
      rw [readiLoop]
      by_cases h0 : left = 0
      · subst h0
        simp [fileBytes]
      · have hbn : off / BSIZE < MAXFILE := Nat.div_lt_of_lt_mul (by rw [Nat.mul_comm]; omega)
        have hb : HasBlock D disk i (off / BSIZE) := hblocks off (by omega)
        obtain ⟨a, disk₁, d₁, hrun, -, -, hplace, hnone, hthere⟩ :=
          bmap_spec (D := D) (i := i) (by rwa [hself]) hsb ht hbn
        rw [hself] at hnone hthere
        obtain ⟨rfl, rfl⟩ := hthere hb
        have ha : a ≠ 0 := fun h0 => hb (hnone h0)
        have hE := hplace ha
        rw [hself] at hE
        have hm : min left (BSIZE - off % BSIZE) ≤ left := Nat.min_le_left ..
        have hload := load_eq (m := min left (BSIZE - off % BSIZE)) hE (Nat.min_le_right ..)
        have hsplit := fileBytes_add D disk₁ i off (min left (BSIZE - off % BSIZE))
          (left - min left (BSIZE - off % BSIZE))
        rw [Nat.add_sub_cancel' hm] at hsplit
        have hpos : 0 < min left (BSIZE - off % BSIZE) := by
          have := Nat.mod_lt off (show 0 < BSIZE by decide)
          omega
        simp only [if_neg h0, hrun, ok_bind, if_neg ha, Bool.not_true, Bool.false_eq_true, if_false]
        rw [ih _ _ _ _ (by omega) (by omega) (fun x hx => hblocks x (by omega)), hload, hsplit,
          List.append_assoc, Nat.add_assoc, Nat.add_sub_cancel' hm]

/-- **`readi`** into a kernel buffer. -/
theorem readi_spec (h : Owned sb D disk) (hsb : sb.Ok) (hd : D i = d) (ht : d.type ≠ 0)
    (hwhole : Whole D disk i) (off n : Nat) (hwrap : off + n < 2 ^ 32) :
    readi sb disk d (fun _ => true) off n =
      .ok ((some (min n (d.size.toNat - off)), fileBytes D disk i off (min n (d.size.toNat - off))),
        disk, d) := by
  rw [readi]
  have hsmall := hwhole.small
  have hblocks := hwhole.blocks
  rw [hd] at hsmall hblocks
  by_cases hoff : off > d.size.toNat
  · rw [if_pos (Or.inl hoff), Nat.sub_eq_zero_of_le (Nat.le_of_lt hoff), Nat.min_zero]
    rfl
  · rw [if_neg (by omega)]
    have hn : (if off + n > d.size.toNat then d.size.toNat - off else n) =
        min n (d.size.toNat - off) := by
      by_cases hgt : off + n > d.size.toNat
      · rw [if_pos hgt]
        omega
      · rw [if_neg hgt]
        omega
    simp only [hn]
    rw [readiLoop_spec h hsb hd ht _ off _ 0 [] (Nat.lt_succ_self _) (by omega)
      fun x hx => hblocks x (by omega), Nat.zero_add, List.nil_append]

end Xv6.Fs
