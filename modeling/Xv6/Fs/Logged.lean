import Xv6.Fs.Contents

/-!
# Fs — Logged

The blocks that `log_write` is called on.

A buffer that has been changed and not been given to `log_write` is lost when it is recycled: the
block is read from the disk again.  A `Cache` keeps both contents of a block, and the functions of
`Fs.Defs` are written once more over it, with the calls of `log_write`.

* `writeiL_disk`: what is in the cache is what `Fs.Defs` says.
* `writeiL_settled`: what is read from the disk again is that without the bytes of a failed copy.
-/

namespace Xv6.Fs
open Xv6.Lib

/-- The blocks as they are cached, as they are on the disk, and those given to `log_write`. -/
structure Cache where
  disk : Disk
  home : Disk
  pinned : List Nat

/-- The buffer of `b` gets the contents `x` and goes to `log_write`. -/
def Cache.logWrite (c : Cache) (b : Nat) (x : Block) : Cache :=
  { c with disk := setBlock c.disk b x, pinned := b :: c.pinned }

/-- The buffer of `b` gets the contents `x`. -/
def Cache.store (c : Cache) (b : Nat) (x : Block) : Cache := { c with disk := setBlock c.disk b x }

/-- What is read when the buffers that `log_write` does not hold have been recycled. -/
def Cache.settled (c : Cache) : Disk := fun b => if b ∈ c.pinned then c.disk b else c.home b

/-- Every buffer that has been changed is in the log. -/
def Cache.Clean (c : Cache) : Prop := ∀ b, b ∉ c.pinned → c.home b = c.disk b

/-- What a read may see: each block from the cache, or from the disk. -/
def Cache.View (c : Cache) (V : Disk) : Prop := ∀ b, V b = c.disk b ∨ V b = c.settled b

def ballocL (sb : Super) (c : Cache) : Word × Cache :=
  match (List.range sb.size).find? fun b => !inUse sb c.disk b with
  | none => (0, c)
  | some b =>
    let c := c.logWrite (bblock sb b) ((c.disk (bblock sb b)).setBit (b % BPB) true)
    (BitVec.ofNat 32 b, c.logWrite b fun _ => 0)

def iupdateL (sb : Super) (c : Cache) (inum : Nat) (d : Dinode) : Cache :=
  c.logWrite (iblock sb inum) ((c.disk (iblock sb inum)).setDinode (inum % IPB) d)

def bmapSlotL (sb : Super) (c : Cache) (d : Dinode) (j : Fin (NDIRECT + 1)) : Word × Cache × Dinode :=
  if d.addrs j = 0 then
    match ballocL sb c with
    | (addr, c) => if addr = 0 then (0, c, d) else (addr, c, d.setAddr j addr)
  else (d.addrs j, c, d)

def bmapL (sb : Super) (c : Cache) (d : Dinode) (bn : Nat) : Except String (Word × Cache × Dinode) :=
  if bn < NDIRECT then .ok (bmapSlotL sb c d (directSlot bn))
  else if bn - NDIRECT < NINDIRECT then
    match bmapSlotL sb c d indirectSlot with
    | (ind, c, d) =>
      if ind = 0 then .ok (0, c, d)
      else if c.disk ind.toNat (bn - NDIRECT) = 0 then
        match ballocL sb c with
        | (addr, c) =>
          if addr = 0 then .ok (0, c, d)
          else .ok (addr, c.logWrite ind.toNat
            (Function.update (c.disk ind.toNat) (bn - NDIRECT) addr), d)
      else .ok (c.disk ind.toNat (bn - NDIRECT), c, d)
  else .error "bmap: out of range"

def writeiLoopL (sb : Super) (src : Source) :
    Nat → Cache → Dinode → Nat → Nat → Nat → Except String ((Nat × Nat) × Cache × Dinode)
  | 0, _, _, _, _, _ => .error "writei: no turn left"
  | turns + 1, c, d, off, left, tot =>
    if left = 0 then .ok ((tot, off), c, d)
    else do
      let (addr, c, d) ← bmapL sb c d (off / BSIZE)
      if addr = 0 then return ((tot, off), c, d)
      else
        let m := min left (BSIZE - off % BSIZE)
        let x := (c.disk addr.toNat).store (off % BSIZE) ((src tot).1.take m)
        if !(src tot).2 then return ((tot, off), c.store addr.toNat x, d)
        else writeiLoopL sb src turns (c.logWrite addr.toNat x) d (off + m) (left - m) (tot + m)

def writeiL (sb : Super) (c : Cache) (inum : Nat) (d : Dinode) (src : Source) (off n : Nat) :
    Except String (Option Nat × Cache × Dinode) :=
  if off > d.size.toNat ∨ off + n ≥ 2 ^ 32 then .ok (none, c, d)
  else if off + n > MAXFILE * BSIZE then .ok (none, c, d)
  else do
    let ((tot, off), c, d) ← writeiLoopL sb src (n + 1) c d off n 0
    let d := if off > d.size.toNat then { d with size := BitVec.ofNat 32 off } else d
    return (some tot, iupdateL sb c inum d, d)

/-! ### What is in the cache -/

variable {sb : Super} {c c' : Cache} {d d' : Dinode} {a : Word} {src : Source}

/-- The blocks of a run over a cache. -/
def onDisk {ρ : Type} (x : ρ × Cache × Dinode) : ρ × Disk × Dinode := (x.1, x.2.1.disk, x.2.2)

theorem ballocL_disk (sb : Super) (c : Cache) :
    balloc sb c.disk = ((ballocL sb c).1, (ballocL sb c).2.disk) := by
  rw [balloc, ballocL]
  cases (List.range sb.size).find? fun b => !inUse sb c.disk b with
  | none => rfl
  | some b => rfl

theorem bmapSlotL_disk (sb : Super) (c : Cache) (d : Dinode) (j : Fin (NDIRECT + 1)) :
    bmapSlot sb c.disk d j = onDisk (bmapSlotL sb c d j) := by
  rw [bmapSlot, bmapSlotL]
  by_cases hz : d.addrs j = 0
  · rw [if_pos hz, if_pos hz, ballocL_disk]
    by_cases ha : (ballocL sb c).1 = 0
    · simp only [ha, if_true]
      rfl
    · simp only [ha, if_false]
      rfl
  · rw [if_neg hz, if_neg hz]
    rfl

theorem bmapL_disk (sb : Super) (c : Cache) (d : Dinode) (bn : Nat) :
    bmap sb c.disk d bn = (bmapL sb c d bn).map onDisk := by
  rw [bmap, bmapL]
  by_cases hdir : bn < NDIRECT
  · rw [if_pos hdir, if_pos hdir, bmapSlotL_disk]
    rfl
  · by_cases hind : bn - NDIRECT < NINDIRECT
    · rw [if_neg hdir, if_pos hind, if_neg hdir, if_pos hind, bmapSlotL_disk]
      obtain ⟨ind, c₁, d₁⟩ := bmapSlotL sb c d indirectSlot
      by_cases h0 : ind = 0
      · simp only [onDisk, h0, if_true]
        rfl
      · by_cases hz : c₁.disk ind.toNat (bn - NDIRECT) = 0
        · simp only [onDisk, h0, if_false, hz, if_true, ballocL_disk]
          by_cases ha : (ballocL sb c₁).1 = 0
          · simp only [ha, if_true]
            rfl
          · simp only [ha, if_false]
            rfl
        · simp only [onDisk, h0, if_false, hz]
          rfl
    · rw [if_neg hdir, if_neg hind, if_neg hdir, if_neg hind]
      rfl

theorem writeiLoopL_disk (sb : Super) (src : Source) : ∀ (turns : Nat) (c : Cache) (d : Dinode)
    (off left tot : Nat), writeiLoop sb src turns c.disk d off left tot =
      (writeiLoopL sb src turns c d off left tot).map onDisk := by
  intro turns
  induction turns with
  | zero => exact fun _ _ _ _ _ => rfl
  | succ turns ih =>
      intro c d off left tot
      rw [writeiLoop, writeiLoopL]
      by_cases h0 : left = 0
      · rw [if_pos h0, if_pos h0]
        rfl
      · rw [if_neg h0, if_neg h0, bmapL_disk]
        cases bmapL sb c d (off / BSIZE) with
        | error e => rfl
        | ok x =>
            obtain ⟨addr, c₁, d₁⟩ := x
            simp only [Except.map, onDisk, ok_bind]
            by_cases ha : addr = 0
            · rw [if_pos ha, if_pos ha]
              rfl
            · rw [if_neg ha, if_neg ha]
              cases hok : (src tot).2 with
              | false => rfl
              | true => exact ih (c₁.logWrite addr.toNat _) d₁ _ _ _

/-- **The cache of `writei`** holds what `Fs.Defs` says. -/
theorem writeiL_disk (sb : Super) (c : Cache) (inum : Nat) (d : Dinode) (src : Source) (off n : Nat) :
    writei sb c.disk inum d src off n = (writeiL sb c inum d src off n).map onDisk := by
  rw [writei, writeiL]
  by_cases hbad : off > d.size.toNat ∨ off + n ≥ 2 ^ 32
  · rw [if_pos hbad, if_pos hbad]
    rfl
  · by_cases hbig : off + n > MAXFILE * BSIZE
    · rw [if_neg hbad, if_pos hbig, if_neg hbad, if_pos hbig]
      rfl
    · rw [if_neg hbad, if_neg hbig, if_neg hbad, if_neg hbig, writeiLoopL_disk]
      cases writeiLoopL sb src (n + 1) c d off n 0 with
      | error e => rfl
      | ok x => rfl

/-! ### What is on the disk -/

/-- All that has been changed has been logged. -/
structure Logs (c c' : Cache) : Prop where
  home : c'.home = c.home
  pinned : ∀ b, b ∈ c.pinned → b ∈ c'.pinned
  other : ∀ b, b ∉ c'.pinned → c'.disk b = c.disk b

theorem Logs.refl (c : Cache) : Logs c c := ⟨rfl, fun _ => id, fun _ _ => rfl⟩

theorem Logs.trans {c₁ c₂ : Cache} (h : Logs c c₁) (h' : Logs c₁ c₂) : Logs c c₂ :=
  ⟨h'.home.trans h.home, fun b hb => h'.pinned b (h.pinned b hb), fun b hb =>
    (h'.other b hb).trans (h.other b fun hb' => hb (h'.pinned b hb'))⟩

theorem logs_logWrite (c : Cache) (b : Nat) (x : Block) : Logs c (c.logWrite b x) := by
  refine ⟨rfl, fun _ hb => List.mem_cons_of_mem b hb, fun k hk => ?_⟩
  have hne : k ≠ b := fun hkb => hk (List.mem_cons.mpr (Or.inl hkb))
  exact Function.update_of_ne hne ..

theorem ballocL_logs (sb : Super) (c : Cache) : Logs c (ballocL sb c).2 := by
  rw [ballocL]
  cases (List.range sb.size).find? fun b => !inUse sb c.disk b with
  | none => exact .refl c
  | some b => exact (logs_logWrite ..).trans (logs_logWrite ..)

theorem bmapSlotL_logs (sb : Super) (c : Cache) (d : Dinode) (j : Fin (NDIRECT + 1)) :
    Logs c (bmapSlotL sb c d j).2.1 := by
  have hlogs := ballocL_logs sb c
  rw [bmapSlotL]
  by_cases hz : d.addrs j = 0
  · rw [if_pos hz]
    by_cases ha : (ballocL sb c).1 = 0
    · simp only [ha, if_true]
      exact hlogs
    · simp only [ha, if_false]
      exact hlogs
  · rw [if_neg hz]
    exact .refl c

theorem bmapL_logs {bn : Nat} (hrun : bmapL sb c d bn = .ok (a, c', d')) : Logs c c' := by
  rw [bmapL] at hrun
  by_cases hdir : bn < NDIRECT
  · rw [if_pos hdir] at hrun
    have hlogs := bmapSlotL_logs sb c d (directSlot bn)
    rw [Except.ok.inj hrun] at hlogs
    exact hlogs
  · by_cases hind : bn - NDIRECT < NINDIRECT
    · rw [if_neg hdir, if_pos hind] at hrun
      have hlogs := bmapSlotL_logs sb c d indirectSlot
      generalize bmapSlotL sb c d indirectSlot = y at hrun hlogs
      obtain ⟨ind, c₁, d₁⟩ := y
      have hlogs₂ := ballocL_logs sb c₁
      by_cases h0 : ind = 0
      · simp only [h0, if_true] at hrun
        cases hrun
        exact hlogs
      · by_cases hz : c₁.disk ind.toNat (bn - NDIRECT) = 0
        · by_cases ha : (ballocL sb c₁).1 = 0
          · simp only [h0, if_false, hz, if_true, ha] at hrun
            cases hrun
            exact hlogs.trans hlogs₂
          · simp only [h0, if_false, hz, if_true, ha] at hrun
            cases hrun
            exact (hlogs.trans hlogs₂).trans (logs_logWrite ..)
        · simp only [h0, if_false, hz] at hrun
          cases hrun
          exact hlogs
    · rw [if_neg hdir, if_neg hind] at hrun
      cases hrun

/-- Two caches that differ in what has been stored and not logged. -/
structure SameLog (c₀ c : Cache) : Prop where
  home : c.home = c₀.home
  pinned : c.pinned = c₀.pinned

theorem writeiLoopL_kept (sb : Super) (src : Source) : ∀ (turns : Nat) (c : Cache) (d : Dinode)
    (off left tot : Nat) (x : Nat × Nat) (c' : Cache) (d' : Dinode),
    writeiLoopL sb src turns c d off left tot = .ok (x, c', d') →
    ∃ c₀, writeiLoopL sb src.kept turns c d off left tot = .ok (x, c₀, d') ∧ Logs c c₀ ∧
      SameLog c₀ c' := by
  intro turns
  induction turns with
  | zero =>
      intro c d off left tot x c' d' hrun
      cases hrun
  | succ turns ih =>
      intro c d off left tot x c' d' hrun
      rw [writeiLoopL] at hrun ⊢
      by_cases h0 : left = 0
      · rw [if_pos h0] at hrun ⊢
        cases hrun
        exact ⟨c, rfl, .refl c, rfl, rfl⟩
      · rw [if_neg h0] at hrun ⊢
        obtain ⟨⟨addr, c₁, d₁⟩, hbmap, hrun⟩ := bind_eq_ok.mp hrun
        have hlogs := bmapL_logs hbmap
        rw [hbmap, ok_bind]
        by_cases ha : addr = 0
        · simp only [ha, if_true] at hrun ⊢
          cases hrun
          exact ⟨_, rfl, hlogs, rfl, rfl⟩
        · simp only [ha, if_false] at hrun ⊢
          cases hok : (src tot).2 with
          | false =>
              have hkept : src.kept tot = ([], false) := by
                rw [Source.kept, hok]
                rfl
              have hback : c₁.store addr.toNat (c₁.disk addr.toNat) = c₁ := by
                rw [Cache.store, setBlock, Function.update_eq_self]
              simp only [hok, Bool.not_false, if_true] at hrun
              cases hrun
              simp only [hkept, Bool.not_false, if_true, List.take_nil, Block.store, hback]
              exact ⟨c₁, rfl, hlogs, rfl, rfl⟩
          | true =>
              have hkept : src.kept tot = src tot := if_pos hok
              simp only [hok, Bool.not_true, Bool.false_eq_true, if_false] at hrun
              simp only [hkept, hok, Bool.not_true, Bool.false_eq_true, if_false]
              obtain ⟨c₀, hrun₀, hlogs₀, hsame⟩ := ih _ _ _ _ _ _ _ _ hrun
              exact ⟨c₀, hrun₀, (hlogs.trans (logs_logWrite ..)).trans hlogs₀, hsame⟩

/-- **Whatever a read sees** after `writei`, each block is as it is cached, or as it would be if the copy
that failed had copied nothing. -/
theorem writeiL_settled {inum off n : Nat} {r : Option Nat} (hclean : c.Clean)
    (hrun : writeiL sb c inum d src off n = .ok (r, c', d')) :
    ∃ disk₀, writei sb c.disk inum d src.kept off n = .ok (r, disk₀, d') ∧
      ∀ V, c'.View V → ∀ b, V b = c'.disk b ∨ V b = disk₀ b := by
  obtain ⟨c₀, hrun₀, hlogs, hsame⟩ : ∃ c₀, writeiL sb c inum d src.kept off n = .ok (r, c₀, d') ∧
      Logs c c₀ ∧ SameLog c₀ c' := by
    rw [writeiL] at hrun ⊢
    by_cases hbad : off > d.size.toNat ∨ off + n ≥ 2 ^ 32
    · rw [if_pos hbad] at hrun ⊢
      cases hrun
      exact ⟨c, rfl, .refl c, rfl, rfl⟩
    · by_cases hbig : off + n > MAXFILE * BSIZE
      · rw [if_neg hbad, if_pos hbig] at hrun ⊢
        cases hrun
        exact ⟨c, rfl, .refl c, rfl, rfl⟩
      · rw [if_neg hbad, if_neg hbig] at hrun ⊢
        obtain ⟨⟨⟨tot, off'⟩, c₁, d₁⟩, hloop, hrun⟩ := bind_eq_ok.mp hrun
        obtain ⟨c₂, hloop₂, hlogs, hsame⟩ := writeiLoopL_kept sb src _ _ _ _ _ _ _ _ _ hloop
        cases hrun
        rw [hloop₂, ok_bind]
        refine ⟨_, rfl, hlogs.trans (logs_logWrite ..), hsame.home, ?_⟩
        exact congrArg (_ :: ·) hsame.pinned
  refine ⟨c₀.disk, by rw [writeiL_disk, hrun₀]; rfl, fun V hV b => ?_⟩
  rcases hV b with hb | hb
  · exact Or.inl hb
  · by_cases hp : b ∈ c'.pinned
    · exact Or.inl (hb.trans (if_pos hp))
    · have hp₀ : b ∉ c₀.pinned := fun hp₀ => hp (hsame.pinned.symm ▸ hp₀)
      have hp_c : b ∉ c.pinned := fun hp_c => hp₀ (hlogs.pinned b hp_c)
      refine Or.inr (hb.trans ((if_neg hp).trans ?_))
      rw [hsame.home, hlogs.home, hclean b hp_c, hlogs.other b hp₀]

end Xv6.Fs
