import Xv6.Fs.Logged

/-!
# Fs — Exact

`writei` changes what it reports, unless a copy from user memory fails in the middle of a block.

`either_copyin` copies into the buffer.  When it fails after some bytes, `writei` drops the buffer
without `log_write` and does not count the bytes, but they stay in the cache, over the contents that the
file has there.

* `WriteEnd.reads`: what `readi` returns after `writei`.
* `writei_exact_iff`: when the bytes that were copied in vain do no harm.
-/

namespace Xv6.Fs
open Xv6.Lib

variable {sb : Super} {c c' : Cache} {d d' : Dinode} {disk disk' disk₀ : Disk} {i off n limit t k : Nat}
  {bytes : Nat → BitVec 8}

/-- Byte `x` of the file after a write of the first `t` source bytes at `off`. -/
def newByte (D : Nat → Dinode) (disk : Disk) (i : Nat) (bytes : Nat → BitVec 8) (off t x : Nat) :
    BitVec 8 :=
  if off ≤ x ∧ x < off + t then bytes (x - off) else fileByte D disk i x

/-- **`writei` changes what it reports**, as every read sees it. -/
def WritesExactly (sb : Super) (c : Cache) (i : Nat) (d : Dinode) (bytes : Nat → BitVec 8)
    (limit off n : Nat) : Prop :=
  ∀ r c' d', writeiL sb c i d (copyin bytes limit off n) off n = .ok (r, c', d') →
    (r = none → c' = c ∧ d' = d) ∧
    ∀ t, r = some t → d'.size.toNat = max d.size.toNat (off + t) ∧
      ∀ V, c'.View V → ∀ off' n', off' + n' < 2 ^ 32 →
        readi sb V d' (fun _ => true) off' n' = .ok ((some (min n' (d'.size.toNat - off')),
          (List.range (min n' (d'.size.toNat - off'))).map fun j =>
            newByte (dinodes sb c.disk) c.disk i bytes off t (off' + j)), V, d')

/-- `readi` into a kernel buffer returns the contents. -/
def ReadsContents (sb : Super) (disk : Disk) (i : Nat) (d : Dinode) : Prop :=
  ∀ off n, off + n < 2 ^ 32 → readi sb disk d (fun _ => true) off n =
    .ok ((some (min n (d.size.toNat - off)),
      fileBytes (dinodes sb disk) disk i off (min n (d.size.toNat - off))), disk, d)

/-- The write is refused. -/
def Refused (d : Dinode) (off n : Nat) : Prop :=
  off > d.size.toNat ∨ off + n ≥ 2 ^ 32 ∨ off + n > MAXFILE * BSIZE

/-- The source can be read, or what comes before its end in the same block of the file is below the old
size and is there already. -/
def CopyHarmless (D : Nat → Dinode) (disk : Disk) (i : Nat) (d : Dinode) (bytes : Nat → BitVec 8)
    (limit off n : Nat) : Prop :=
  Refused d off n ∨ n ≤ limit ∨
    ∀ x, off ≤ x → x < off + limit → x / BSIZE = (off + limit) / BSIZE → x < d.size.toNat →
      bytes (x - off) = fileByte D disk i x

theorem writeiL_refused (sb : Super) (c : Cache) (i : Nat) (h : Refused d off n) (src : Source) :
    writeiL sb c i d src off n = .ok (none, c, d) := by
  by_cases hbad : off > d.size.toNat ∨ off + n ≥ 2 ^ 32
  · exact if_pos hbad
  · have hbig : off + n > MAXFILE * BSIZE := by
      rcases h with h | h | h
      · exact absurd (Or.inl h) hbad
      · exact absurd (Or.inr h) hbad
      · exact h
    rw [writeiL, if_neg hbad, if_pos hbig]

/-- The blocks of a view are those of the cache, or those without the bytes copied in vain. -/
theorem view_cases {D : Nat → Dinode} {bn : Nat} (h : Torn D disk₀ disk' i bn) {V : Disk}
    (hV : ∀ b, V b = disk' b ∨ V b = disk₀ b) : V = disk' ∨ V = disk₀ := by
  rcases h with rfl | ⟨-, hother⟩
  · exact Or.inl (funext fun b => (hV b).elim id id)
  · have hV' : ∀ b, b ≠ (entry D disk₀ (i, slotOf bn)).toNat → V b = disk' b ∧ V b = disk₀ b := by
      intro b hb
      have hsame := hother b hb
      rcases hV b with h | h
      · exact ⟨h, h.trans hsame⟩
      · exact ⟨h.trans hsame.symm, h⟩
    rcases hV (entry D disk₀ (i, slotOf bn)).toNat with ha | ha
    · refine Or.inl (funext fun b => ?_)
      by_cases hb : b = (entry D disk₀ (i, slotOf bn)).toNat
      · rw [hb, ha]
      · exact (hV' b hb).1
    · refine Or.inr (funext fun b => ?_)
      by_cases hb : b = (entry D disk₀ (i, slotOf bn)).toNat
      · rw [hb, ha]
      · exact (hV' b hb).2

/-- What `readi` returns after `writei`. -/
theorem WriteEnd.reads (hsb : sb.Ok) (hwhole : Whole (dinodes sb disk) disk i)
    (hd : dinodes sb disk i = d) (ht : d'.type ≠ 0) (hoff : off ≤ d.size.toNat)
    (hsz : d'.size.toNat = max d.size.toNat (off + t))
    (h : WriteEnd sb disk i bytes off t k disk' d') (off' n' : Nat) (hwrap : off' + n' < 2 ^ 32) :
    readi sb disk' d' (fun _ => true) off' n' = .ok ((some (min n' (d'.size.toNat - off')),
      (List.range (min n' (d'.size.toNat - off'))).map fun j =>
        newByte (dinodes sb disk) disk i bytes off (t + k) (off' + j)), disk', d') := by
  have hd' : dinodes sb disk' i = d' := by rw [h.updated.inodes, Function.update_self]
  rw [readi_spec h.updated.owned hsb hd' ht h.whole off' n' hwrap]
  refine congrArg (fun l => Except.ok ((some _, l), disk', d')) (List.map_congr_left fun j hj => ?_)
  have hj := List.mem_range.mp hj
  have hsmall := h.whole.small
  rw [hd'] at hsmall
  have hx : HasBlock (dinodes sb disk) disk i ((off' + j) / BSIZE) ∨
      (off + 0 ≤ off' + j ∧ off' + j < off + t) := by
    by_cases hlt : off' + j < d.size.toNat
    · exact Or.inl (hwhole.blocks _ (hd.symm ▸ hlt))
    · exact Or.inr (by omega)
  rw [h.wrote.byte _ (by omega) hx, newByte]
  simp only [Nat.add_zero, Nat.add_assoc]

/-- A write that was not refused, and what a read can see of it. -/
theorem writeiL_contents (hsb : sb.Ok) (hclean : c.Clean)
    (hown : Owned sb (dinodes sb c.disk) c.disk) (hi : i < sb.ninodes) (hd : dinodes sb c.disk i = d)
    (ht : d.type ≠ 0) (hwhole : Whole (dinodes sb c.disk) c.disk i) (bytes : Nat → BitVec 8) (limit : Nat)
    (hok : ¬ Refused d off n) :
    ∃ t k c' disk₀ d', writeiL sb c i d (copyin bytes limit off n) off n = .ok (some t, c', d') ∧
      WriteEnd sb c.disk i bytes off t k c'.disk d' ∧ WriteEnd sb c.disk i bytes off t 0 disk₀ d' ∧
      (∀ V, c'.View V → V = c'.disk ∨ V = disk₀) ∧
      Stopped (dinodes sb c.disk) c.disk i limit off n t k ∧ t ≤ n ∧ t ≤ limit ∧
      (t = n ∨ t = 0 ∨ (off + t) % BSIZE = 0) ∧ d'.type ≠ 0 ∧
      d'.size.toNat = max d.size.toNat (off + t) := by
  obtain ⟨hoff, hrest⟩ := not_or.mp hok
  obtain ⟨hwrap, hmax⟩ := not_or.mp hrest
  obtain ⟨t, k, disk', disk₀, d', hrun, hrun₀, hend, hend₀, htorn, hstop, htn, htl, hb, htype, hsz⟩ :=
    writei_contents hown hsb hi hd ht bytes limit (not_lt.mp hoff) (not_le.mp hwrap) (not_lt.mp hmax) hwhole
  rw [writeiL_disk] at hrun
  cases hL : writeiL sb c i d (copyin bytes limit off n) off n with
  | error e =>
      rw [hL] at hrun
      cases hrun
  | ok y =>
      obtain ⟨r, c', d''⟩ := y
      rw [hL] at hrun
      cases hrun
      obtain ⟨disk₁, hrun₁, hviews⟩ := writeiL_settled hclean hL
      cases hrun₀.symm.trans hrun₁
      exact ⟨t, k, c', disk₀, _, rfl, hend, hend₀, fun V hV => view_cases htorn (hviews V hV), hstop, htn, htl,
        hb, htype ▸ ht, hsz⟩

/-- **When `writei` changes what it reports.** -/
theorem writei_exact_iff (sb : Super) (c : Cache) (i : Nat) (d : Dinode) (bytes : Nat → BitVec 8)
    (limit off n : Nat) (hsb : sb.Ok) (hclean : c.Clean)
    (hown : Owned sb (dinodes sb c.disk) c.disk) (hi : i < sb.ninodes) (hd : dinodes sb c.disk i = d)
    (ht : d.type ≠ 0) (hwhole : Whole (dinodes sb c.disk) c.disk i) :
    (∃ r c' d', writeiL sb c i d (copyin bytes limit off n) off n = .ok (r, c', d')) ∧
    (WritesExactly sb c i d bytes limit off n ∧ ReadsContents sb c.disk i d ↔
      CopyHarmless (dinodes sb c.disk) c.disk i d bytes limit off n) := by
  have hreads : ReadsContents sb c.disk i d := fun off n hwrap => readi_spec hown hsb hd ht hwhole off n hwrap
  by_cases href : Refused d off n
  · have hrun := writeiL_refused sb c i href (copyin bytes limit off n)
    refine ⟨⟨none, c, d, hrun⟩, fun _ => Or.inl href, fun _ => ⟨fun r c' d' hrun' => ?_, hreads⟩⟩
    cases hrun.symm.trans hrun'
    exact ⟨fun _ => ⟨rfl, rfl⟩, fun t h => absurd h.symm (Option.some_ne_none t)⟩
  · obtain ⟨t, k, c', disk₀, d', hrun, hend, hend₀, hviews, hstop, htn, htl, hb, ht', hsz⟩ :=
      writeiL_contents hsb hclean hown hi hd ht hwhole bytes limit href
    have hoff : off ≤ d.size.toNat := not_lt.mp fun h => href (Or.inl h)
    have hself := hend.reads hsb hwhole hd ht' hoff hsz
    have hself₀ := hend₀.reads hsb hwhole hd ht' hoff hsz
    refine ⟨⟨some t, c', d', hrun⟩, fun hboth => ?_, fun hharm => ⟨fun r c₁ d₁ hrun' => ?_, hreads⟩⟩
    · have hexact := hboth.1
      by_cases hlim : n ≤ limit
      · exact Or.inr (Or.inl hlim)
      · refine Or.inr (Or.inr fun x hx hlt hblock hxs => ?_)
        have hhas := hwhole.blocks x (hd.symm ▸ hxs)
        cases hstop with
        | done htn' _ => omega
        | full htn' _ hnone =>
            -- the block of `x` is there, and so are those before it
            exfalso
            by_cases hsame : (off + t) / BSIZE = x / BSIZE
            · exact hnone (hsame.symm ▸ hhas)
            · refine hnone (hwhole.blocks (off + t) ?_)
              rw [hd]
              have hle : (off + t) / BSIZE ≤ (off + limit) / BSIZE := Nat.div_le_div_right (by omega)
              simp only [BSIZE] at *
              omega
        | fault htn' hturn hk =>
            have hx' : off + t ≤ x := by
              have := turn_block (n := n) (show off + t ≤ off + limit by omega) (by omega)
              simp only [BSIZE] at *
              omega
            have hread := ((hexact _ _ _ hrun).2 t rfl).2 c'.disk (fun _ => Or.inl rfl) x 1 (by omega)
            rw [hself x 1 (by omega), show min 1 (d'.size.toNat - x) = 1 by omega] at hread
            have hbyte := congrArg (fun y => (y.toOption.map fun z => z.1.2)) hread
            simp only [Except.toOption, Option.map_some, List.range_one, List.map_cons, List.map_nil,
              Option.some.injEq, List.cons.injEq, and_true, Nat.add_zero, newByte] at hbyte
            rw [if_pos (by omega), if_neg (by omega)] at hbyte
            exact hbyte
    · cases hrun.symm.trans hrun'
      refine ⟨fun h => absurd h (Option.some_ne_none t), fun t₁ ht₁ => ?_⟩
      cases ht₁
      refine ⟨hsz, fun V hV off' n' hwrap => ?_⟩
      rcases hviews V hV with rfl | rfl
      · rw [hself off' n' hwrap]
        refine congrArg (fun l => Except.ok ((some _, l), c'.disk, d')) (List.map_congr_left fun j hj => ?_)
        have hj := List.mem_range.mp hj
        rw [newByte, newByte]
        by_cases hin : off ≤ off' + j ∧ off' + j < off + t
        · rw [if_pos hin, if_pos (by omega)]
        · rw [if_neg hin]
          by_cases hvain : off ≤ off' + j ∧ off' + j < off + (t + k)
          · rw [if_pos hvain]
            -- a byte that was copied in vain, below the old size
            cases hstop with
            | done _ hk => omega
            | full _ hk _ => omega
            | fault htn' hturn hk =>
                rcases hharm with h | h | h
                · exact absurd h href
                · have := turn_le off htn
                  omega
                · refine h _ hvain.1 (by omega) ?_ (by omega)
                  have h₁ := turn_block (n := n) (show off + t ≤ off + limit by omega) (by omega)
                  have h₂ := turn_block (n := n) (show off + t ≤ off' + j by omega) (by omega)
                  rw [h₁, h₂]
          · rw [if_neg hvain]
      · rw [hself₀ off' n' hwrap]
        rfl

/-! A file of four bytes, and a source of which two bytes can be read. -/

def tinySuper : Super := ⟨6, 5, 2, 3⟩

/-- Inode 1 has block 4, which the free map marks, as it does the blocks before it. -/
def tinyDisk : Disk := fun b w =>
  if b = 2 ∧ w = 16 then 1 else if b = 2 ∧ w = 18 then 4 else if b = 2 ∧ w = 19 then 4
  else if b = 3 ∧ w = 0 then 0x1F else 0

def tinyCache : Cache := ⟨tinyDisk, tinyDisk, []⟩

def tinyInode : Dinode := dinodeAt tinySuper tinyDisk 1

/-- `writei` returns 0, and a later `readi` returns what was copied in vain. -/
theorem writei_not_exact : ¬ WritesExactly tinySuper tinyCache 1 tinyInode (fun _ => 9) 2 0 4 := by
  intro h
  obtain ⟨c', d', hrun, hread⟩ : ∃ c' d', writeiL tinySuper tinyCache 1 tinyInode
      (copyin (fun _ => 9) 2 0 4) 0 4 = .ok (some 0, c', d') ∧
      (readi tinySuper c'.disk d' (fun _ => true) 0 1).toOption.map (fun y => y.1.2) = some [9] := by
    refine ⟨_, _, rfl, ?_⟩
    decide +kernel
  obtain ⟨hsize, hreads⟩ := (h _ _ _ hrun).2 0 rfl
  have hfour : d'.size.toNat = 4 := hsize.trans (by decide)
  have hexact := hreads c'.disk (fun _ => Or.inl rfl) 0 1 (by decide)
  rw [hfour] at hexact
  rw [hexact] at hread
  simp only [Except.toOption, Option.map_some, Option.some.injEq] at hread
  exact absurd hread (by decide)

theorem tinyDisk_owned : Owned tinySuper (dinodes tinySuper tinyDisk) tinyDisk := by
  have haddr : ∀ k j, (dinodes tinySuper tinyDisk k).addrs j =
      if k = 1 ∧ j.val = 0 then 4 else 0 := by
    intro k j
    have hj := j.isLt
    rw [dinodes]
    by_cases hk : k < tinySuper.ninodes
    · have hk5 : k < 5 := hk
      have hb : iblock tinySuper k = 2 := by
        simp only [iblock, tinySuper, IPB]
        omega
      rw [if_pos hk, dinodeAt, hb, Block.dinode]
      simp only [tinyDisk, IPB, NDIRECT] at *
      by_cases h1 : k = 1 ∧ j.val = 0
      · obtain ⟨rfl, h0⟩ := h1
        rw [h0]
        rfl
      · rw [if_neg h1, if_neg (by omega), if_neg (by omega), if_neg (by omega), if_neg (by omega)]
    · have hk1 : ¬ k = 1 := fun h1 => hk (h1 ▸ (by decide))
      rw [if_neg hk, if_neg fun h => hk1 h.1]
      rfl
  have hentry : ∀ P, entry (dinodes tinySuper tinyDisk) tinyDisk P ≠ 0 →
      P = (1, .addr (directSlot 0)) := by
    rintro ⟨k, j | j⟩ hP
    · rw [entry, haddr] at hP
      by_cases h1 : k = 1 ∧ j.val = 0
      · exact Prod.ext h1.1 (congrArg Slot.addr (Fin.ext h1.2))
      · rw [if_neg h1] at hP
        exact absurd (ite_self 0) hP
    · refine absurd ?_ hP
      rw [entry, if_pos (Or.inr ((haddr k _).trans (if_neg fun h => ?_)))]
      exact absurd h.2 (by decide)
  refine ⟨fun P Q hP hPQ => (hentry P hP).trans (hentry Q (hPQ ▸ hP)).symm, fun P hP => ?_,
    fun P hP => ?_, by decide⟩
  · rw [hentry P hP]
    decide
  · rw [hentry P hP]
    decide

theorem tinyDisk_whole : Whole (dinodes tinySuper tinyDisk) tinyDisk 1 := by
  refine ⟨fun x hx => ?_, by decide⟩
  have hx4 : x < 4 := hx
  rw [show x / BSIZE = 0 by simp only [BSIZE]; omega]
  unfold HasBlock
  decide

/-- The same two bytes do no harm when the file has them. -/
theorem writei_exact_tiny :
    WritesExactly tinySuper tinyCache 1 tinyInode (fun _ => 0) 2 0 4 ∧
      ReadsContents tinySuper tinyDisk 1 tinyInode ∧
    ¬ (WritesExactly tinySuper tinyCache 1 tinyInode (fun _ => 9) 2 0 4 ∧
      ReadsContents tinySuper tinyDisk 1 tinyInode) := by
  have hiff := fun bytes => (writei_exact_iff tinySuper tinyCache 1 tinyInode bytes 2 0 4
    ⟨by decide, by decide, by decide⟩ (fun _ _ => rfl) tinyDisk_owned (by decide) rfl (by decide)
    tinyDisk_whole).2
  have hharm : CopyHarmless (dinodes tinySuper tinyDisk) tinyDisk 1 tinyInode (fun _ => 0) 2 0 4 := by
    refine Or.inr (Or.inr fun x _ hx _ _ => ?_)
    have hx2 : x < 2 := hx
    interval_cases x
    · decide
    · decide
  obtain ⟨hw, hr⟩ := (hiff _).mpr hharm
  refine ⟨hw, hr, fun h => ?_⟩
  rcases (hiff _).mp h with h | h | h
  · exact absurd h (by unfold Refused; decide)
  · exact absurd h (by decide)
  · exact absurd (h 0 (by decide) (by decide) (by decide) (by decide)) (by decide)

end Xv6.Fs
