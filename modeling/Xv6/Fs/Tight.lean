import Xv6.Fs.Consistent

/-!
# Fs — Tight

No block is lost: what is marked in the free map is a block of some file.

`Owned` says that the blocks of the files are marked.  The converse is as important, since nothing
frees a block that no inode names.

* `Local`: what writing to a file does to the places, the free map and the other files.
* `bmap_local`, `writeiLoop_local`: writing, also when the blocks run out half way.
* `no_block_lost`: runs.
-/

namespace Xv6.Fs
open Xv6.Lib

variable {sb : Super} {disk disk' : Disk} {D D' : Nat → Dinode} {d d' : Dinode} {i n bn : Nat} {a : Word}
  {s s' : State}

/-- Every marked block of the data area is at some place. -/
def Tight (sb : Super) (D : Nat → Dinode) (disk : Disk) : Prop :=
  ∀ n, sb.datastart ≤ n → n < sb.size → inUse sb disk n = true →
    ∃ P, entry D disk P ≠ 0 ∧ (entry D disk P).toNat = n

/-- The places stay, and no block is marked. -/
theorem Tight.same (h : Tight sb D disk) (hE : entry D' disk' = entry D disk)
    (hbits : ∀ n, n < sb.size → inUse sb disk' n = true → inUse sb disk n = true) : Tight sb D' disk' := by
  intro n hge hlt hu
  rw [hE]
  exact h n hge hlt (hbits n hlt hu)

/-- The blocks of file `i` are given back, and its places with them. -/
theorem Tight.free (h : Tight sb D disk)
    (hE : ∀ P, P.1 ≠ i → entry D' disk' P = entry D disk P)
    (hbits : ∀ n, inUse sb disk' n = true → inUse sb disk n = true ∧ ¬ FileBlock D disk i n) :
    Tight sb D' disk' := by
  intro n hge hlt hu
  obtain ⟨hu, hfile⟩ := hbits n hu
  obtain ⟨P, hP, hn⟩ := h n hge hlt hu
  have hne : P.1 ≠ i := by
    rintro rfl
    exact hfile ⟨P.2, hP, hn⟩
  exact ⟨P, by rwa [hE P hne], by rwa [hE P hne]⟩

/-- `balloc` marks the block that it returns, and no other. -/
theorem balloc_bits (h : Owned sb D disk) (hsb : sb.Ok) (hrun : balloc sb disk = (a, disk')) :
    ∀ n, n < sb.size → inUse sb disk' n = true → inUse sb disk n = true ∨ (n = a.toNat ∧ a ≠ 0) := by
  intro n hn hu
  rw [balloc] at hrun
  cases hfind : (List.range sb.size).find? fun b => !inUse sb disk b with
  | none =>
      simp only [hfind] at hrun
      cases hrun
      exact Or.inl hu
  | some b =>
      simp only [hfind] at hrun
      obtain ⟨rfl, rfl⟩ := Prod.mk.inj hrun
      have hb : b < sb.size := List.mem_range.mp (List.mem_of_find?_eq_some hfind)
      have hfree : inUse sb disk b = false := by simpa using List.find?_some hfind
      have hdata : sb.datastart ≤ b := by
        by_contra hlt
        rw [h.reserved b (not_le.mp hlt)] at hfree
        cases hfree
      have hnat : (BitVec.ofNat 32 b).toNat = b := by
        have := hsb.small
        rw [BitVec.toNat_ofNat]
        exact Nat.mod_eq_of_lt (by omega)
      have hne : bblock sb n ≠ b := ((bblock_lt hn).trans_le hdata).ne
      have hbit : inUse sb (bzero (setInUse sb disk b true) b) n =
          if n = b then true else inUse sb disk n := by
        rw [← inUse_setInUse]
        exact inUse_congr (Function.update_of_ne hne ..)
      rw [hbit] at hu
      by_cases hnb : n = b
      · refine Or.inr ⟨hnb.trans hnat.symm, fun h0 => ?_⟩
        have hpos := datastart_gt sb
        rw [h0] at hnat
        rw [← hnat] at hdata
        exact absurd hdata (not_le.mpr (Nat.zero_lt_of_lt hpos))
      · rw [if_neg hnb] at hu
        exact Or.inl hu

/-! ### Writing -/

/-- **What writing to file `i` does**: empty places of the file are filled with the blocks that are
marked, and the other files stay as they are. -/
structure Local (sb : Super) (D : Nat → Dinode) (disk : Disk) (D' : Nat → Dinode) (disk' : Disk)
    (i : Nat) : Prop where
  entries : ∀ P, entry D' disk' P = entry D disk P ∨ (P.1 = i ∧ entry D disk P = 0)
  bits : ∀ n, n < sb.size → inUse sb disk' n = true →
    inUse sb disk n = true ∨ ∃ P, entry D' disk' P ≠ 0 ∧ (entry D' disk' P).toNat = n
  blocks : ∀ P, P.1 ≠ i → entry D disk P ≠ 0 → P.2 ≠ .addr indirectSlot →
    disk' (entry D disk P).toNat = disk (entry D disk P).toNat

theorem Local.kept (h : Local sb D disk D' disk' i) {P : Place} (hP : entry D disk P ≠ 0) :
    entry D' disk' P = entry D disk P := (h.entries P).resolve_right fun hz => hP hz.2

/-- The other files' places. -/
theorem Local.other (h : Local sb D disk D' disk' i) {P : Place} (hP : P.1 ≠ i) :
    entry D' disk' P = entry D disk P := (h.entries P).resolve_right fun hz => hP hz.1

theorem Local.trans {D₁ : Nat → Dinode} {disk₁ : Disk} (h : Local sb D disk D₁ disk₁ i)
    (h' : Local sb D₁ disk₁ D' disk' i) : Local sb D disk D' disk' i := by
  refine ⟨fun P => ?_, fun n hn hu => ?_, fun P hP hne hslot => ?_⟩
  · rcases h'.entries P with heq | ⟨hi, hz⟩
    · rw [heq]
      exact h.entries P
    · rcases h.entries P with heq | hz'
      · exact Or.inr ⟨hi, heq ▸ hz⟩
      · exact Or.inr hz'
  · rcases h'.bits n hn hu with hu | hP
    · rcases h.bits n hn hu with hu | ⟨P, hP, heq⟩
      · exact Or.inl hu
      · exact Or.inr ⟨P, by rwa [h'.kept hP], by rwa [h'.kept hP]⟩
    · exact Or.inr hP
  · have hE := h.kept hne
    rw [← h.blocks P hP hne hslot, ← hE]
    exact h'.blocks P hP (hE.symm ▸ hne) hslot

/-- The places stay, no block is marked, and the blocks that are there stay. -/
theorem Local.same (hE : entry D' disk' = entry D disk)
    (hbits : ∀ n, n < sb.size → inUse sb disk' n = true → inUse sb disk n = true)
    (hblocks : ∀ P, P.1 ≠ i → entry D disk P ≠ 0 → P.2 ≠ .addr indirectSlot →
      disk' (entry D disk P).toNat = disk (entry D disk P).toNat) : Local sb D disk D' disk' i :=
  ⟨fun P => Or.inl (congrFun hE P), fun n hn hu => Or.inl (hbits n hn hu), hblocks⟩

theorem Local.refl (sb : Super) (D : Nat → Dinode) (disk : Disk) (i : Nat) : Local sb D disk D disk i :=
  .same rfl (fun _ _ hu => hu) fun _ _ _ _ => rfl

/-- An empty place takes the block that is marked. -/
theorem Local.add {P : Place} (hP : P.1 = i) (ha : a ≠ 0) (hz : entry D disk P = 0)
    (hE : entry D' disk' = Function.update (entry D disk) P a)
    (hbits : ∀ n, n < sb.size → inUse sb disk' n = true → inUse sb disk n = true ∨ n = a.toNat)
    (hkept : Kept D disk D' disk') : Local sb D disk D' disk' i := by
  refine ⟨fun Q => ?_, fun n hn hu => ?_, fun Q _ hQ hslot => hkept.blocks Q hQ hslot⟩
  · by_cases hQ : Q = P
    · exact Or.inr ⟨hQ ▸ hP, hQ ▸ hz⟩
    · exact Or.inl (by rw [hE, Function.update_of_ne hQ])
  · rcases hbits n hn hu with hu | rfl
    · exact Or.inl hu
    · exact Or.inr ⟨P, by rwa [hE, Function.update_self], by rw [hE, Function.update_self]⟩

theorem Tight.local (h : Tight sb D disk) (hl : Local sb D disk D' disk' i) : Tight sb D' disk' := by
  intro n hge hlt hu
  rcases hl.bits n hlt hu with hu | hP
  · obtain ⟨P, hP, hn⟩ := h n hge hlt hu
    exact ⟨P, by rwa [hl.kept hP], by rwa [hl.kept hP]⟩
  · exact hP

theorem bmapSlot_local (h : Owned sb (Function.update D i d) disk) (hsb : sb.Ok) (ht : d.type ≠ 0)
    {j : Fin (NDIRECT + 1)} (hrun : bmapSlot sb disk d j = (a, disk', d')) :
    Local sb (Function.update D i d) disk (Function.update D i d') disk' i := by
  obtain ⟨a₀, disk₀, d₀, hrun₀, -, hkept, -⟩ := bmapSlot_spec h hsb ht j
  cases hrun.symm.trans hrun₀
  by_cases hz : d.addrs j = 0
  · obtain ⟨b, disk₁, hballoc, hown, hE, -, hfresh, -⟩ := balloc_spec h hsb
    have hbits := balloc_bits h hsb hballoc
    rw [bmapSlot, if_pos hz, hballoc] at hrun
    have hself : Function.update D i d i = d := Function.update_self ..
    by_cases hb : b = 0
    · simp only [if_pos hb] at hrun
      cases hrun
      exact .same hE (fun n hn hu => (hbits n hn hu).resolve_right fun hr => hr.2 hb) fun P _ hP hslot =>
        hkept.blocks P hP hslot
    · simp only [if_neg hb] at hrun
      cases hrun
      have hentry := entry_setAddr (i := i) (j := j) (by rwa [hself]) (by rwa [hself]) (hfresh hb)
      rw [hself, Function.update_idem, hE] at hentry
      refine .add rfl hb ?_ hentry (fun n hn hu => (hbits n hn hu).imp id And.left) hkept
      rw [entry, hself, hz, ite_self]
  · rw [bmapSlot, if_neg hz] at hrun
    cases hrun
    exact .refl ..

/-- **`bmap`** loses no block, also when it finds one for the indirect block and none for the data. -/
theorem bmap_local (h : Owned sb (Function.update D i d) disk) (hsb : sb.Ok) (ht : d.type ≠ 0)
    (hrun : bmap sb disk d bn = .ok (a, disk', d')) :
    Local sb (Function.update D i d) disk (Function.update D i d') disk' i := by
  rw [bmap] at hrun
  by_cases hdir : bn < NDIRECT
  · rw [if_pos hdir] at hrun
    exact bmapSlot_local h hsb ht (Except.ok.inj hrun)
  rw [if_neg hdir] at hrun
  by_cases hind : bn - NDIRECT < NINDIRECT
  swap
  · rw [if_neg hind] at hrun
    cases hrun
  rw [if_pos hind] at hrun
  obtain ⟨ind, disk₁, d₁, hslot, hmap, -, haddr, -⟩ := bmapSlot_spec h hsb ht indirectSlot
  have hlocal := bmapSlot_local h hsb ht hslot
  simp only [hslot] at hrun
  by_cases h0 : ind = 0
  · rw [if_pos h0] at hrun
    cases hrun
    exact hlocal
  rw [if_neg h0] at hrun
  have he : (indirectIndex bn).val = bn - NDIRECT := Nat.mod_eq_of_lt hind
  rw [← he] at hrun
  by_cases hz : disk₁ ind.toNat (indirectIndex bn).val = 0
  swap
  · rw [if_neg hz] at hrun
    cases hrun
    exact hlocal
  rw [if_pos hz] at hrun
  obtain ⟨b, disk₂, hballoc, hown₂, hE₂, -, hfresh, hframe⟩ := balloc_spec hmap.owned hsb
  have hbits := balloc_bits hmap.owned hsb hballoc
  simp only [hballoc] at hrun
  by_cases hb : b = 0
  · rw [if_pos hb] at hrun
    cases hrun
    refine hlocal.trans (.same hE₂ (fun n hn hu => (hbits n hn hu).resolve_right fun hr => hr.2 hb)
      fun P _ hP _ => hframe _ ?_ (hmap.owned.data P hP).1)
    rw [hb]
    exact toNat_ne_zero hP
  rw [if_neg hb] at hrun
  have hview : Function.update D i d₁ i = d₁ := Function.update_self ..
  have ht₁ : d₁.type ≠ 0 := hmap.fields.type_eq.symm ▸ ht
  have hne : d₁.addrs indirectSlot ≠ 0 := by rwa [haddr h0]
  have hset := hown₂.setInd (i := i) hsb (by rwa [hview]) (by rwa [hview]) (e := indirectIndex bn) (hfresh hb)
  rw [hview, haddr h0, hE₂] at hset
  have hplace : entry (Function.update D i d₁) disk₁ (i, .addr indirectSlot) = ind := by
    rw [entry_indirect (by rwa [hview]), hview, haddr h0]
  have hdata := hmap.owned.data (i, .addr indirectSlot)
  rw [hplace] at hdata
  cases hrun
  refine hlocal.trans (.add rfl hb ?_ hset.2 (fun n hn hu => ?_) ⟨fun P hP => ?_, fun P hP hslot => ?_⟩)
  · rw [entry, hview, if_neg (not_or.mpr ⟨ht₁, hne⟩), haddr h0, hz]
  · rw [(setBlock_data hsb (hdata h0).1 _).1 n hn] at hu
    exact (hbits n hn hu).imp id And.left
  · rw [hset.2, Function.update_of_ne]
    rintro rfl
    refine hP ?_
    rw [entry, hview, if_neg (not_or.mpr ⟨ht₁, hne⟩), haddr h0, hz]
  · -- only the indirect block is at that place
    rw [setBlock, Function.update_of_ne fun heq => hslot ?_]
    · exact (hfresh hb).other hmap.owned hE₂ hframe P hP
    · exact congrArg Prod.snd (hmap.owned.once P (i, .addr indirectSlot) hP
        ((BitVec.eq_of_toNat_eq heq).trans hplace.symm))

/-- A write to a block of the file. -/
theorem local_setData (h : Owned sb D disk) (hsb : sb.Ok) {slot : Slot} (hslot : slot ≠ .addr indirectSlot)
    (hE : entry D disk (i, slot) = a) (ha : a ≠ 0) (x : Block) :
    Local sb D disk D (setBlock disk a.toNat x) i := by
  have hdata := (hE ▸ h.data (i, slot)) (hE ▸ ha)
  refine .same (h.entry_setData hslot hE x) (fun n hn hu => ?_) fun P hP hne _ => ?_
  · rwa [(setBlock_data hsb hdata.1 x).1 n hn] at hu
  · refine Function.update_of_ne (fun heq => hP ?_) ..
    exact congrArg Prod.fst (h.once P (i, slot) hne ((BitVec.eq_of_toNat_eq heq).trans hE.symm))

theorem writeiLoop_local (hsb : sb.Ok) (src : Source) : ∀ (turns : Nat) (disk : Disk) (d : Dinode)
    (off left tot : Nat) (x : Nat × Nat) (disk' : Disk) (d' : Dinode), off + left ≤ MAXFILE * BSIZE →
    Owned sb (Function.update D i d) disk → d.type ≠ 0 →
    writeiLoop sb src turns disk d off left tot = .ok (x, disk', d') →
    Local sb (Function.update D i d) disk (Function.update D i d') disk' i := by
  intro turns
  induction turns with
  | zero =>
      intro disk d off left tot x disk' d' _ _ _ hrun
      cases hrun
  | succ turns ih =>
      intro disk d off left tot x disk' d' hmax h ht hrun
      rw [writeiLoop] at hrun
      by_cases h0 : left = 0
      · rw [if_pos h0] at hrun
        cases hrun
        exact .refl ..
      rw [if_neg h0] at hrun
      have hbn : off / BSIZE < MAXFILE := by
        simp only [MAXFILE, NDIRECT, NINDIRECT, BSIZE] at *
        omega
      obtain ⟨a, disk₁, d₁, hbmap, hmap, -, hplace, -⟩ := bmap_spec h hsb ht hbn
      have hlocal := bmap_local h hsb ht hbmap
      simp only [hbmap, ok_bind] at hrun
      by_cases ha : a = 0
      · rw [if_pos ha] at hrun
        cases hrun
        exact hlocal
      rw [if_neg ha] at hrun
      have hE := hplace ha
      have hslot := slotOf_ne (off / BSIZE)
      have hwrite := local_setData hmap.owned hsb hslot hE ha
      by_cases hok : (src tot).2 = true
      · simp only [hok, Bool.not_true, Bool.false_eq_true, if_false] at hrun
        exact (hlocal.trans (hwrite _)).trans (ih _ _ _ _ _ _ _ _ (by omega)
          (hmap.owned.setData hsb hslot hE ha _) (hmap.fields.type_eq.symm ▸ ht) hrun)
      · simp only [hok, Bool.not_false, if_true] at hrun
        cases hrun
        exact hlocal.trans (hwrite _)

/-- An inode goes to the disk. -/
theorem local_iupdate (hsb : sb.Ok) (hi : i < sb.ninodes)
    (hown : Owned sb (Function.update (dinodes sb disk) i d) disk) :
    Local sb (Function.update (dinodes sb disk) i d) disk (dinodes sb (iupdate sb disk i d))
      (iupdate sb disk i d) i := by
  rw [dinodes_iupdate hi]
  refine .same (hown.entry_meta fun k hk => iupdate_data hsb hi d hk) (fun n _ hu => ?_) fun P _ hP _ =>
    iupdate_data hsb hi d (hown.data P hP).1
  have hne : bblock sb n ≠ iblock sb i := by
    have := bblock_ge sb n
    have := iblock_lt hsb hi
    omega
  rwa [inUse_congr (show iupdate sb disk i d (bblock sb n) = _ from Function.update_of_ne hne ..)] at hu

section AtRest

variable (h : Owned sb (dinodes sb disk) disk) (hsb : sb.Ok) (hi : i < sb.ninodes)
  (hd : dinodes sb disk i = d) (ht : d.type ≠ 0)

include h hsb hi hd ht

/-- **`writei`** is local, however it ends. -/
theorem writei_local {src : Source} {off : Nat} {res : Option Nat}
    (hrun : writei sb disk i d src off n = .ok (res, disk', d')) :
    Local sb (dinodes sb disk) disk (dinodes sb disk') disk' i := by
  have hself : Function.update (dinodes sb disk) i d = dinodes sb disk := by
    rw [← hd, Function.update_eq_self]
  have hown : Owned sb (Function.update (dinodes sb disk) i d) disk := by rwa [hself]
  rw [writei] at hrun
  split at hrun
  · cases hrun
    exact .refl ..
  split at hrun
  · cases hrun
    exact .refl ..
  next hbig =>
    obtain ⟨x, disk₁, d₁, hloop, hmap⟩ := writeiLoop_spec hsb src (n + 1) disk d off n 0
      (Nat.lt_succ_self n) (not_lt.mp hbig) hown ht
    have hlocal := writeiLoop_local hsb src _ _ _ _ _ _ _ _ _ (not_lt.mp hbig) hown ht hloop
    rw [hloop, ok_bind] at hrun
    cases hrun
    have hent : entry (Function.update (dinodes sb disk) i (if x.2 > d₁.size.toNat then
        { d₁ with size := BitVec.ofNat 32 x.2 } else d₁)) disk₁ =
        entry (Function.update (dinodes sb disk) i d₁) disk₁ := by
      split
      · exact entry_size ..
      · rfl
    have hsize : Local sb (Function.update (dinodes sb disk) i d₁) disk₁ _ disk₁ i :=
      .same hent (fun _ _ hu => hu) fun _ _ _ _ => rfl
    have hown₁ := hmap.owned.same hsb hent fun _ _ hu => hu
    rw [← hmap.inodes] at hown₁ hsize
    rw [hself, ← hmap.inodes] at hlocal
    rw [← hmap.inodes]
    exact (hlocal.trans hsize).trans (local_iupdate hsb hi hown₁)

end AtRest

/-! ### Inodes without blocks -/

/-- The places of the other inodes. -/
theorem entry_update_ne (d : Dinode) {P : Place} (hP : P.1 ≠ i) :
    entry (Function.update D i d) disk P = entry D disk P := by
  obtain ⟨k, slot⟩ := P
  have hk : Function.update D i d k = D k := Function.update_of_ne hP ..
  cases slot with
  | addr j => rw [entry, entry, hk]
  | ind j => rw [entry, entry, hk]

/-- An inode that has no blocks, on disk or because they have been given back, goes to the disk. -/
theorem Tight.emptied (h : Owned sb (dinodes sb disk) disk) (htight : Tight sb (dinodes sb disk) disk)
    (hsb : sb.Ok) (hi : i < sb.ninodes) (d : Dinode) (hD : dinodes sb disk' = dinodes sb disk)
    (hsame : ∀ k, sb.datastart ≤ k → disk' k = disk k)
    (hbits : ∀ n, inUse sb disk' n = true →
      inUse sb disk n = true ∧ ¬ FileBlock (dinodes sb disk) disk i n) :
    Tight sb (dinodes sb (Fs.iupdate sb disk' i d)) (Fs.iupdate sb disk' i d) := by
  rw [dinodes_iupdate hi, hD]
  refine htight.free (fun P hP => ?_) fun n hu => hbits n ?_
  · rw [entry_update_ne d hP]
    exact congrFun (h.entry_meta fun k hk => (iupdate_data hsb hi d hk).trans (hsame k hk)) P
  · have hne : bblock sb n ≠ iblock sb i := by
      have := bblock_ge sb n
      have := iblock_lt hsb hi
      omega
    rwa [inUse_congr (show Fs.iupdate sb disk' i d (bblock sb n) = _ from Function.update_of_ne hne ..)] at hu

theorem not_fileBlock_cleared (hd : ∀ j, (D i).addrs j = 0) : ¬ FileBlock D disk i n := by
  rintro ⟨slot, hne, -⟩
  refine hne ?_
  cases slot with
  | addr j => rw [entry, hd, ite_self]
  | ind j => rw [entry, if_pos (Or.inr (hd _))]

theorem not_fileBlock_free (ht : (D i).type = 0) : ¬ FileBlock D disk i n := by
  rintro ⟨slot, hne, -⟩
  refine hne ?_
  cases slot with
  | addr j => rw [entry, if_pos ht]
  | ind j => rw [entry, if_pos (Or.inl ht)]

/-- **`itrunc`** gives back the blocks and the places together. -/
theorem itrunc_tight (h : Owned sb (dinodes sb disk) disk) (htight : Tight sb (dinodes sb disk) disk)
    (hsb : sb.Ok) (hi : i < sb.ninodes) (hd : dinodes sb disk i = d) (ht : d.type ≠ 0)
    (hrun : itrunc sb disk i d = .ok (disk', d')) : Tight sb (dinodes sb disk') disk' := by
  obtain ⟨disk₁, hf, hrun'⟩ := itrunc_frees h hd ht i
  rw [hrun'] at hrun
  cases hrun
  exact Tight.emptied h htight hsb hi _ (dinodes_congr hsb fun k hk => hf.blocks k (Or.inl hk))
    (fun k hk => hf.blocks k (Or.inr hk)) fun n hu => (hf.bits n).mp hu

/-! ### Runs -/

theorem iget_disk {inum : Nat} {j : Fin NINODE} (hrun : iget s inum = .ok (j, s')) : s'.disk = s.disk := by
  rw [iget] at hrun
  split at hrun
  · cases hrun
    rfl
  · split at hrun
    · cases hrun
    · cases hrun
      rfl

theorem ilock_disk {j : Fin NINODE} (hrun : ilock sb s j = .ok s') : s'.disk = s.disk := by
  rw [ilock] at hrun
  split at hrun
  · cases hrun
  · split at hrun
    · cases hrun
      rfl
    · split at hrun
      · cases hrun
      · cases hrun
        rfl

theorem ialloc_tight {type : BitVec 16} {x : Option (Fin NINODE)} (h : Consistent sb s)
    (htight : Tight sb (dinodes sb s.disk) s.disk) (hrun : ialloc sb s type = .ok (x, s')) :
    Tight sb (dinodes sb s'.disk) s'.disk := by
  rw [ialloc] at hrun
  cases hfind : ((List.range sb.ninodes).drop 1).find? fun inum =>
      decide ((dinodeAt sb s.disk inum).type = 0) with
  | none =>
      simp only [hfind] at hrun
      cases hrun
      exact htight
  | some n =>
      simp only [hfind] at hrun
      obtain ⟨⟨j, s₁⟩, hget, hrun⟩ := bind_eq_ok.mp hrun
      cases hrun
      have hn : n < sb.ninodes :=
        List.mem_range.mp (List.mem_of_mem_drop (List.mem_of_find?_eq_some hfind))
      have hfree : (dinodes sb s.disk n).type = 0 := by
        rw [dinodes, if_pos hn]
        simpa using List.find?_some hfind
      rw [iget_disk hget]
      exact Tight.emptied h.owned htight h.layout hn _ rfl (fun _ _ => rfl) fun _ hu =>
        ⟨hu, not_fileBlock_free hfree⟩

theorem iput_tight {j : Fin NINODE} (h : Consistent sb s) (htight : Tight sb (dinodes sb s.disk) s.disk)
    (hr : 0 < (s.itable j).ref) (hrun : iput sb s j = .ok s') : Tight sb (dinodes sb s'.disk) s'.disk := by
  rw [iput] at hrun
  by_cases hdead : (s.itable j).ref = 1 ∧ (s.itable j).valid = true ∧ (s.itable j).d.nlink = 0
  · obtain ⟨disk₁, htrunc, hup, -⟩ := itrunc_held h ⟨hr, hdead.2.1⟩
    have hinum := h.table.inums j hr
    obtain ⟨hd, ht⟩ := dinode_of_held h ⟨hr, hdead.2.1⟩
    have htight₁ := itrunc_tight h.owned htight h.layout hinum hd ht htrunc
    simp only [if_pos hdead, htrunc, ok_bind, pure_eq_ok] at hrun
    cases hrun
    refine Tight.emptied hup.owned htight₁ h.layout hinum _ rfl (fun _ _ => rfl) fun _ hu =>
      ⟨hu, not_fileBlock_cleared fun k => ?_⟩
    rw [hup.inodes, Function.update_self]
  · rw [if_neg hdead] at hrun
    cases hrun
    exact htight

/-- **One operation** loses no block. -/
theorem fsStep_tight {o : FsOp} {r : FsResult} (hcall : o.Callable sb s) (h : Consistent sb s)
    (htight : Tight sb (dinodes sb s.disk) s.disk) (hstep : fsStep sb o s = .ok (r, s')) :
    Tight sb (dinodes sb s'.disk) s'.disk := by
  cases o with
  | get inum =>
      obtain ⟨⟨i, s₁⟩, hrun, hret⟩ := bind_eq_ok.mp hstep
      cases hret
      rwa [iget_disk hrun]
  | lock i =>
      obtain ⟨s₁, hrun, hret⟩ := bind_eq_ok.mp hstep
      cases hret
      rwa [ilock_disk hrun]
  | write i src off n =>
      obtain ⟨⟨res, disk₁, d₁⟩, hrun, hret⟩ := bind_eq_ok.mp hstep
      cases hret
      obtain ⟨hd, ht⟩ := dinode_of_held h hcall
      exact htight.local (writei_local h.owned h.layout (h.table.inums i hcall.1) hd ht hrun)
  | trunc i =>
      obtain ⟨⟨disk₁, d₁⟩, hrun, hret⟩ := bind_eq_ok.mp hstep
      cases hret
      obtain ⟨hd, ht⟩ := dinode_of_held h hcall
      exact itrunc_tight h.owned htight h.layout (h.table.inums i hcall.1) hd ht hrun
  | alloc type =>
      obtain ⟨⟨i, s₁⟩, hrun, hret⟩ := bind_eq_ok.mp hstep
      cases hret
      exact ialloc_tight h htight hrun
  | put i =>
      obtain ⟨s₁, hrun, hret⟩ := bind_eq_ok.mp hstep
      cases hret
      exact iput_tight h htight hcall hrun
  | link i nlink =>
      cases hstep
      obtain ⟨hd, ht⟩ := dinode_of_held h hcall
      have hE : entry (Function.update (dinodes sb s.disk) _ _) s.disk = entry (dinodes sb s.disk) s.disk :=
        entry_nlink (hd.symm ▸ ht) nlink
      rw [hd] at hE
      exact (htight.same hE fun _ _ hu => hu).local (local_iupdate h.layout (h.table.inums i hcall.1)
        (h.owned.same h.layout hE fun _ _ hu => hu))

/-- The blocks that are marked are those of the files. -/
theorem marked_iff (h : Consistent sb s) (htight : Tight sb (dinodes sb s.disk) s.disk) :
    ∀ n, sb.datastart ≤ n → n < sb.size →
      (inUse sb s.disk n = true ↔ ∃ i, FileBlock (dinodes sb s.disk) s.disk i n) := by
  intro n hge hlt
  constructor
  · intro hu
    obtain ⟨P, hP, hn⟩ := htight n hge hlt hu
    exact ⟨P.1, P.2, hP, hn⟩
  · rintro ⟨i, slot, hne, rfl⟩
    exact h.owned.marked _ hne

/-- **No block is lost**: in every state that the operations lead to, also when they run out of blocks,
a data block is marked exactly if it is a block of a file; so `balloc` finds none only if the files have
them all. -/
theorem no_block_lost (sb : Super) (os : List FsOp) (s s' : State) (rs : List FsResult)
    (hcalls : Meets (fsStep sb) (FsOp.Callable sb) os s) (h : Consistent sb s)
    (htight : Tight sb (dinodes sb s.disk) s.disk) (hrun : run (fsStep sb) os s = .ok (rs, s')) :
    (∀ n, sb.datastart ≤ n → n < sb.size →
      (inUse sb s'.disk n = true ↔ ∃ i, FileBlock (dinodes sb s'.disk) s'.disk i n)) ∧
    ((balloc sb s'.disk).1 = 0 →
      ∀ n, sb.datastart ≤ n → n < sb.size → ∃ i, FileBlock (dinodes sb s'.disk) s'.disk i n) := by
  obtain ⟨hcons, htight'⟩ : Consistent sb s' ∧ Tight sb (dinodes sb s'.disk) s'.disk :=
    run_invariant (I := fun s => Consistent sb s ∧ Tight sb (dinodes sb s.disk) s.disk)
      (fun _ _ _ _ hG hI hstep => ⟨fsStep_consistent hG hI.1 hstep, fsStep_tight hG hI.1 hI.2 hstep⟩)
      os s rs s' hcalls ⟨h, htight⟩ hrun
  have hiff := marked_iff hcons htight'
  refine ⟨hiff, fun h0 n hge hlt => (hiff n hge hlt).mp ?_⟩
  by_contra hfree
  rw [balloc] at h0
  cases hfind : (List.range sb.size).find? fun b => !inUse sb s'.disk b with
  | none =>
      have := List.find?_eq_none.mp hfind n (List.mem_range.mpr hlt)
      exact hfree (by simpa using this)
  | some b =>
      simp only [hfind] at h0
      have hb : b < sb.size := List.mem_range.mp (List.mem_of_find?_eq_some hfind)
      have hbfree : inUse sb s'.disk b = false := by simpa using List.find?_some hfind
      have hb0 : b = 0 := by
        have := congrArg BitVec.toNat h0
        have := hcons.layout.small
        rwa [BitVec.toNat_ofNat, Nat.mod_eq_of_lt (by omega)] at *
      have hzero := hcons.owned.reserved b (hb0 ▸ Nat.zero_lt_of_lt (datastart_gt sb))
      rw [hbfree] at hzero
      cases hzero

theorem no_block_lost_small : ∃ s', run (fsStep smallSuper) smallOps smallState =
      .ok ([some 0, none, some 1025, some 1, none, some 0, none, none], s') ∧
    ∀ n, smallSuper.datastart ≤ n → n < smallSuper.size →
      (inUse smallSuper s'.disk n = true ↔ ∃ i, FileBlock (dinodes smallSuper s'.disk) s'.disk i n) := by
  obtain ⟨s', hrun⟩ : ∃ s', run (fsStep smallSuper) smallOps smallState =
      .ok ([some 0, none, some 1025, some 1, none, some 0, none, none], s') :=
    eq_ok_of_result (by decide +kernel)
  have hfree : ∀ n, n < smallSuper.size → smallSuper.datastart ≤ n →
      inUse smallSuper smallState.disk n = false := by decide
  refine ⟨s', hrun, (no_block_lost smallSuper smallOps smallState s' _ (by decide +kernel)
    smallState_consistent (fun n hge hlt hu => ?_) hrun).1⟩
  rw [hfree n hlt hge] at hu
  cases hu

end Xv6.Fs
