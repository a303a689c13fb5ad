import Xv6.Lib.Count
import Xv6.Fs.Consistent
import Xv6.Fs.Dir

/-!
# Fs — DirOps

A directory is a finite map from names of at most `DIRSIZ` bytes to inode numbers.

* `bmap_none_iff`: when no block can be had.
* `writeDirent_spec`: one entry of the directory is written.
* `dirlink_spec`, `clearDirent_spec`: an operation is an update of the map, or none.
* `directories_are_maps`: the same over runs.
-/

namespace Xv6.Fs
open Xv6.Lib

variable {sb : Super} {disk disk' : Disk} {D : Nat → Dinode} {d d' : Dinode} {i bn k t : Nat} {a : Word}
  {s s' s₁ s₂ : State} {dp : Fin NINODE} {de : Dirent} {name : List Byte}

/-! ### Free blocks -/

def freeBlocks (sb : Super) (disk : Disk) : Nat :=
  Nat.count (fun b => inUse sb disk b = false) sb.size

theorem balloc_count (h : Owned sb D disk) (hsb : sb.Ok) (hrun : balloc sb disk = (a, disk')) :
    (a = 0 ∧ freeBlocks sb disk = 0) ∨ (a ≠ 0 ∧ freeBlocks sb disk = freeBlocks sb disk' + 1) := by
  rw [balloc] at hrun
  cases hfind : (List.range sb.size).find? fun b => !inUse sb disk b with
  | none =>
      rw [hfind] at hrun
      cases hrun
      refine Or.inl ⟨rfl, (count_eq_of_false (Nat.zero_le _) fun b _ hb => ?_).trans (Nat.count_zero _)⟩
      have := List.find?_eq_none.mp hfind b (List.mem_range.mpr hb)
      simpa using this
  | some b =>
      rw [hfind] at hrun
      cases hrun
      have hb : b < sb.size := List.mem_range.mp (List.mem_of_find?_eq_some hfind)
      have hfree : inUse sb disk b = false := by simpa using List.find?_some hfind
      have hdata : sb.datastart ≤ b := by
        by_contra hlt
        rw [h.reserved b (not_le.mp hlt)] at hfree
        cases hfree
      have hnat : (BitVec.ofNat 32 b).toNat = b := by
        have := hsb.small
        rw [BitVec.toNat_ofNat]
        exact Nat.mod_eq_of_lt (by omega)
      have hbits : ∀ n, n < sb.size → inUse sb (bzero (setInUse sb disk b true) b) n =
          if n = b then true else inUse sb disk n := by
        intro n hn
        have hne : bblock sb n ≠ b := ((bblock_lt hn).trans_le hdata).ne
        rw [← inUse_setInUse]
        exact inUse_congr (Function.update_of_ne hne ..)
      refine Or.inr ⟨fun h0 => ?_, ?_⟩
      · rw [h0] at hnat
        have : sb.bmapstart < sb.datastart := datastart_gt sb
        have hzero : (0 : Word).toNat = 0 := rfl
        omega
      · have hcount : freeBlocks sb (bzero (setInUse sb disk b true) b) =
            Nat.count (fun n => n ≠ b ∧ inUse sb disk n = false) sb.size := by
          refine count_congr fun n hn => ?_
          rw [hbits n hn]
          by_cases hnb : n = b
          · simp [hnb]
          · simp [hnb]
        rw [hcount]
        exact count_add_one hb (fun hn => hn.1 rfl) hfree fun n hn => by simp [hn]

/-- The blocks that `bmap` may have to allocate for block `bn`. -/
def blocksNeeded (d : Dinode) (bn : Nat) : Nat :=
  if bn < NDIRECT ∨ d.addrs indirectSlot ≠ 0 then 1 else 2

theorem bmapSlot_none_iff (h : Owned sb D disk) (hsb : sb.Ok) {j : Fin (NDIRECT + 1)}
    (hrun : bmapSlot sb disk d j = (a, disk', d')) :
    (a = 0 ↔ d.addrs j = 0 ∧ freeBlocks sb disk = 0) ∧
    (a ≠ 0 → freeBlocks sb disk = freeBlocks sb disk' + if d.addrs j = 0 then 1 else 0) := by
  rw [bmapSlot] at hrun
  by_cases hz : d.addrs j = 0
  · rw [if_pos hz] at hrun
    obtain ⟨a₁, disk₁, hb⟩ : ∃ a₁ disk₁, balloc sb disk = (a₁, disk₁) := ⟨_, _, rfl⟩
    rw [hb] at hrun
    rcases balloc_count h hsb hb with ⟨ha, hc⟩ | ⟨ha, hc⟩
    · simp only [if_pos ha] at hrun
      cases hrun
      exact ⟨⟨fun _ => ⟨hz, hc⟩, fun _ => rfl⟩, fun hne => absurd rfl hne⟩
    · simp only [if_neg ha] at hrun
      cases hrun
      refine ⟨⟨fun h0 => absurd h0 ha, fun h0 => ?_⟩, fun _ => by rw [if_pos hz, hc]⟩
      omega
  · rw [if_neg hz] at hrun
    cases hrun
    exact ⟨⟨fun h0 => absurd h0 hz, fun h0 => absurd h0.1 hz⟩, fun _ => by rw [if_neg hz, Nat.add_zero]⟩

/-- **When `bmap` has no block**: there is none at the place, and too few are free. -/
theorem bmap_none_iff (h : Owned sb (Function.update D i d) disk) (hsb : sb.Ok) (ht : d.type ≠ 0)
    (hbn : bn < MAXFILE) (hrun : bmap sb disk d bn = .ok (a, disk', d')) :
    a = 0 ↔ ¬ HasBlock (Function.update D i d) disk i bn ∧ freeBlocks sb disk < blocksNeeded d bn := by
  have hself : Function.update D i d i = d := Function.update_self ..
  rw [HasBlock, not_not, blocksNeeded]
  by_cases hdir : bn < NDIRECT
  · rw [bmap, if_pos hdir] at hrun
    obtain ⟨hnone, -⟩ := bmapSlot_none_iff h hsb (Except.ok.inj hrun)
    rw [hnone, slotOf_direct hdir, entry, hself, if_neg ht, if_pos (Or.inl hdir), Nat.lt_one_iff]
  · have hind : bn - NDIRECT < NINDIRECT := by
      simp only [MAXFILE] at hbn
      omega
    have he : (indirectIndex bn).val = bn - NDIRECT := Nat.mod_eq_of_lt hind
    obtain ⟨ind, disk₁, d₁, hslot, hmap, -, hplace, hzero, hsame⟩ :=
      bmapSlot_spec h hsb ht indirectSlot
    obtain ⟨hnone, hcount⟩ := bmapSlot_none_iff h hsb hslot
    rw [bmap, if_neg hdir, if_pos hind, hslot] at hrun
    rw [slotOf_ind hdir, entry, hself]
    by_cases h0 : ind = 0
    · -- there is no indirect block, and none is free
      simp only [if_pos h0] at hrun
      cases hrun
      obtain ⟨hz, hfree⟩ := hnone.mp h0
      have hneed : ¬ (bn < NDIRECT ∨ d.addrs indirectSlot ≠ 0) := fun hor => hor.elim hdir fun hne => hne hz
      rw [if_pos (Or.inr hz), if_neg hneed, hfree]
      simp
    · have haddr : d₁.addrs indirectSlot = ind := hplace h0
      have hentry : (if d.type = 0 ∨ d.addrs indirectSlot = 0 then 0
          else disk (d.addrs indirectSlot).toNat (indirectIndex bn)) = disk₁ ind.toNat (bn - NDIRECT) ∨
          (d.addrs indirectSlot = 0 ∧ disk₁ ind.toNat (bn - NDIRECT) = 0) := by
        by_cases hz : d.addrs indirectSlot = 0
        · refine Or.inr ⟨hz, ?_⟩
          obtain ⟨a₁, disk₂, hb, hown, hE, -, hfresh, -⟩ := balloc_spec h hsb
          rw [bmapSlot, if_pos hz, hb] at hslot
          by_cases ha₁ : a₁ = 0
          · simp only [if_pos ha₁] at hslot
            cases hslot
            exact absurd rfl h0
          · simp only [if_neg ha₁] at hslot
            cases hslot
            rw [(hfresh ha₁).zero]
        · obtain ⟨rfl, rfl⟩ := hsame hz
          rw [if_neg (not_or.mpr ⟨ht, hz⟩), haddr, he]
          exact Or.inl rfl
      have hfound : (if d.type = 0 ∨ d.addrs indirectSlot = 0 then 0
          else disk (d.addrs indirectSlot).toNat (indirectIndex bn)) = disk₁ ind.toNat (bn - NDIRECT) := by
        rcases hentry with hE | ⟨hz, hE⟩
        · exact hE
        · rw [if_pos (Or.inr hz), hE]
      rw [hfound]
      simp only [if_neg h0] at hrun
      by_cases hz₁ : disk₁ ind.toNat (bn - NDIRECT) = 0
      · rw [if_pos hz₁] at hrun
        obtain ⟨a₂, disk₂, hb⟩ : ∃ a₂ disk₂, balloc sb disk₁ = (a₂, disk₂) := ⟨_, _, rfl⟩
        rw [hb] at hrun
        have hfree₁ := hcount h0
        have hneed : (if bn < NDIRECT ∨ d.addrs indirectSlot ≠ 0 then 1 else 2) =
            1 + if d.addrs indirectSlot = 0 then 1 else 0 := by
          by_cases hz : d.addrs indirectSlot = 0
          · rw [if_pos hz, if_neg fun hor => hor.elim hdir fun hne => hne hz]
          · rw [if_neg hz, if_pos (Or.inr hz)]
        rw [hneed, hfree₁]
        rcases balloc_count hmap.owned hsb hb with ⟨ha, hc⟩ | ⟨ha, hc⟩
        · simp only [if_pos ha] at hrun
          cases hrun
          rw [hc]
          exact ⟨fun _ => ⟨hz₁, by omega⟩, fun _ => rfl⟩
        · simp only [if_neg ha] at hrun
          cases hrun
          refine ⟨fun h0' => absurd h0' ha, fun hb => ?_⟩
          omega
      · rw [if_neg hz₁] at hrun
        cases hrun
        exact ⟨fun h0' => absurd h0' hz₁, fun hb => absurd hb.1 hz₁⟩

/-! ### One entry is written -/

/-- The state after `writei` to the directory. -/
def written (s : State) (dp : Fin NINODE) (disk : Disk) (d : Dinode) : State :=
  setInode { s with disk := disk } dp { s.itable dp with d := d }

theorem written_self (s : State) (dp : Fin NINODE) (disk : Disk) (d : Dinode) :
    (written s dp disk d).itable dp = { s.itable dp with d := d } := Function.update_self ..

theorem written_other {j : Fin NINODE} (hj : j ≠ dp) (disk : Disk) (d : Dinode) :
    (written s dp disk d).itable j = s.itable j := Function.update_of_ne hj ..

theorem dirents_getElem? (D : Nat → Dinode) (disk : Disk) (i j : Nat) : (dirents D disk i)[j]? =
    if j < (D i).size.toNat / DIRENT then some (direntAt D disk i j) else none := by
  rw [dirents, List.getElem?_map]
  by_cases hj : j < (D i).size.toNat / DIRENT
  · rw [List.getElem?_range hj, if_pos hj]
    rfl
  · rw [List.getElem?_eq_none (by rw [List.length_range]; exact not_lt.mp hj), if_neg hj]
    rfl

/-- An entry after a write of `t` bytes at entry `k`. -/
theorem direntAt_write {j : Nat} (hw : Wrote D disk (dinodes sb disk') disk' i
      (fun j => de.bytes.getD j 0) (DIRENT * k) 0 t 0) (ht : t = 0 ∨ t = DIRENT)
    (hj : DIRENT * j + DIRENT ≤ MAXFILE * BSIZE) (hlen : de.name.length = DIRSIZ)
    (hhas : HasBlock D disk i (DIRENT * j / BSIZE) ∨ (j = k ∧ t = DIRENT)) :
    direntAt (dinodes sb disk') disk' i j =
      if j = k ∧ t = DIRENT then de else direntAt D disk i j := by
  have hbyte : ∀ m, m < DIRENT → fileByte (dinodes sb disk') disk' i (DIRENT * j + m) =
      if j = k ∧ t = DIRENT then de.bytes.getD m 0 else fileByte D disk i (DIRENT * j + m) := by
    intro m hm
    have hblock : (DIRENT * j + m) / BSIZE = DIRENT * j / BSIZE := by
      simp only [DIRENT, BSIZE] at *
      omega
    have hin : (DIRENT * k + 0 ≤ DIRENT * j + m ∧ DIRENT * j + m < DIRENT * k + t) ↔
        j = k ∧ t = DIRENT := by
      simp only [DIRENT] at *
      omega
    rw [hw.byte _ (by omega) (by rw [hblock, hin]; exact hhas), Nat.add_zero (DIRENT * k + t)]
    simp only [hin]
    by_cases hjk : j = k ∧ t = DIRENT
    · rw [if_pos hjk, if_pos hjk, hjk.1, Nat.add_sub_cancel_left]
    · rw [if_neg hjk, if_neg hjk]
  have hbytes : fileBytes (dinodes sb disk') disk' i (DIRENT * j) DIRENT =
      if j = k ∧ t = DIRENT then de.bytes else fileBytes D disk i (DIRENT * j) DIRENT := by
    refine List.ext_getElem? fun m => ?_
    by_cases hm : m < DIRENT
    · by_cases hjk : j = k ∧ t = DIRENT
      · have := de.bytes_length hlen
        rw [if_pos hjk, fileBytes, List.getElem?_map, List.getElem?_range hm, Option.map_some,
          hbyte m hm, if_pos hjk, List.getD_eq_getElem?_getD, List.getElem?_eq_getElem (by omega),
          Option.getD_some]
      · rw [if_neg hjk, fileBytes, fileBytes, List.getElem?_map, List.getElem?_map,
          List.getElem?_range hm, Option.map_some, Option.map_some, hbyte m hm, if_neg hjk]
    · have hge := not_lt.mp hm
      by_cases hjk : j = k ∧ t = DIRENT
      · have := de.bytes_length hlen
        rw [if_pos hjk, List.getElem?_eq_none (by simpa [fileBytes] using hge),
          List.getElem?_eq_none (by omega)]
      · rw [if_neg hjk, List.getElem?_eq_none (by simpa [fileBytes] using hge),
          List.getElem?_eq_none (by simpa [fileBytes] using hge)]
  rw [direntAt, hbytes]
  by_cases hjk : j = k ∧ t = DIRENT
  · rw [if_pos hjk, if_pos hjk, Dirent.ofBytes_bytes]
  · rw [if_neg hjk, if_neg hjk, direntAt]

/-- **The entries after a write** of a whole entry, or of nothing. -/
theorem entries_write (h : DirOk sb s dp) (hk : k ≤ (entriesOf sb s dp).length)
    (hlen : de.name.length = DIRSIZ) (ht : t = 0 ∨ t = DIRENT)
    (hmax : DIRENT * k + DIRENT ≤ MAXFILE * BSIZE)
    (hw : WriteEnd sb s.disk (s.itable dp).inum (fun j => de.bytes.getD j 0) (DIRENT * k) t 0 disk' d')
    (htype : d'.type = (s.itable dp).d.type)
    (hsz : d'.size.toNat = max (s.itable dp).d.size.toNat (DIRENT * k + t)) :
    DirOk sb (written s dp disk' d') dp ∧ entriesOf sb (written s dp disk' d') dp =
      if t = DIRENT then Slots.replace (entriesOf sb s dp) k de else entriesOf sb s dp := by
  have hself := written_self s dp disk' d'
  have hd' : dinodes sb disk' (s.itable dp).inum = d' := by
    rw [hw.updated.inodes, Function.update_self]
  have hsize := h.size_eq
  have hsmall := h.small
  have hzero : ¬ 0 = DIRENT := by decide
  refine ⟨⟨h.layout, hw.updated.owned, ?_, ?_, ?_, ?_, ?_, ?_⟩, ?_⟩
  · rw [Held, hself]
    exact h.held
  · rw [hself]
    exact h.inum
  · rw [hself]
    exact hd'
  · rw [hself]
    exact htype.trans h.type
  · rw [hself]
    exact hw.whole
  · rw [hself]
    show DIRENT ∣ d'.size.toNat
    rw [hsz, hsize]
    rcases ht with rfl | rfl
    · exact ⟨max (entriesOf sb s dp).length k, by simp only [DIRENT]; omega⟩
    · exact ⟨max (entriesOf sb s dp).length (k + 1), by simp only [DIRENT]; omega⟩
  · have hentries : entriesOf sb (written s dp disk' d') dp =
        dirents (dinodes sb disk') disk' (s.itable dp).inum := by rw [entriesOf, hself]; rfl
    rw [hentries]
    refine List.ext_getElem? fun j => ?_
    have hcount : d'.size.toNat / DIRENT =
        if t = DIRENT then max (entriesOf sb s dp).length (k + 1) else (entriesOf sb s dp).length := by
      rw [hsz, hsize]
      rcases ht with rfl | rfl
      · rw [if_neg hzero]
        simp only [DIRENT] at *
        omega
      · rw [if_pos rfl]
        simp only [DIRENT] at *
        omega
    have hold : (entriesOf sb s dp)[j]? = if j < (entriesOf sb s dp).length then
        some (direntAt (dinodes sb s.disk) s.disk (s.itable dp).inum j) else none := by
      by_cases hj : j < (entriesOf sb s dp).length
      · rw [List.getElem?_eq_getElem hj, if_pos hj, DirOk.getElem_eq hj]
      · rw [List.getElem?_eq_none (not_lt.mp hj), if_neg hj]
    rw [dirents_getElem?, hd', hcount]
    by_cases hin : j < (if t = DIRENT then max (entriesOf sb s dp).length (k + 1)
        else (entriesOf sb s dp).length)
    · have hhas : HasBlock (dinodes sb s.disk) s.disk (s.itable dp).inum (DIRENT * j / BSIZE) ∨
          (j = k ∧ t = DIRENT) := by
        by_cases hj : j < (entriesOf sb s dp).length
        · refine Or.inl (h.whole.blocks _ ?_)
          rw [h.cached, hsize]
          exact Nat.mul_lt_mul_of_pos_left hj (by decide)
        · rcases ht with rfl | rfl
          · rw [if_neg hzero] at hin
            exact absurd hin hj
          · rw [if_pos rfl] at hin
            exact Or.inr ⟨by omega, rfl⟩
      have hjmax : DIRENT * j + DIRENT ≤ MAXFILE * BSIZE := by
        by_cases hj : j < (entriesOf sb s dp).length
        · simp only [DIRENT] at *
          omega
        · rcases ht with rfl | rfl
          · rw [if_neg hzero] at hin
            exact absurd hin hj
          · rw [if_pos rfl] at hin
            rw [show j = k by omega]
            exact hmax
      rw [if_pos hin, direntAt_write hw.wrote ht hjmax hlen hhas]
      rcases ht with rfl | rfl
      · rw [if_neg hzero] at hin ⊢
        rw [if_neg fun hjk => hzero hjk.2, hold, if_pos hin]
      · rw [if_pos rfl] at hin ⊢
        rw [Slots.getElem?_replace hk, hold]
        by_cases hjk : j = k
        · rw [if_pos ⟨hjk, rfl⟩, if_pos hjk]
        · rw [if_neg fun h => hjk h.1, if_neg hjk, if_pos (by omega)]
    · rw [if_neg hin]
      rcases ht with rfl | rfl
      · rw [if_neg hzero] at hin ⊢
        rw [hold, if_neg hin]
      · rw [if_pos rfl] at hin ⊢
        rw [Slots.getElem?_replace hk, if_neg (by omega), hold, if_neg (by omega)]

/-- Growing the directory takes a block that cannot be had. -/
def NoBlock (sb : Super) (s : State) (dp : Fin NINODE) : Prop :=
  ¬ HasBlock (dinodes sb s.disk) s.disk (s.itable dp).inum ((s.itable dp).d.size.toNat / BSIZE) ∧
  freeBlocks sb s.disk < blocksNeeded (s.itable dp).d ((s.itable dp).d.size.toNat / BSIZE)

/-- What a write of entry `k` comes to. -/
inductive DirentWritten (sb : Super) (s : State) (dp : Fin NINODE) (de : Dirent) (k : Nat) :
    Option Nat → State → Prop where
  | done (disk : Disk) (d : Dinode) (hok : DirOk sb (written s dp disk d) dp)
      (hentries : entriesOf sb (written s dp disk d) dp = Slots.replace (entriesOf sb s dp) k de)
      (hroom : k < (entriesOf sb s dp).length ∨
        ((s.itable dp).d.size.toNat ≠ MAXFILE * BSIZE ∧ ¬ NoBlock sb s dp)) :
      DirentWritten sb s dp de k (some DIRENT) (written s dp disk d)
  | full (disk : Disk) (d : Dinode) (hok : DirOk sb (written s dp disk d) dp)
      (hentries : entriesOf sb (written s dp disk d) dp = entriesOf sb s dp)
      (hend : k = (entriesOf sb s dp).length) (hno : NoBlock sb s dp) :
      DirentWritten sb s dp de k (some 0) (written s dp disk d)
  | refused (hend : k = (entriesOf sb s dp).length)
      (hmax : (s.itable dp).d.size.toNat = MAXFILE * BSIZE) :
      DirentWritten sb s dp de k none s

/-- An entry is in one block, so that it is one turn. -/
theorem writei_dirent (i : Nat) (src : Source) (hsrc : (src 0).2 = true) (hk : DIRENT * k ≤ d.size.toNat)
    (hmax : DIRENT * k + DIRENT ≤ MAXFILE * BSIZE)
    (hrun : bmap sb disk d (DIRENT * k / BSIZE) = .ok (a, disk', d')) :
    (writei sb disk i d src (DIRENT * k) DIRENT).toOption.map Prod.fst =
      some (some (if a = 0 then 0 else DIRENT)) := by
  have hm : min DIRENT (BSIZE - DIRENT * k % BSIZE) = DIRENT := by
    simp only [DIRENT, BSIZE]
    omega
  have hwrap : ¬ (DIRENT * k > d.size.toNat ∨ DIRENT * k + DIRENT ≥ 2 ^ 32) := by
    simp only [DIRENT, MAXFILE, NDIRECT, NINDIRECT, BSIZE] at *
    omega
  rw [writei, if_neg hwrap, if_neg (not_lt.mpr hmax), writeiLoop, if_neg (by decide), hrun, ok_bind]
  by_cases ha : a = 0
  · simp only [if_pos ha]
    rfl
  · simp only [if_neg ha, hm, hsrc, Bool.not_true, Bool.false_eq_true, if_false, Nat.sub_self]
    rw [writeiLoop, if_pos rfl]
    rfl

/-- **One entry is written**, in full or not at all. -/
theorem writeDirent_spec (de : Dirent) (h : DirOk sb s dp) (hk : k ≤ (entriesOf sb s dp).length)
    (hlen : de.name.length = DIRSIZ) : ∃ n s', writeDirent sb s dp de (DIRENT * k) = .ok (n, s') ∧
      DirentWritten sb s dp de k n s' := by
  have hsize := h.size_eq
  have hsmall := h.small
  have hoff : DIRENT * k ≤ (s.itable dp).d.size.toNat := by
    rw [hsize]
    exact Nat.mul_le_mul_left _ hk
  have hwrap : DIRENT * k + DIRENT < 2 ^ 32 := by
    simp only [DIRENT, MAXFILE, NDIRECT, NINDIRECT, BSIZE] at *
    omega
  by_cases hmax : DIRENT * k + DIRENT ≤ MAXFILE * BSIZE
  · have hself : Function.update (dinodes sb s.disk) (s.itable dp).inum (s.itable dp).d =
        dinodes sb s.disk := by rw [← h.cached, Function.update_eq_self]
    have hown : Owned sb (Function.update (dinodes sb s.disk) (s.itable dp).inum (s.itable dp).d)
        s.disk := by
      rw [hself]
      exact h.owned
    have hbn : DIRENT * k / BSIZE < MAXFILE := by
      simp only [DIRENT, MAXFILE, NDIRECT, NINDIRECT, BSIZE] at *
      omega
    obtain ⟨a, disk₁, d₁, hbmap, -⟩ := bmap_spec hown h.layout h.type_ne hbn
    have hnone := bmap_none_iff hown h.layout h.type_ne hbn hbmap
    rw [hself] at hnone
    obtain ⟨t, m, disk', disk₀, d', hrun, -, hend, -, -, hstop, ht, -, hbound, htype, hsz⟩ :=
      writei_contents h.owned h.layout h.inum h.cached h.type_ne (fun j => de.bytes.getD j 0) DIRENT
        hoff hwrap hmax h.whole
    have hfirst := writei_dirent (s.itable dp).inum
      (copyin (fun j => de.bytes.getD j 0) DIRENT (DIRENT * k) DIRENT)
      (decide_eq_true (turn_le _ (Nat.zero_le _))) hoff hmax hbmap
    rw [hrun] at hfirst
    have hta : t = if a = 0 then 0 else DIRENT := by simpa [Except.toOption] using hfirst
    have hm0 : m = 0 := by
      cases hstop with
      | done _ hm => exact hm
      | full _ hm _ => exact hm
      | fault hlt hlim _ =>
          have := turn_le (DIRENT * k) ht
          omega
    rw [hm0] at hend
    have ht' : t = 0 ∨ t = DIRENT := by
      rw [hta]
      exact (ite_eq_or_eq (a = 0) 0 DIRENT)
    obtain ⟨hok, hentries⟩ := entries_write h hk hlen ht' hmax hend htype hsz
    refine ⟨some t, written s dp disk' d', by rw [writeDirent, hrun]; rfl, ?_⟩
    by_cases ha : a = 0
    · rw [if_pos ha] at hta
      rw [hta, if_neg (show ¬ 0 = DIRENT by decide)] at hentries
      rw [hta]
      obtain ⟨hhas, hfree⟩ := hnone.mp ha
      have hkend : k = (entriesOf sb s dp).length := by
        by_contra hne
        refine hhas (h.whole.blocks _ ?_)
        rw [h.cached, hsize]
        exact Nat.mul_lt_mul_of_pos_left (by omega) (by decide)
      refine .full disk' d' hok hentries hkend ?_
      rw [NoBlock, hsize, ← hkend]
      exact ⟨hhas, hfree⟩
    · rw [if_neg ha] at hta
      rw [hta, if_pos rfl] at hentries
      rw [hta]
      refine .done disk' d' hok hentries ?_
      by_cases hlt : k < (entriesOf sb s dp).length
      · exact Or.inl hlt
      · have hkend : k = (entriesOf sb s dp).length := by omega
        refine Or.inr ⟨by rw [hsize, ← hkend]; exact Nat.ne_of_lt (by simp only [DIRENT] at *; omega), ?_⟩
        rw [NoBlock, hsize, ← hkend]
        exact fun hno => ha (hnone.mpr hno)
  · have hbig : DIRENT * k + DIRENT > MAXFILE * BSIZE := not_le.mp hmax
    have hkend : k = (entriesOf sb s dp).length ∧ DIRENT * k = MAXFILE * BSIZE := by
      simp only [DIRENT, MAXFILE, NDIRECT, NINDIRECT, BSIZE] at *
      omega
    refine ⟨none, s, ?_, .refused hkend.1 (by rw [hsize, ← hkend.1, hkend.2])⟩
    have hsame : setInode { s with disk := s.disk } dp { s.itable dp with d := (s.itable dp).d } = s :=
      setInode_self s dp
    simp only [writeDirent, writei, if_neg (show ¬ (DIRENT * k > (s.itable dp).d.size.toNat ∨
      DIRENT * k + DIRENT ≥ 2 ^ 32) by omega), if_pos hbig, ok_bind, hsame, pure_eq_ok]

/-! ### `iget` and `iput` -/

/-- What `iget` does to the table. -/
inductive Got (s : State) (inum : Nat) : Fin NINODE → State → Prop where
  | shared (j : Fin NINODE) (href : 0 < (s.itable j).ref) (hinum : (s.itable j).inum = inum) :
      Got s inum j (setInode s j { s.itable j with ref := (s.itable j).ref + 1 })
  | recycled (j : Fin NINODE) (href : (s.itable j).ref = 0) :
      Got s inum j (setInode s j { s.itable j with inum := inum, ref := 1, valid := false })

theorem iget_cases (s : State) (inum : Nat) :
    (∃ j s', iget s inum = .ok (j, s') ∧ Got s inum j s') ∨ iget s inum = .error "iget: no inodes" := by
  rw [iget]
  cases hfind : (List.finRange NINODE).find? fun i =>
      decide (0 < (s.itable i).ref) && decide ((s.itable i).inum = inum) with
  | some j =>
      have hj : 0 < (s.itable j).ref ∧ (s.itable j).inum = inum := by
        simpa using List.find?_some hfind
      exact Or.inl ⟨j, _, rfl, .shared j hj.1 hj.2⟩
  | none =>
      cases hfree : (List.finRange NINODE).find? fun i => decide ((s.itable i).ref = 0) with
      | none => exact Or.inr rfl
      | some j => exact Or.inl ⟨j, _, rfl, .recycled j (by simpa using List.find?_some hfree)⟩

/-- A put of this entry gives nothing back. -/
def Spare (s : State) (j : Fin NINODE) : Prop :=
  0 < (s.itable j).ref ∧ ((s.itable j).ref = 1 → (s.itable j).valid = false)

/-- The directory as it was, up to its references. -/
structure SameDir (s s' : State) (dp : Fin NINODE) : Prop where
  disk : s'.disk = s.disk
  inum : (s'.itable dp).inum = (s.itable dp).inum
  d : (s'.itable dp).d = (s.itable dp).d
  held : Held s dp → Held s' dp

theorem SameDir.trans (h : SameDir s s₁ dp) (h' : SameDir s₁ s₂ dp) : SameDir s s₂ dp :=
  ⟨h'.disk.trans h.disk, h'.inum.trans h.inum, h'.d.trans h.d, fun hs => h'.held (h.held hs)⟩

theorem SameDir.entriesOf (h : SameDir s s' dp) : entriesOf sb s' dp = entriesOf sb s dp := by
  rw [Fs.entriesOf, Fs.entriesOf, h.disk, h.inum]

theorem SameDir.dirOk (h : SameDir s s' dp) (hok : DirOk sb s dp) : DirOk sb s' dp := by
  refine ⟨hok.layout, ?_, h.held hok.held, ?_, ?_, ?_, ?_, ?_⟩
  · rw [h.disk]
    exact hok.owned
  · rw [h.inum]
    exact hok.inum
  · rw [h.disk, h.inum, h.d]
    exact hok.cached
  · rw [h.d]
    exact hok.type
  · rw [h.disk, h.inum]
    exact hok.whole
  · rw [h.d]
    exact hok.aligned

theorem sameDir_setInode {j : Fin NINODE} {ip : Inode}
    (h : j = dp → ip.inum = (s.itable dp).inum ∧ ip.d = (s.itable dp).d ∧
      (Held s dp → 0 < ip.ref ∧ ip.valid = true)) : SameDir s (setInode s j ip) dp := by
  by_cases hj : j = dp
  · subst hj
    obtain ⟨hinum, hd, hheld⟩ := h rfl
    have hself : (setInode s j ip).itable j = ip := Function.update_self ..
    refine ⟨rfl, by rw [hself, hinum], by rw [hself, hd], fun hs => ?_⟩
    rw [Held, hself]
    exact hheld hs
  · have hother : (setInode s j ip).itable dp = s.itable dp := Function.update_of_ne (Ne.symm hj) ..
    refine ⟨rfl, by rw [hother], by rw [hother], fun hs => ?_⟩
    rw [Held, hother]
    exact hs

theorem Got.spec {inum : Nat} {j : Fin NINODE} (hheld : Held s dp) (h : Got s inum j s') :
    SameDir s s' dp ∧ (s'.itable j).inum = inum ∧ Spare s' j := by
  cases h with
  | shared href hinum =>
      have hself : ∀ ip, (setInode s j ip).itable j = ip := fun ip => Function.update_self ..
      refine ⟨sameDir_setInode fun hj => ?_, by rw [hself]; exact hinum, ?_⟩
      · subst hj
        exact ⟨rfl, rfl, fun hs => ⟨Nat.succ_pos _, hs.2⟩⟩
      · rw [Spare, hself]
        exact ⟨Nat.succ_pos _, fun h1 => absurd (Nat.succ.inj h1) href.ne'⟩
  | recycled href =>
      have hself : ∀ ip, (setInode s j ip).itable j = ip := fun ip => Function.update_self ..
      refine ⟨sameDir_setInode fun hj => ?_, by rw [hself], ?_⟩
      · subst hj
        exact absurd href hheld.1.ne'
      · rw [Spare, hself]
        exact ⟨Nat.one_pos, fun _ => rfl⟩

theorem iput_spare (sb : Super) {j : Fin NINODE} (h : Spare s j) :
    ∃ s', iput sb s j = .ok s' ∧ ∀ dp, SameDir s s' dp := by
  have hlive : ¬ ((s.itable j).ref = 1 ∧ (s.itable j).valid = true ∧ (s.itable j).d.nlink = 0) :=
    fun hdead => by
      have := h.2 hdead.1
      rw [hdead.2.1] at this
      cases this
  refine ⟨_, if_neg hlive, fun dp => sameDir_setInode fun hj => ?_⟩
  subst hj
  refine ⟨rfl, rfl, fun hs => ⟨?_, hs.2⟩⟩
  show 0 < (s.itable j).ref - 1
  have hpos := h.1
  have hne : (s.itable j).ref ≠ 1 := fun h1 => by
    have := h.2 h1
    rw [hs.2] at this
    cases this
  omega

/-! ### The operations -/

/-- No two entries have names that are equal under `namecmp`. -/
def UniqueNames (sb : Super) (s : State) (dp : Fin NINODE) : Prop :=
  (entriesOf sb s dp).Pairwise fun de de' =>
    de.inum ≠ 0 → de'.inum ≠ 0 → namecmp de.name de'.name ≠ 0

theorem uniqueNames_iff : UniqueNames sb s dp ↔ Slots.Distinct isLive nameOf (entriesOf sb s dp) := by
  refine List.Pairwise.iff fun de de' => ?_
  simp only [isLive, nameOf, decide_eq_true_eq, ne_eq, namecmp_eq_zero]

/-- The entry that `dirlink` writes. -/
def newDirent (name : List Byte) (inum : Nat) : Dirent := ⟨BitVec.ofNat 16 inum, strncpy DIRSIZ name⟩

/-- What `dirlink` comes to. -/
inductive DirLinked (sb : Super) (s : State) (dp : Fin NINODE) (name : List Byte) (inum : Nat) :
    Int → State → Prop where
  | present (s' : State) (hsame : SameDir s s' dp) (hfound : lookup sb s dp (cname name) ≠ none) :
      DirLinked sb s dp name inum (-1) s'
  | linked (s' : State) (hok : DirOk sb s' dp) (hnew : lookup sb s dp (cname name) = none)
      (hentries : entriesOf sb s' dp = Slots.replace (entriesOf sb s dp)
        (Slots.hole isLive (entriesOf sb s dp)) (newDirent name inum))
      (hroom : Slots.hole isLive (entriesOf sb s dp) < (entriesOf sb s dp).length ∨
        ((s.itable dp).d.size.toNat ≠ MAXFILE * BSIZE ∧ ¬ NoBlock sb s dp)) :
      DirLinked sb s dp name inum 0 s'
  | full (s' : State) (hok : DirOk sb s' dp) (hnew : lookup sb s dp (cname name) = none)
      (hentries : entriesOf sb s' dp = entriesOf sb s dp)
      (hend : Slots.hole isLive (entriesOf sb s dp) = (entriesOf sb s dp).length)
      (hfull : (s.itable dp).d.size.toNat = MAXFILE * BSIZE ∨ NoBlock sb s dp) :
      DirLinked sb s dp name inum (-1) s'

/-- **`dirlink`**; it stops only when the inode table is full. -/
theorem dirlink_spec (h : DirOk sb s dp) (name : List Byte) (inum : Nat) :
    (∃ r s', dirlink sb s dp name inum = .ok (r, s') ∧ DirLinked sb s dp name inum r s') ∨
    dirlink sb s dp name inum = .error "iget: no inodes" := by
  rw [dirlink, dirlookup_spec h]
  cases hfound : lookup sb s dp (cname name) with
  | some x =>
      rcases iget_cases s x with ⟨j, s₁, hget, hgot⟩ | hget
      · obtain ⟨hsame, -, hspare⟩ := hgot.spec h.held
        obtain ⟨s₂, hput, hsame₂⟩ := iput_spare sb hspare
        refine Or.inl ⟨-1, s₂, ?_, .present s₂ (hsame.trans (hsame₂ dp)) ?_⟩
        · simp only [getFound, hget, ok_bind, pure_eq_ok, hput]
        · rw [hfound]
          exact Option.some_ne_none x
      · refine Or.inr ?_
        simp only [getFound, hget, error_bind]
  | none =>
      have hscan := scanDirents_spec h "dirlink read" (fun de => decide (de.inum = 0))
        ((s.itable dp).d.size.toNat + 1) 0 (by rw [h.size_eq]; simp only [DIRENT]; omega) (Nat.zero_le _)
      have hzero : DIRENT * 0 = 0 := rfl
      have hhole : (entriesOf sb s dp).findIdx (fun de => decide (de.inum = 0)) =
          Slots.hole isLive (entriesOf sb s dp) := by
        refine congrArg (fun p => (entriesOf sb s dp).findIdx p) (funext fun de => ?_)
        simp [isLive]
      rw [hzero, List.drop_zero, Nat.zero_add, hhole] at hscan
      obtain ⟨n, s', hrun, hwritten⟩ := writeDirent_spec (newDirent name inum) h
        (Slots.hole_le isLive (entriesOf sb s dp)) (strncpy_length DIRSIZ name)
      simp only [getFound, ok_bind, hscan]
      rw [show (⟨BitVec.ofNat 16 inum, strncpy DIRSIZ name⟩ : Dirent) = newDirent name inum from rfl,
        hrun, ok_bind]
      cases hwritten with
      | done disk d hok hentries hroom => exact Or.inl ⟨0, _, rfl, .linked _ hok hfound hentries hroom⟩
      | full disk d hok hentries hend hno =>
          exact Or.inl ⟨-1, _, rfl, .full _ hok hfound hentries hend (Or.inr hno)⟩
      | refused hend hmax => exact Or.inl ⟨-1, s, rfl, .full s h hfound rfl hend (Or.inl hmax)⟩

/-- What the removal of an entry comes to. -/
inductive Cleared (sb : Super) (s : State) (dp : Fin NINODE) (name : List Byte) :
    Int → State → Prop where
  | absent (hnone : lookup sb s dp (cname name) = none) : Cleared sb s dp name (-1) s
  | cleared (s' : State) (hok : DirOk sb s' dp) (hfound : lookup sb s dp (cname name) ≠ none)
      (hentries : entriesOf sb s' dp = Slots.replace (entriesOf sb s dp)
        (Slots.place isLive nameOf (entriesOf sb s dp) (cname name)) emptyDirent) :
      Cleared sb s dp name 0 s'

/-- **The removal of an entry** does not fail. -/
theorem clearDirent_spec (h : DirOk sb s dp) (name : List Byte) :
    (∃ r s', clearDirent sb s dp name = .ok (r, s') ∧ Cleared sb s dp name r s') ∨
    clearDirent sb s dp name = .error "iget: no inodes" := by
  rw [clearDirent, dirlookup_spec h]
  cases hfound : lookup sb s dp (cname name) with
  | none => exact Or.inl ⟨-1, s, rfl, .absent hfound⟩
  | some x =>
      rcases iget_cases s x with ⟨j, s₁, hget, hgot⟩ | hget
      · obtain ⟨hsame, -, hspare⟩ := hgot.spec h.held
        have hplace : Slots.place isLive nameOf (entriesOf sb s₁ dp) (cname name) <
            (entriesOf sb s₁ dp).length := by
          rw [hsame.entriesOf]
          obtain ⟨de, hde, -⟩ := Option.map_eq_some_iff.mp hfound
          exact Slots.place_lt hde
        obtain ⟨n, s₂, hrun, hwritten⟩ := writeDirent_spec emptyDirent (hsame.dirOk h)
          hplace.le (List.length_replicate ..)
        have hoff : entryOff sb s dp (cname name) =
            DIRENT * Slots.place isLive nameOf (entriesOf sb s₁ dp) (cname name) := by
          rw [hsame.entriesOf, entryOff]
        simp only [getFound, hget, ok_bind, pure_eq_ok, hoff, hrun]
        cases hwritten with
        | done disk d hok hentries _ =>
            -- the write leaves the references as they are
            have hspare₂ : Spare (written s₁ dp disk d) j := by
              by_cases hj : j = dp
              · rw [Spare, hj, written_self]
                exact hj ▸ hspare
              · rw [Spare, written_other hj]
                exact hspare
            obtain ⟨s₃, hput, hsame₃⟩ := iput_spare sb hspare₂
            refine Or.inl ⟨0, s₃, ?_, .cleared s₃ ((hsame₃ dp).dirOk hok) ?_ ?_⟩
            · simp only [ne_eq, not_true_eq_false, if_false, hput, ok_bind]
            · rw [hfound]
              exact Option.some_ne_none x
            · rw [(hsame₃ dp).entriesOf, hentries, hsame.entriesOf]
        | full disk d hok hentries hend hno => exact absurd hend hplace.ne
        | refused hend hmax => exact absurd hend hplace.ne
      · refine Or.inr ?_
        simp only [getFound, hget, error_bind]

/-! ### The map -/

theorem lookup_eq_map (sb : Super) (s : State) (dp : Fin NINODE) : lookup sb s dp =
    fun n => (Slots.find isLive nameOf (entriesOf sb s dp) n).map fun de => de.inum.toNat := rfl

theorem lookup_congr (h : entriesOf sb s' dp = entriesOf sb s dp) : lookup sb s' dp = lookup sb s dp := by
  rw [lookup_eq_map, lookup_eq_map, h]

theorem lookup_eq_none {n : List Byte} :
    lookup sb s dp n = none ↔ Slots.find isLive nameOf (entriesOf sb s dp) n = none := by
  rw [lookup, Option.map_eq_none_iff]

theorem nameOf_newDirent (name : List Byte) (inum : Nat) : nameOf (newDirent name inum) = cname name :=
  cname_strncpy name

/-- The number of an inode fits in an entry. -/
theorem newDirent_inum (name : List Byte) {inum : Nat} (h : inum < 2 ^ 16) : (newDirent name inum).inum.toNat = inum := by
  rw [newDirent, BitVec.toNat_ofNat, Nat.mod_eq_of_lt h]

theorem isLive_newDirent {inum : Nat} (h0 : 0 < inum) (h : inum < 2 ^ 16) :
    isLive (newDirent name inum) = true := by
  refine decide_eq_true fun hz => ?_
  have := newDirent_inum name h
  rw [hz] at this
  exact absurd this.symm h0.ne'

theorem isLive_emptyDirent : isLive emptyDirent = false := rfl

section Map

variable (hnew : lookup sb s dp (cname name) = none) {inum : Nat}
  (hentries : entriesOf sb s' dp = Slots.replace (entriesOf sb s dp)
    (Slots.hole isLive (entriesOf sb s dp)) (newDirent name inum))

include hnew hentries

theorem lookup_linked (h0 : 0 < inum) (h : inum < 2 ^ 16) :
    lookup sb s' dp = Function.update (lookup sb s dp) (cname name) (some inum) := by
  rw [lookup_eq_none, ← nameOf_newDirent name inum] at hnew
  rw [lookup_eq_map, hentries, Slots.find_put (isLive_newDirent h0 h) hnew, nameOf_newDirent]
  funext n
  by_cases hn : n = cname name
  · rw [hn, Function.update_self, Function.update_self, Option.map_some, newDirent_inum _ h]
  · rw [Function.update_of_ne hn, Function.update_of_ne hn]
    rfl

theorem uniqueNames_linked (hu : UniqueNames sb s dp) : UniqueNames sb s' dp := by
  rw [lookup_eq_none, ← nameOf_newDirent name inum] at hnew
  rw [uniqueNames_iff] at hu ⊢
  rw [hentries]
  exact hu.put hnew

end Map

section Clear

variable (hfound : lookup sb s dp (cname name) ≠ none)
  (hentries : entriesOf sb s' dp = Slots.replace (entriesOf sb s dp)
    (Slots.place isLive nameOf (entriesOf sb s dp) (cname name)) emptyDirent)
  (hu : UniqueNames sb s dp)

include hfound hentries hu

theorem map_cleared : lookup sb s' dp = Function.update (lookup sb s dp) (cname name) none ∧
    UniqueNames sb s' dp := by
  obtain ⟨de, hde⟩ := Option.ne_none_iff_exists'.mp fun h => hfound (lookup_eq_none.mpr h)
  rw [uniqueNames_iff] at hu ⊢
  rw [hentries]
  refine ⟨?_, hu.clear hde isLive_emptyDirent⟩
  rw [lookup_eq_map, hentries, Slots.find_clear hu hde isLive_emptyDirent]
  funext n
  by_cases hn : n = cname name
  · rw [hn, Function.update_self, Function.update_self, Option.map_none]
  · rw [Function.update_of_ne hn, Function.update_of_ne hn]
    rfl

end Clear

/-! ### Runs -/

inductive DirOp where
  | link (name : List Byte) (inum : Nat)
  | clear (name : List Byte)
  | lookup (name : List Byte)

/-- What an operation returns; of what `dirlookup` finds, the inode number and the byte offset. -/
inductive DirResult where
  | code (r : Int)
  | found (entry : Option (Nat × Nat))
deriving DecidableEq

/-- One operation.  The reference that `dirlookup` takes is kept. -/
def dirStep (sb : Super) (dp : Fin NINODE) : DirOp → State → Except String (DirResult × State)
  | .link name inum, s => do
      let (r, s) ← dirlink sb s dp name inum
      return (.code r, s)
  | .clear name, s => do
      let (r, s) ← clearDirent sb s dp name
      return (.code r, s)
  | .lookup name, s => do
      let (found, s) ← dirlookup sb s dp name
      return (.found (found.map fun (ip, off) => ((s.itable ip).inum, off)), s)

/-- **One operation** keeps the directory in order; it stops only when the inode table is full.  A lookup
returns what the map has. -/
theorem dirStep_ok (o : DirOp) (hok : DirOk sb s dp) (hu : UniqueNames sb s dp) :
    (∃ r s', dirStep sb dp o s = .ok (r, s') ∧ DirOk sb s' dp ∧ UniqueNames sb s' dp ∧
      ∀ name, o = .lookup name →
        r = .found ((lookup sb s dp (cname name)).map fun inum => (inum, entryOff sb s dp (cname name))) ∧
        lookup sb s' dp = lookup sb s dp) ∨
    dirStep sb dp o s = .error "iget: no inodes" := by
  have hsame : ∀ {s'}, entriesOf sb s' dp = entriesOf sb s dp → UniqueNames sb s' dp := fun he => by
    rw [UniqueNames, he]
    exact hu
  cases o with
  | link name inum =>
      rcases dirlink_spec hok name inum with ⟨r, s₁, hrun, hlinked⟩ | hrun
      · refine Or.inl ⟨.code r, s₁, ?_, ?_⟩
        · rw [dirStep, hrun]
          rfl
        cases hlinked with
        | present _ hs _ => exact ⟨hs.dirOk hok, hsame hs.entriesOf, nofun⟩
        | linked _ hok' hnew hentries _ => exact ⟨hok', uniqueNames_linked hnew hentries hu, nofun⟩
        | full _ hok' _ hentries _ _ => exact ⟨hok', hsame hentries, nofun⟩
      · refine Or.inr ?_
        rw [dirStep, hrun]
        rfl
  | clear name =>
      rcases clearDirent_spec hok name with ⟨r, s₁, hrun, hcleared⟩ | hrun
      · refine Or.inl ⟨.code r, s₁, ?_, ?_⟩
        · rw [dirStep, hrun]
          rfl
        cases hcleared with
        | absent _ => exact ⟨hok, hu, nofun⟩
        | cleared _ hok' hfound hentries => exact ⟨hok', (map_cleared hfound hentries hu).2, nofun⟩
      · refine Or.inr ?_
        rw [dirStep, hrun]
        rfl
  | lookup name =>
      rw [dirStep, dirlookup_spec hok]
      cases hfound : lookup sb s dp (cname name) with
      | none =>
          refine Or.inl ⟨.found none, s, rfl, hok, hu, fun name' heq => ?_⟩
          cases heq
          rw [hfound]
          exact ⟨rfl, rfl⟩
      | some x =>
          rcases iget_cases s x with ⟨j, s₁, hget, hgot⟩ | hget
          · obtain ⟨hs, hinum, -⟩ := hgot.spec hok.held
            refine Or.inl ⟨.found (some (x, entryOff sb s dp (cname name))), s₁, ?_, hs.dirOk hok,
              hsame hs.entriesOf, fun name' heq => ?_⟩
            · simp only [getFound, hget, ok_bind, pure_eq_ok, Option.map_some, hinum]
            · cases heq
              rw [hfound]
              exact ⟨rfl, lookup_congr hs.entriesOf⟩
          · refine Or.inr ?_
            simp only [getFound, hget, error_bind]

/-- `dirlookup` answers by the map. -/
def AnswersLookup (sb : Super) (s : State) (dp : Fin NINODE) : Prop :=
  ∀ name, dirlookup sb s dp name =
    getFound s (entryOff sb s dp (cname name)) (lookup sb s dp (cname name))

/-- A link: it adds its name, in the first empty entry if there is one; it fails when the name is there, or
when there is no empty entry and the directory cannot grow. -/
theorem dirlink_map {inum : Nat} {r : Int} (hok : DirOk sb s dp) (h0 : 0 < inum) (hlt : inum < 2 ^ 16)
    (hlink : dirlink sb s dp name inum = .ok (r, s')) :
    AnswersLookup sb s' dp ∧
    (r = -1 ↔ lookup sb s dp (cname name) ≠ none ∨
      ((∀ de ∈ entriesOf sb s dp, de.inum ≠ 0) ∧
        ((s.itable dp).d.size.toNat = MAXFILE * BSIZE ∨ NoBlock sb s dp))) ∧
    (r = -1 → lookup sb s' dp = lookup sb s dp) ∧
    (r ≠ -1 → r = 0 ∧
      lookup sb s' dp = Function.update (lookup sb s dp) (cname name) (some inum) ∧
      entriesOf sb s' dp = Slots.replace (entriesOf sb s dp)
        (Slots.hole isLive (entriesOf sb s dp)) ⟨BitVec.ofNat 16 inum, strncpy DIRSIZ name⟩) := by
  have hhole : Slots.hole isLive (entriesOf sb s dp) = (entriesOf sb s dp).length ↔
      ∀ de ∈ entriesOf sb s dp, de.inum ≠ 0 := by
    rw [Slots.hole, List.findIdx_eq_length]
    simp [isLive]
  rcases dirlink_spec hok name inum with ⟨r', s₁, hrun', hlinked⟩ | hrun'
  · cases hrun'.symm.trans hlink
    cases hlinked with
    | present _ hs hfound =>
        exact ⟨dirlookup_spec (hs.dirOk hok), ⟨fun _ => Or.inl hfound, fun _ => rfl⟩,
          fun _ => lookup_congr hs.entriesOf, fun h => absurd rfl h⟩
    | linked _ hok' hnew hentries hroom =>
        refine ⟨dirlookup_spec hok', ⟨fun h => absurd h (by decide), fun h => ?_⟩,
          fun h => absurd h (by decide), fun _ => ⟨rfl, lookup_linked hnew hentries h0 hlt, hentries⟩⟩
        rcases h with hfound | ⟨hlive, hfull⟩
        · exact absurd hnew hfound
        · rcases hroom with hroom | ⟨hmax, hno⟩
          · exact absurd (hhole.mpr hlive) hroom.ne
          · exact absurd hfull (not_or.mpr ⟨hmax, hno⟩)
    | full _ hok' hnew hentries hend hfull =>
        exact ⟨dirlookup_spec hok', ⟨fun _ => Or.inr ⟨hhole.mp hend, hfull⟩, fun _ => rfl⟩,
          fun _ => lookup_congr hentries, fun h => absurd rfl h⟩
  · cases hrun'.symm.trans hlink

/-- A removal: it clears its name and no other; it fails when the name is not there. -/
theorem clearDirent_map {r : Int} (hok : DirOk sb s dp) (hu : UniqueNames sb s dp)
    (hclear : clearDirent sb s dp name = .ok (r, s')) :
    AnswersLookup sb s' dp ∧ (r = -1 ↔ lookup sb s dp (cname name) = none) ∧
    (r = -1 → lookup sb s' dp = lookup sb s dp) ∧
    (r ≠ -1 → r = 0 ∧ lookup sb s' dp = Function.update (lookup sb s dp) (cname name) none) := by
  rcases clearDirent_spec hok name with ⟨r', s₁, hrun', hcleared⟩ | hrun'
  · cases hrun'.symm.trans hclear
    cases hcleared with
    | absent hnone =>
        exact ⟨dirlookup_spec hok, ⟨fun _ => hnone, fun _ => rfl⟩, fun _ => rfl, fun h => absurd rfl h⟩
    | cleared _ hok' hfound hentries =>
        exact ⟨dirlookup_spec hok', ⟨fun h => absurd h (by decide), fun h => absurd h hfound⟩,
          fun h => absurd h (by decide), fun _ => ⟨rfl, (map_cleared hfound hentries hu).1⟩⟩
  · cases hrun'.symm.trans hclear

/-- Inode 1 is a directory, which is locked. -/
def emptyDirState : State :=
  ⟨smallDisk, fun i => if i.val = 0 then ⟨1, 1, true, dinodeAt smallSuper smallDisk 1⟩
    else ⟨0, 0, false, newDinode 0⟩⟩

def rootDir : Fin NINODE := ⟨0, zero_lt_ninode⟩

theorem emptyDirState_ok : DirOk smallSuper emptyDirState rootDir :=
  ⟨smallState_consistent.layout, smallState_consistent.owned, by decide, by decide, rfl, by decide,
    ⟨fun x hx => absurd hx (Nat.not_lt_zero x), by decide⟩, by decide⟩

/-- "." and "..", as in a new directory, then "a" twice; "a" is removed, and "b" takes its entry. -/
def rootOps : List DirOp :=
  [.link [46] 1, .link [46, 46] 1, .link [97] 2, .link [97] 3, .lookup [97], .clear [97], .lookup [97],
    .clear [97], .link [98] 3]

/-- What they return. -/
def rootResults : List DirResult :=
  [.code 0, .code 0, .code 0, .code (-1), .found (some (2, 32)), .code 0, .found none, .code (-1), .code 0]

end Xv6.Fs
