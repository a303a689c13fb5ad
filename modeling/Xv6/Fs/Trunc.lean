import Xv6.Fs.Owned

/-!
# Fs — Trunc

`itrunc`: a file gives its blocks back.

Both loops are walks over entries that name different blocks, all of them marked, so `bfree` finds
each bit set (`truncIndirect_spec`).  The indirect block is not changed while its entries are freed;
that it still names them does not matter, since it is freed itself and the inode lets go of it.

* `Frees`: a set of blocks has become free, and nothing else has changed.
* `itrunc_spec`: exactly the blocks of the file are freed.
-/

namespace Xv6.Fs
open Xv6.Lib

variable {sb : Super} {disk disk' : Disk} {D : Nat → Dinode} {d : Dinode} {i b n : Nat} {a : Word}

/-! ### Freeing -/

/-- The blocks of `A` have become free. -/
structure Frees (sb : Super) (A : Nat → Prop) (disk disk' : Disk) : Prop where
  bits : ∀ n, inUse sb disk' n = true ↔ inUse sb disk n = true ∧ ¬ A n
  blocks : ∀ k, k < sb.bmapstart ∨ sb.datastart ≤ k → disk' k = disk k

theorem Frees.refl (sb : Super) (disk : Disk) : Frees sb (fun _ => False) disk disk :=
  ⟨fun _ => by simp, fun _ _ => rfl⟩

theorem Frees.trans {A B : Nat → Prop} {disk₁ disk₂ : Disk} (h : Frees sb A disk disk₁)
    (h' : Frees sb B disk₁ disk₂) : Frees sb (fun n => A n ∨ B n) disk disk₂ := by
  refine ⟨fun n => ?_, fun k hk => (h'.blocks k hk).trans (h.blocks k hk)⟩
  rw [h'.bits, h.bits, and_assoc, not_or]

theorem Frees.congr {A B : Nat → Prop} (h : Frees sb A disk disk') (hAB : ∀ n, B n ↔ A n) :
    Frees sb B disk disk' :=
  ⟨fun n => by rw [h.bits, hAB], h.blocks⟩

theorem Frees.keeps {A : Nat → Prop} (h : Frees sb A disk disk') (hn : inUse sb disk n = true)
    (hA : ¬ A n) : inUse sb disk' n = true := (h.bits n).mpr ⟨hn, hA⟩

theorem bfree_spec (hb : a.toNat < sb.size) (hu : inUse sb disk a.toNat = true) :
    ∃ disk', bfree sb disk a = .ok disk' ∧ Frees sb (fun n => a.toNat = n) disk disk' := by
  refine ⟨setInUse sb disk a.toNat false, by rw [bfree, hu]; rfl, fun n => ?_, fun k hk => ?_⟩
  · rw [inUse_setInUse]
    by_cases hn : n = a.toNat
    · simp [hn]
    · rw [if_neg hn]
      exact ⟨fun h => ⟨h, fun he => hn he.symm⟩, And.left⟩
  · refine Function.update_of_ne ?_ ..
    have := bblock_ge sb a.toNat
    have := bblock_lt hb
    omega

section Walk

variable {ι : Type} {f : ι → Word}

/-- The blocks named by the entries `js`. -/
def Named (f : ι → Word) (js : List ι) (n : Nat) : Prop := ∃ j ∈ js, f j ≠ 0 ∧ (f j).toNat = n

/-- The entries `js` name different blocks, all of them marked. -/
structure Freeable (sb : Super) (disk : Disk) (f : ι → Word) (js : List ι) : Prop where
  nodup : js.Nodup
  once : ∀ j ∈ js, ∀ k ∈ js, f j ≠ 0 → f j = f k → j = k
  small : ∀ j ∈ js, f j ≠ 0 → (f j).toNat < sb.size
  marked : ∀ j ∈ js, f j ≠ 0 → inUse sb disk (f j).toNat = true

theorem Freeable.tail {j : ι} {js : List ι} (h : Freeable sb disk f (j :: js))
    (hf : Frees sb (fun n => f j ≠ 0 ∧ (f j).toNat = n) disk disk') : Freeable sb disk' f js := by
  have hmem : ∀ k ∈ js, k ∈ j :: js := fun k hk => List.mem_cons_of_mem j hk
  refine ⟨(List.nodup_cons.mp h.nodup).2, fun k hk l hl => h.once k (hmem k hk) l (hmem l hl),
    fun k hk => h.small k (hmem k hk), fun k hk hne => hf.keeps (h.marked k (hmem k hk) hne) ?_⟩
  rintro ⟨hj, heq⟩
  have := h.once j (List.mem_cons_self ..) k (hmem k hk) hj (BitVec.eq_of_toNat_eq heq)
  exact (List.nodup_cons.mp h.nodup).1 (this ▸ hk)

/-- **The walk frees** the blocks that the entries name. -/
theorem truncIndirect_spec : ∀ (js : List ι) (disk : Disk), Freeable sb disk f js →
    ∃ disk', truncIndirect sb f js disk = .ok disk' ∧ Frees sb (Named f js) disk disk' := by
  intro js
  induction js with
  | nil => exact fun disk _ => ⟨disk, rfl, (Frees.refl sb disk).congr fun n => by simp [Named]⟩
  | cons j js ih =>
      intro disk h
      obtain ⟨disk₁, hrun₁, hf₁⟩ : ∃ disk₁, bfreeAddr sb disk (f j) = .ok disk₁ ∧
          Frees sb (fun n => f j ≠ 0 ∧ (f j).toNat = n) disk disk₁ := by
        by_cases h0 : f j = 0
        · exact ⟨disk, if_pos h0, (Frees.refl sb disk).congr fun n => by simp [h0]⟩
        · have hj : j ∈ j :: js := List.mem_cons_self ..
          obtain ⟨disk₁, hrun, hf⟩ := bfree_spec (h.small j hj h0) (h.marked j hj h0)
          exact ⟨disk₁, by rw [bfreeAddr, if_neg h0, hrun], hf.congr fun n => and_iff_right h0⟩
      obtain ⟨disk₂, hrun₂, hf₂⟩ := ih disk₁ (h.tail hf₁)
      refine ⟨disk₂, by rw [truncIndirect, hrun₁, ok_bind, hrun₂], (hf₁.trans hf₂).congr fun n => ?_⟩
      simp [Named]

theorem truncIndirect_congr {g : ι → Word} : ∀ (js : List ι) (disk : Disk),
    (∀ j ∈ js, g j = f j) → truncIndirect sb g js disk = truncIndirect sb f js disk := by
  intro js
  induction js with
  | nil => exact fun _ _ => rfl
  | cons j js ih =>
      intro disk h
      rw [truncIndirect, truncIndirect, h j (List.mem_cons_self ..)]
      refine congrArg _ (funext fun disk₁ => ih disk₁ fun k hk => h k (List.mem_cons_of_mem j hk))

end Walk

/-! ### The entries of an inode -/

/-- The inode with its entries `js` cleared. -/
def Dinode.clear (d : Dinode) (js : List (Fin (NDIRECT + 1))) : Dinode :=
  { d with addrs := fun j => if j ∈ js then 0 else d.addrs j }

theorem setAddr_clear (d : Dinode) (j : Fin (NDIRECT + 1)) (js : List (Fin (NDIRECT + 1))) :
    (d.setAddr j 0).clear js = d.clear (j :: js) := by
  refine congrArg (Dinode.mk d.type d.major d.minor d.nlink d.size) (funext fun k => ?_)
  by_cases hk : k ∈ js
  · rw [if_pos hk, if_pos (List.mem_cons_of_mem j hk)]
  · rw [if_neg hk]
    by_cases hkj : k = j
    · rw [hkj, setAddr_self, if_pos (List.mem_cons_self ..)]
    · rw [setAddr_ne d hkj, if_neg (by simp [hkj, hk])]

/-- The first loop is the same walk. -/
theorem truncDirect_eq : ∀ (js : List (Fin (NDIRECT + 1))) (disk : Disk) (d : Dinode), js.Nodup →
    truncDirect sb js disk d = (truncIndirect sb d.addrs js disk).map fun disk' => (disk', d.clear js) := by
  intro js
  induction js with
  | nil => exact fun disk d _ => rfl
  | cons j js ih =>
      intro disk d hnd
      obtain ⟨hj, hnd⟩ := List.nodup_cons.mp hnd
      rw [truncDirect, truncIndirect]
      cases bfreeAddr sb disk (d.addrs j) with
      | error e => rfl
      | ok disk₁ =>
          rw [ok_bind, ok_bind, ih disk₁ (d.setAddr j 0) hnd, setAddr_clear]
          refine congrArg _ (truncIndirect_congr js disk₁ fun k hk => setAddr_ne d (fun he => ?_) 0)
          exact hj (he ▸ hk)

/-- The direct entries. -/
def directSlots : List (Fin (NDIRECT + 1)) := (List.range NDIRECT).map directSlot

theorem directSlots_nodup : directSlots.Nodup := by decide

theorem mem_directSlots {j : Fin (NDIRECT + 1)} : j ∈ directSlots ↔ j ≠ indirectSlot := by
  revert j
  decide

/-! ### `itrunc` -/

/-- The blocks of file `i`. -/
def FileBlock (D : Nat → Dinode) (disk : Disk) (i n : Nat) : Prop :=
  ∃ slot, entry D disk (i, slot) ≠ 0 ∧ (entry D disk (i, slot)).toNat = n

section File

variable (h : Owned sb D disk) (hi : D i = d) (ht : d.type ≠ 0)

include hi ht in
theorem entry_addr (j : Fin (NDIRECT + 1)) : entry D disk (i, .addr j) = d.addrs j := by
  rw [entry, hi, if_neg ht]

include hi ht in
theorem entry_ind (hne : d.addrs indirectSlot ≠ 0) (j : Fin NINDIRECT) :
    entry D disk (i, .ind j) = disk (d.addrs indirectSlot).toNat j := by
  rw [entry, hi, if_neg (not_or.mpr ⟨ht, hne⟩)]

include h hi ht

theorem freeable_direct : Freeable sb disk d.addrs directSlots := by
  have hE : ∀ j, entry D disk (i, .addr j) = d.addrs j := entry_addr hi ht
  refine ⟨directSlots_nodup, fun j _ k _ hj hjk => ?_, fun j _ hj => ?_, fun j _ hj => ?_⟩
  · rw [← hE] at hj
    rw [← hE, ← hE] at hjk
    exact Slot.addr.inj (congrArg Prod.snd (h.once _ _ hj hjk))
  · rw [← hE] at hj ⊢
    exact (h.data _ hj).2
  · rw [← hE] at hj ⊢
    exact h.marked _ hj

/-- The entries of the indirect block can be freed after the direct blocks. -/
theorem freeable_ind (hne : d.addrs indirectSlot ≠ 0)
    (hf : Frees sb (Named d.addrs directSlots) disk disk') :
    Freeable sb disk' (disk (d.addrs indirectSlot).toNat) (List.range NINDIRECT) := by
  have hE : ∀ j, j ∈ List.range NINDIRECT → ∃ e : Fin NINDIRECT, e.val = j ∧
      entry D disk (i, .ind e) = disk (d.addrs indirectSlot).toNat j := fun j hj =>
    ⟨⟨j, List.mem_range.mp hj⟩, rfl, entry_ind hi ht hne _⟩
  refine ⟨List.nodup_range, fun j hj k hk hne' hjk => ?_, fun j hj hne' => ?_, fun j hj hne' => ?_⟩
  · obtain ⟨e, rfl, he⟩ := hE j hj
    obtain ⟨f, rfl, hf⟩ := hE k hk
    rw [← he] at hne'
    rw [← he, ← hf] at hjk
    exact congrArg Fin.val (Slot.ind.inj (congrArg Prod.snd (h.once _ _ hne' hjk)))
  · obtain ⟨e, rfl, he⟩ := hE j hj
    rw [← he] at hne' ⊢
    exact (h.data _ hne').2
  · obtain ⟨e, rfl, he⟩ := hE j hj
    rw [← he] at hne' ⊢
    refine hf.keeps (h.marked _ hne') ?_
    rintro ⟨k, -, hk, heq⟩
    rw [← show entry D disk (i, .addr k) = d.addrs k from entry_addr hi ht k] at hk heq
    cases h.once _ _ hk (BitVec.eq_of_toNat_eq heq)

omit h in
theorem fileBlock_iff (n : Nat) : FileBlock D disk i n ↔ Named d.addrs directSlots n ∨
    (d.addrs indirectSlot ≠ 0 ∧ (Named (disk (d.addrs indirectSlot).toNat) (List.range NINDIRECT) n ∨
      (d.addrs indirectSlot).toNat = n)) := by
  have hE : ∀ j, entry D disk (i, .addr j) = d.addrs j := entry_addr hi ht
  constructor
  · rintro ⟨slot, hne, hn⟩
    cases slot with
    | addr j =>
        rw [hE] at hne hn
        by_cases hj : j = indirectSlot
        · subst hj
          exact Or.inr ⟨hne, Or.inr hn⟩
        · exact Or.inl ⟨j, mem_directSlots.mpr hj, hne, hn⟩
    | ind j =>
        have hind : d.addrs indirectSlot ≠ 0 := fun h0 => hne (by
          rw [entry, hi, if_pos (Or.inr h0)])
        rw [entry_ind hi ht hind] at hne hn
        exact Or.inr ⟨hind, Or.inl ⟨j, List.mem_range.mpr j.isLt, hne, hn⟩⟩
  · rintro (⟨j, -, hne, hn⟩ | ⟨hind, ⟨j, hj, hne, hn⟩ | hn⟩)
    · exact ⟨.addr j, by rwa [hE], by rwa [hE]⟩
    · refine ⟨.ind ⟨j, List.mem_range.mp hj⟩, ?_, ?_⟩
      · rwa [entry_ind hi ht hind]
      · rwa [entry_ind hi ht hind]
    · exact ⟨.addr indirectSlot, by rwa [hE], by rwa [hE]⟩

/-- The indirect block can be freed after its entries. -/
theorem marked_ind {disk₁ disk₂ : Disk} (hne : d.addrs indirectSlot ≠ 0)
    (hf₁ : Frees sb (Named d.addrs directSlots) disk disk₁)
    (hf₂ : Frees sb (Named (disk (d.addrs indirectSlot).toNat) (List.range NINDIRECT)) disk₁ disk₂) :
    inUse sb disk₂ (d.addrs indirectSlot).toNat = true := by
  have hE : ∀ j, entry D disk (i, .addr j) = d.addrs j := entry_addr hi ht
  have hplace : entry D disk (i, .addr indirectSlot) ≠ 0 := by rwa [hE]
  have hu := h.marked _ hplace
  rw [hE] at hu
  refine hf₂.keeps (hf₁.keeps hu ?_) ?_
  · rintro ⟨k, hk, hk0, heq⟩
    have hsame : entry D disk (i, .addr indirectSlot) = entry D disk (i, .addr k) := by
      rw [hE, hE]
      exact (BitVec.eq_of_toNat_eq heq).symm
    have hslot := h.once _ _ hplace hsame
    exact mem_directSlots.mp hk (Slot.addr.inj (congrArg Prod.snd hslot)).symm
  · rintro ⟨k, hk, hk0, heq⟩
    have hsame : entry D disk (i, .addr indirectSlot) =
        entry D disk (i, .ind ⟨k, List.mem_range.mp hk⟩) := by
      rw [hE, entry_ind hi ht hne]
      exact (BitVec.eq_of_toNat_eq heq).symm
    cases h.once _ _ hplace hsame

/-- The two loops free the blocks of the file and clear its entries. -/
theorem itrunc_frees (inum : Nat) : ∃ disk', Frees sb (FileBlock D disk i) disk disk' ∧
    itrunc sb disk inum d = .ok (iupdate sb disk' inum { d with size := 0, addrs := fun _ => 0 },
      { d with size := 0, addrs := fun _ => 0 }) := by
  obtain ⟨disk₁, hrun₁, hf₁⟩ := truncIndirect_spec directSlots disk (freeable_direct h hi ht)
  have hdirect : truncDirect sb ((List.range NDIRECT).map directSlot) disk d =
      .ok (disk₁, d.clear directSlots) := by
    rw [← directSlots, truncDirect_eq _ _ _ directSlots_nodup, hrun₁]
    rfl
  have hind : (d.clear directSlots).addrs indirectSlot = d.addrs indirectSlot := by
    simp only [Dinode.clear, mem_directSlots, ne_eq, not_true_eq_false, if_false]
  by_cases h0 : d.addrs indirectSlot = 0
  · refine ⟨disk₁, hf₁.congr fun n => (fileBlock_iff hi ht n).trans (by simp [h0]), ?_⟩
    have hclear : d.clear directSlots = { d with addrs := fun _ => 0 } := by
      refine congrArg (Dinode.mk d.type d.major d.minor d.nlink d.size) (funext fun j => ?_)
      by_cases hj : j = indirectSlot
      · rw [hj, if_neg fun hm => mem_directSlots.mp hm rfl, h0]
      · rw [if_pos (mem_directSlots.mpr hj)]
    simp only [itrunc, hdirect, ok_bind, hclear]
    rfl
  · have hdata := h.data (i, .addr indirectSlot)
    rw [entry_addr hi ht] at hdata
    have hsame : disk₁ (d.addrs indirectSlot).toNat = disk (d.addrs indirectSlot).toNat :=
      hf₁.blocks _ (Or.inr (hdata h0).1)
    obtain ⟨disk₂, hrun₂, hf₂⟩ := truncIndirect_spec _ disk₁ (freeable_ind h hi ht h0 hf₁)
    obtain ⟨disk₃, hrun₃, hf₃⟩ := bfree_spec (hdata h0).2 (marked_ind h hi ht h0 hf₁ hf₂)
    refine ⟨disk₃, ((hf₁.trans hf₂).trans hf₃).congr fun n => (fileBlock_iff hi ht n).trans ?_, ?_⟩
    · rw [and_iff_right h0, or_assoc]
    · have hclear : (d.clear directSlots).setAddr indirectSlot 0 = { d with addrs := fun _ => 0 } := by
        refine congrArg (Dinode.mk d.type d.major d.minor d.nlink d.size) (funext fun j => ?_)
        by_cases hj : j = indirectSlot
        · rw [hj, Function.update_self]
        · rw [Function.update_of_ne hj]
          exact if_pos (mem_directSlots.mpr hj)
      simp only [itrunc, hdirect, ok_bind, hind, if_neg h0, hsame, hrun₂, hrun₃, pure_eq_ok, hclear]

end File

/-- An inode without blocks has none to give. -/
theorem entry_cleared (hd : ∀ j, d.addrs j = 0) (P : Place) :
    entry (Function.update D i d) disk P = 0 ∨
      (P.1 ≠ i ∧ entry (Function.update D i d) disk P = entry D disk P) := by
  obtain ⟨k, slot⟩ := P
  by_cases hk : k = i
  · subst hk
    refine Or.inl ?_
    cases slot with
    | addr j =>
        rw [entry, Function.update_self, hd]
        exact ite_self 0
    | ind j => rw [entry, Function.update_self, if_pos (Or.inr (hd _))]
  · refine Or.inr ⟨hk, ?_⟩
    cases slot with
    | addr j => rw [entry, entry, Function.update_of_ne hk]
    | ind j => rw [entry, entry, Function.update_of_ne hk]

/-- **`itrunc`** frees exactly the blocks of the file, and leaves it empty. -/
theorem itrunc_spec (h : Owned sb (dinodes sb disk) disk) (hsb : sb.Ok) (hi : i < sb.ninodes)
    (hd : dinodes sb disk i = d) (ht : d.type ≠ 0) : ∃ disk', itrunc sb disk i d =
      .ok (disk', { d with size := 0, addrs := fun _ => 0 }) ∧
    Updated sb disk disk' i { d with size := 0, addrs := fun _ => 0 } ∧
    ∀ n, inUse sb disk' n = true ↔ inUse sb disk n = true ∧ ¬ FileBlock (dinodes sb disk) disk i n := by
  obtain ⟨disk₁, hf, hrun⟩ := itrunc_frees h hd ht i
  have hD : dinodes sb disk₁ = dinodes sb disk :=
    dinodes_congr hsb fun k hk => hf.blocks k (Or.inl hk)
  have hent : entry (dinodes sb disk) disk₁ = entry (dinodes sb disk) disk :=
    h.entry_meta fun k hk => hf.blocks k (Or.inr hk)
  have hcleared : ∀ P, entry (Function.update (dinodes sb disk) i
      { d with size := 0, addrs := fun _ => 0 }) disk₁ P = 0 ∨ (P.1 ≠ i ∧
        entry (Function.update (dinodes sb disk) i { d with size := 0, addrs := fun _ => 0 }) disk₁ P =
          entry (dinodes sb disk) disk₁ P) := entry_cleared fun _ => rfl
  have hown : Owned sb (Function.update (dinodes sb disk₁) i { d with size := 0, addrs := fun _ => 0 })
      disk₁ := by
    rw [hD]
    refine h.shrink (fun P => ?_) (fun P hP => ?_) fun b hb => hf.keeps (h.reserved b hb) ?_
    · rw [← hent]
      exact (hcleared P).imp_right And.right
    · obtain ⟨hne, heq⟩ := (hcleared P).resolve_left hP
      rw [heq, hent] at hP ⊢
      refine hf.keeps (h.marked P hP) ?_
      rintro ⟨slot, -, hn⟩
      exact hne (congrArg Prod.fst (h.once P (i, slot) hP (BitVec.eq_of_toNat_eq hn).symm))
    · rintro ⟨slot, hne, hn⟩
      have := (h.data _ hne).1
      omega
  have hup := hown.updated hsb hi
  refine ⟨_, hrun, ⟨by rw [hup.inodes, hD], hup.owned⟩, fun n => ?_⟩
  have hbit : inUse sb (iupdate sb disk₁ i { d with size := 0, addrs := fun _ => 0 }) n =
      inUse sb disk₁ n := by
    refine inUse_congr (Function.update_of_ne ?_ ..)
    have := bblock_ge sb n
    have := iblock_lt hsb hi
    omega
  rw [hbit, hf.bits]

end Xv6.Fs
