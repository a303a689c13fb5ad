import Xv6.Virtio.Defs

/-!
# Virtio — Chains

Descriptors are free or part of one chain.

A chain belongs to the call of `virtio_disk_rw` that waits with it: nothing but its links says which
descriptors it has, and `free_chain` follows them.  None of this rests on the device, which only
writes the status and the used ring.

* `alloc3Loop_spec`: three free descriptors, or the free map as it was.
* `freeChain_spec`: `free_chain` gives back the three descriptors of its chain.
* `Conserved`: the invariant; `step_conserved`, `step_error`: one step.
-/

namespace Xv6.Virtio
open Xv6.Lib

variable {disk disk' disk₀ : Disk} {s s' : State} {idx : Nat → Nat} {b : Buf} {c k : Nat}

/-! ### Free descriptors -/

/-- The descriptors of `A` have been freed. -/
structure Freed (A : Nat → Prop) (disk disk' : Disk) : Prop where
  free : ∀ k, disk'.free k = true ↔ disk.free k = true ∨ A k
  desc : ∀ k, ¬ A k → disk'.desc k = disk.desc k

theorem Freed.refl (disk : Disk) : Freed (fun _ => False) disk disk :=
  ⟨fun _ => by simp, fun _ _ => rfl⟩

theorem Freed.trans {A B : Nat → Prop} {disk₁ disk₂ : Disk} (h : Freed A disk disk₁)
    (h' : Freed B disk₁ disk₂) : Freed (fun k => A k ∨ B k) disk disk₂ := by
  refine ⟨fun k => by rw [h'.free, h.free, or_assoc], fun k hk => ?_⟩
  rw [h'.desc k fun hB => hk (Or.inr hB), h.desc k fun hA => hk (Or.inl hA)]

theorem Freed.congr {A B : Nat → Prop} (h : Freed A disk disk') (hAB : ∀ k, B k ↔ A k) :
    Freed B disk disk' :=
  ⟨fun k => by rw [h.free, hAB], fun k hk => h.desc k fun hA => hk ((hAB k).mpr hA)⟩

/-- A descriptor that is not free and not of `A` is still not free. -/
theorem Freed.keeps {A : Nat → Prop} (h : Freed A disk disk') (hk : disk.free k = false)
    (hA : ¬ A k) : disk'.free k = false := by
  rw [← Bool.not_eq_true, h.free, hk]
  exact not_or.mpr ⟨Bool.false_ne_true, hA⟩

theorem freeDesc_spec (hlt : k < NUM) (hk : disk.free k = false) :
    ∃ disk', freeDesc disk k = .ok disk' ∧ Freed (fun i => i = k) disk disk' := by
  refine ⟨_, by rw [freeDesc, if_neg (not_le.mpr hlt), hk]; rfl, fun i => ?_, fun i hi => ?_⟩
  · by_cases hi : i = k
    · simp [hi]
    · simp [hi]
  · exact Function.update_of_ne hi ..

theorem freeDescs_spec : ∀ (js : List Nat) (disk : Disk), js.Nodup →
    (∀ j ∈ js, idx j < NUM ∧ disk.free (idx j) = false) →
    (∀ i ∈ js, ∀ j ∈ js, idx i = idx j → i = j) →
    ∃ disk', freeDescs idx js disk = .ok disk' ∧ Freed (fun k => ∃ j ∈ js, idx j = k) disk disk' := by
  intro js
  induction js with
  | nil => exact fun disk _ _ _ => ⟨disk, rfl, (Freed.refl disk).congr fun k => by simp⟩
  | cons j js ih =>
      intro disk hnd hmem hinj
      obtain ⟨hj, hnd⟩ := List.nodup_cons.mp hnd
      obtain ⟨hlt, hfree⟩ := hmem j (List.mem_cons_self ..)
      obtain ⟨disk₁, hrun₁, hf₁⟩ := freeDesc_spec hlt hfree
      have hrest : ∀ i ∈ js, idx i < NUM ∧ disk₁.free (idx i) = false := by
        intro i hi
        obtain ⟨hlti, hfreei⟩ := hmem i (List.mem_cons_of_mem j hi)
        refine ⟨hlti, hf₁.keeps hfreei fun heq => hj ?_⟩
        exact hinj i (List.mem_cons_of_mem j hi) j (List.mem_cons_self ..) heq ▸ hi
      obtain ⟨disk₂, hrun₂, hf₂⟩ := ih disk₁ hnd hrest fun i hi i' hi' =>
        hinj i (List.mem_cons_of_mem j hi) i' (List.mem_cons_of_mem j hi')
      refine ⟨disk₂, by rw [freeDescs, hrun₁, ok_bind, hrun₂], (hf₁.trans hf₂).congr fun k => ?_⟩
      simp [eq_comm]

/-! ### Allocation -/

theorem allocDesc_cases (disk : Disk) : allocDesc disk = (none, disk) ∨
    ∃ k, k < NUM ∧ disk.free k = true ∧
      allocDesc disk = (some k, { disk with free := Function.update disk.free k false }) := by
  cases hfind : (List.range NUM).find? disk.free with
  | none => exact Or.inl (by rw [allocDesc, hfind])
  | some k =>
      exact Or.inr ⟨k, List.mem_range.mp (List.mem_of_find?_eq_some hfind), List.find?_some hfind,
        by rw [allocDesc, hfind]⟩

/-- The first `n` descriptors of `idx` have been taken from the free ones. -/
structure Taken (disk₀ disk : Disk) (idx : Nat → Nat) (n : Nat) : Prop where
  desc : disk.desc = disk₀.desc
  lt : ∀ j, j < n → idx j < NUM
  inj : ∀ i, i < n → ∀ j, j < n → idx i = idx j → i = j
  was : ∀ j, j < n → disk₀.free (idx j) = true
  free : ∀ k, disk.free k = true ↔ disk₀.free k = true ∧ ∀ j, j < n → idx j ≠ k

theorem Taken.taken {n : Nat} (h : Taken disk₀ disk idx n) {j : Nat} (hj : j < n) :
    disk.free (idx j) = false := by
  rw [← Bool.not_eq_true, h.free]
  exact fun hfree => hfree.2 j hj rfl

theorem Taken.take {n : Nat} (h : Taken disk₀ disk idx n) (hlt : k < NUM)
    (hk : disk.free k = true) :
    Taken disk₀ { disk with free := Function.update disk.free k false } (Function.update idx n k)
      (n + 1) := by
  obtain ⟨hwas, hne⟩ := (h.free k).mp hk
  have hself : Function.update idx n k n = k := Function.update_self ..
  have hother : ∀ j, j < n → Function.update idx n k j = idx j := fun j hj =>
    Function.update_of_ne hj.ne ..
  refine ⟨h.desc, fun j hj => ?_, fun i hi j hj heq => ?_, fun j hj => ?_, fun i => ?_⟩
  · rcases Nat.lt_succ_iff_lt_or_eq.mp hj with hj | rfl
    · rw [hother j hj]
      exact h.lt j hj
    · rwa [hself]
  · rcases Nat.lt_succ_iff_lt_or_eq.mp hi with hi | rfl
    · rw [hother i hi] at heq
      rcases Nat.lt_succ_iff_lt_or_eq.mp hj with hj | rfl
      · rw [hother j hj] at heq
        exact h.inj i hi j hj heq
      · rw [hself] at heq
        exact absurd heq (hne i hi)
    · rw [hself] at heq
      rcases Nat.lt_succ_iff_lt_or_eq.mp hj with hj | rfl
      · rw [hother j hj] at heq
        exact absurd heq.symm (hne j hj)
      · rfl
  · rcases Nat.lt_succ_iff_lt_or_eq.mp hj with hj | rfl
    · rw [hother j hj]
      exact h.was j hj
    · rwa [hself]
  · change Function.update disk.free k false i = true ↔ _
    by_cases hi : i = k
    · subst hi
      rw [Function.update_self]
      exact ⟨fun hf => absurd hf Bool.false_ne_true, fun hf => absurd hself (hf.2 n (Nat.lt_succ_self n))⟩
    · rw [Function.update_of_ne hi, h.free]
      refine and_congr_right fun _ => ⟨fun hall j hj => ?_, fun hall j hj => ?_⟩
      · rcases Nat.lt_succ_iff_lt_or_eq.mp hj with hj | rfl
        · rw [hother j hj]
          exact hall j hj
        · rw [hself]
          exact Ne.symm hi
      · have := hall j (Nat.lt_succ_of_lt hj)
        rwa [hother j hj] at this

/-- What `alloc3_desc` returns: the descriptors it has taken, or the free map as it was. -/
inductive Alloced (disk₀ : Disk) (n : Nat) : Option (Nat → Nat) → Disk → Prop where
  | failed (disk : Disk) (free : disk.free = disk₀.free)
      (desc : ∀ k, disk₀.free k = false → disk.desc k = disk₀.desc k) : Alloced disk₀ n none disk
  | done (disk : Disk) (idx : Nat → Nat) (h : Taken disk₀ disk idx n) : Alloced disk₀ n (some idx) disk

theorem alloc3Loop_spec : ∀ (turns n : Nat) (disk : Disk) (idx : Nat → Nat),
    Taken disk₀ disk idx n → ∃ r disk', alloc3Loop turns n disk idx = .ok (r, disk') ∧
      Alloced disk₀ (n + turns) r disk' := by
  intro turns
  induction turns with
  | zero => exact fun n disk idx h => ⟨some idx, disk, rfl, .done disk idx h⟩
  | succ turns ih =>
      intro n disk idx h
      rw [alloc3Loop]
      rcases allocDesc_cases disk with hnone | ⟨k, hlt, hk, hsome⟩
      · -- the descriptors taken so far go back
        obtain ⟨disk₁, hrun, hf⟩ := freeDescs_spec (List.range n) disk List.nodup_range
          (fun j hj => ⟨h.lt j (List.mem_range.mp hj), h.taken (List.mem_range.mp hj)⟩)
          fun i hi j hj => h.inj i (List.mem_range.mp hi) j (List.mem_range.mp hj)
        refine ⟨none, disk₁, by simp only [hnone, hrun, ok_bind, pure_eq_ok], .failed disk₁ ?_ ?_⟩
        · funext k
          rw [Bool.eq_iff_iff, hf.free, h.free]
          constructor
          · rintro (hk | ⟨j, hj, rfl⟩)
            · exact hk.1
            · exact h.was j (List.mem_range.mp hj)
          · intro hk
            by_cases hex : ∃ j ∈ List.range n, idx j = k
            · exact Or.inr hex
            · exact Or.inl ⟨hk, fun j hj heq => hex ⟨j, List.mem_range.mpr hj, heq⟩⟩
        · intro k hk
          rw [hf.desc k, h.desc]
          rintro ⟨j, hj, rfl⟩
          rw [h.was j (List.mem_range.mp hj)] at hk
          cases hk
      · obtain ⟨r, disk', hrun, hall⟩ := ih (n + 1) _ _ (h.take hlt hk)
        refine ⟨r, disk', by simp only [hsome, hrun], ?_⟩
        rwa [Nat.add_right_comm] at hall

theorem alloc3Desc_spec (disk : Disk) : ∃ r disk', alloc3Desc disk = .ok (r, disk') ∧
    Alloced disk 3 r disk' := by
  have hzero : ∀ {j : Nat}, ¬ j < 0 := fun {j} => Nat.not_lt_zero j
  refine alloc3Loop_spec 3 0 disk (fun _ => 0) ⟨rfl, fun _ hj => absurd hj hzero,
    fun _ hi => absurd hi hzero, fun _ hj => absurd hj hzero, fun k => ?_⟩
  exact ⟨fun hk => ⟨hk, fun _ hj => absurd hj hzero⟩, And.left⟩

/-! ### Chains -/

/-- **A chain**: three descriptors, linked head to status. -/
structure Chain (disk : Disk) (b : Buf) (idx : Nat → Nat) : Prop where
  lt : ∀ j, j < 3 → idx j < NUM
  inj : ∀ i, i < 3 → ∀ j, j < 3 → idx i = idx j → i = j
  head : (disk.desc (idx 0)).addr = .op (idx 0) ∧
    (disk.desc (idx 0)).flags &&& VRING_DESC_F_NEXT ≠ 0 ∧ (disk.desc (idx 0)).next.toNat = idx 1
  data : (disk.desc (idx 1)).addr = .data b ∧
    (disk.desc (idx 1)).flags &&& VRING_DESC_F_NEXT ≠ 0 ∧ (disk.desc (idx 1)).next.toNat = idx 2
  status : (disk.desc (idx 2)).addr = .status (idx 0) ∧
    (disk.desc (idx 2)).flags &&& VRING_DESC_F_NEXT = 0

/-- Descriptor `k` is one of the three. -/
def InChain (idx : Nat → Nat) (k : Nat) : Prop := ∃ j, j < 3 ∧ idx j = k

theorem inChain_iff : InChain idx k ↔ k = idx 0 ∨ k = idx 1 ∨ k = idx 2 := by
  constructor
  · rintro ⟨j, hj, rfl⟩
    interval_cases j
    · exact Or.inl rfl
    · exact Or.inr (Or.inl rfl)
    · exact Or.inr (Or.inr rfl)
  · rintro (rfl | rfl | rfl)
    · exact ⟨0, by decide, rfl⟩
    · exact ⟨1, by decide, rfl⟩
    · exact ⟨2, by decide, rfl⟩

theorem Chain.congr (h : Chain disk b idx) (hdesc : ∀ k, InChain idx k → disk'.desc k = disk.desc k) :
    Chain disk' b idx := by
  refine ⟨h.lt, h.inj, ?_, ?_, ?_⟩
  · rw [hdesc _ ⟨0, by decide, rfl⟩]
    exact h.head
  · rw [hdesc _ ⟨1, by decide, rfl⟩]
    exact h.data
  · rw [hdesc _ ⟨2, by decide, rfl⟩]
    exact h.status

/-- One turn of `free_chain`. -/
theorem freeChainLoop_succ {turns : Nat} {disk₁ : Disk} (h : freeDesc disk k = .ok disk₁) :
    freeChainLoop (turns + 1) disk k = if (disk.desc k).flags &&& VRING_DESC_F_NEXT ≠ 0 then
      freeChainLoop turns disk₁ (disk.desc k).next.toNat else .ok disk₁ := by
  rw [freeChainLoop, h, ok_bind]
  rfl

/-- **`free_chain`** gives back the three descriptors of its chain. -/
theorem freeChain_spec (h : Chain disk b idx) (hused : ∀ j, j < 3 → disk.free (idx j) = false) :
    ∃ disk', freeChain disk (idx 0) = .ok disk' ∧ Freed (InChain idx) disk disk' := by
  have h10 : idx 1 ≠ idx 0 := fun heq => by cases h.inj 1 (by decide) 0 (by decide) heq
  have h20 : idx 2 ≠ idx 0 := fun heq => by cases h.inj 2 (by decide) 0 (by decide) heq
  have h21 : idx 2 ≠ idx 1 := fun heq => by cases h.inj 2 (by decide) 1 (by decide) heq
  obtain ⟨disk₁, hrun₁, hf₁⟩ := freeDesc_spec (h.lt 0 (by decide)) (hused 0 (by decide))
  obtain ⟨disk₂, hrun₂, hf₂⟩ := freeDesc_spec (h.lt 1 (by decide))
    (hf₁.keeps (hused 1 (by decide)) h10)
  have hused₂ : disk₂.free (idx 2) = false :=
    hf₂.keeps (hf₁.keeps (hused 2 (by decide)) h20) h21
  obtain ⟨disk₃, hrun₃, hf₃⟩ := freeDesc_spec (h.lt 2 (by decide)) hused₂
  have hd₁ : disk₁.desc (idx 1) = disk.desc (idx 1) := hf₁.desc _ h10
  have hd₂ : disk₂.desc (idx 2) = disk.desc (idx 2) := (hf₂.desc _ h21).trans (hf₁.desc _ h20)
  refine ⟨disk₃, ?_, ((hf₁.trans hf₂).trans hf₃).congr fun k => ?_⟩
  · rw [freeChain, freeChainLoop_succ hrun₁, if_pos h.head.2.1, h.head.2.2, freeChainLoop_succ hrun₂,
      hd₁, if_pos h.data.2.1, h.data.2.2, freeChainLoop_succ hrun₃, hd₂,
      if_neg (not_not.mpr h.status.2)]
  · rw [inChain_iff, or_assoc]

theorem toNat_idx {i : Nat} (h : i < NUM) : (BitVec.ofNat 16 i).toNat = i := by
  rw [BitVec.toNat_ofNat]
  exact Nat.mod_eq_of_lt (h.trans (by decide))

/-- A request links the descriptors it has been given. -/
theorem submit_chain {n : BitVec 32} {write : Bool} (hlt : ∀ j, j < 3 → idx j < NUM)
    (hinj : ∀ i, i < 3 → ∀ j, j < 3 → idx i = idx j → i = j) :
    Chain (submit disk idx b n write) b idx := by
  have h01 : idx 0 ≠ idx 1 := fun heq => by cases hinj 0 (by decide) 1 (by decide) heq
  have h02 : idx 0 ≠ idx 2 := fun heq => by cases hinj 0 (by decide) 2 (by decide) heq
  have h12 : idx 1 ≠ idx 2 := fun heq => by cases hinj 1 (by decide) 2 (by decide) heq
  refine ⟨hlt, hinj, ?_, ?_, ?_⟩
  · simp only [submit, Function.update_of_ne h01, Function.update_of_ne h02, Function.update_self]
    exact ⟨trivial, by decide, toNat_idx (hlt 1 (by decide))⟩
  · simp only [submit, Function.update_of_ne h12, Function.update_self]
    exact ⟨trivial, by cases write <;> decide, toNat_idx (hlt 2 (by decide))⟩
  · simp only [submit, Function.update_self]
    exact ⟨trivial, by decide⟩

theorem submit_desc {n : BitVec 32} {write : Bool} (hk : ¬ InChain idx k) :
    (submit disk idx b n write).desc k = disk.desc k := by
  obtain ⟨h0, hk⟩ := not_or.mp fun h => hk (inChain_iff.mpr h)
  obtain ⟨h1, h2⟩ := not_or.mp hk
  simp only [submit, Function.update_of_ne h0, Function.update_of_ne h1, Function.update_of_ne h2]

/-! ### The invariant -/

/-- Call `c` holds descriptor `k`. -/
def Owns (s : State) (c k : Nat) : Prop := ∃ b idx, s.calls c = .waiting b idx ∧ InChain idx k

/-- **Descriptors are conserved.** -/
structure Conserved (s : State) : Prop where
  chain : ∀ c b idx, s.calls c = .waiting b idx → Chain s.disk b idx
  used : ∀ c k, Owns s c k → s.disk.free k = false
  once : ∀ c c' k, Owns s c k → Owns s c' k → c = c'
  held : ∀ k, k < NUM → s.disk.free k = false → ∃ c, Owns s c k

theorem conserved_boot : Conserved boot := by
  have hnone : ∀ {c k}, ¬ Owns boot c k := by
    rintro c k ⟨b, idx, hc, -⟩
    cases hc
  refine ⟨fun c b idx hc => ?_, fun c k h => absurd h hnone, fun c _ k h => absurd h hnone,
    fun k _ hk => ?_⟩
  · cases hc
  · cases hk

/-- The invariant is about the descriptors and the calls. -/
theorem Conserved.congr (h : Conserved s) (hfree : s'.disk.free = s.disk.free)
    (hdesc : s'.disk.desc = s.disk.desc) (hcalls : s'.calls = s.calls) : Conserved s' := by
  have howns : ∀ c k, Owns s' c k ↔ Owns s c k := fun c k => by rw [Owns, Owns, hcalls]
  refine ⟨fun c b idx hc => ?_, fun c k hk => ?_, fun c c' k hk hk' => ?_, fun k hlt hk => ?_⟩
  · rw [hcalls] at hc
    exact (h.chain c b idx hc).congr fun k _ => by rw [hdesc]
  · rw [hfree]
    exact h.used c k ((howns c k).mp hk)
  · exact h.once c c' k ((howns c k).mp hk) ((howns c' k).mp hk')
  · rw [hfree] at hk
    obtain ⟨c, hc⟩ := h.held k hlt hk
    exact ⟨c, (howns c k).mpr hc⟩

theorem setCall_self (s : State) (c : Nat) (call : Call) : (setCall s c call).calls c = call :=
  Function.update_self ..

theorem setCall_ne {c' : Nat} (s : State) (h : c' ≠ c) (call : Call) :
    (setCall s c call).calls c' = s.calls c' := Function.update_of_ne h ..

/-- A call that holds no descriptors goes to sleep. -/
theorem Conserved.sleep (h : Conserved s) {n : BitVec 32} {write : Bool}
    (hc : ∀ b idx, s.calls c ≠ .waiting b idx)
    (hfree : disk.free = s.disk.free) (hdesc : ∀ k, s.disk.free k = false → disk.desc k = s.disk.desc k) :
    Conserved (setCall { s with disk := disk } c (.asleep b n write)) := by
  have howns : ∀ c' k, Owns (setCall { s with disk := disk } c (.asleep b n write)) c' k ↔
      Owns s c' k := by
    intro c' k
    by_cases hcc : c' = c
    · subst hcc
      refine ⟨?_, fun ⟨b', idx, hw, _⟩ => absurd hw (hc b' idx)⟩
      rintro ⟨b', idx, hw, -⟩
      rw [setCall_self] at hw
      cases hw
    · rw [Owns, Owns, setCall_ne _ hcc]
  refine ⟨fun c' b' idx hw => ?_, fun c' k hk => ?_, fun c₁ c₂ k h₁ h₂ => ?_, fun k hlt hk => ?_⟩
  · by_cases hcc : c' = c
    · rw [hcc, setCall_self] at hw
      cases hw
    · rw [setCall_ne _ hcc] at hw
      refine (h.chain c' b' idx hw).congr fun k hk => hdesc k ?_
      exact h.used c' k ⟨b', idx, hw, hk⟩
  · exact (congrFun hfree k).trans (h.used c' k ((howns c' k).mp hk))
  · exact h.once c₁ c₂ k ((howns c₁ k).mp h₁) ((howns c₂ k).mp h₂)
  · obtain ⟨c', hc'⟩ := h.held k hlt ((congrFun hfree k).symm.trans hk)
    exact ⟨c', (howns c' k).mpr hc'⟩

/-- A call that holds no descriptors gets three. -/
theorem Conserved.start (h : Conserved s) {n : BitVec 32} {write : Bool}
    (hc : ∀ b idx, s.calls c ≠ .waiting b idx) (ht : Taken s.disk disk idx 3) :
    Conserved (setCall { s with disk := submit disk idx b n write } c (.waiting b idx)) := by
  let s' := setCall { s with disk := submit disk idx b n write } c (.waiting b idx)
  have hself : ∀ k, Owns s' c k ↔ InChain idx k := by
    intro k
    constructor
    · rintro ⟨b', idx', hw, hk⟩
      cases (setCall_self ..).symm.trans hw
      exact hk
    · exact fun hk => ⟨b, idx, setCall_self .., hk⟩
  have hother : ∀ c' k, c' ≠ c → (Owns s' c' k ↔ Owns s c' k) := fun c' k hcc => by
    rw [Owns, Owns, setCall_ne _ hcc]
  have hfree : ∀ k, s'.disk.free k = true ↔ s.disk.free k = true ∧ ∀ j, j < 3 → idx j ≠ k := ht.free
  -- the descriptors of another call were not free
  have hnew : ∀ c' k, Owns s c' k → ¬ InChain idx k := by
    rintro c' k hk ⟨j, hj, rfl⟩
    have := h.used c' _ hk
    rw [ht.was j hj] at this
    cases this
  refine ⟨fun c' b' idx' hw => ?_, fun c' k hk => ?_, fun c₁ c₂ k h₁ h₂ => ?_, fun k hlt hk => ?_⟩
  · by_cases hcc : c' = c
    · subst hcc
      cases (setCall_self ..).symm.trans hw
      exact submit_chain ht.lt ht.inj
    · rw [setCall_ne _ hcc] at hw
      refine (h.chain c' b' idx' hw).congr fun k hk => (submit_desc ?_).trans (congrFun ht.desc k)
      exact hnew c' k ⟨b', idx', hw, hk⟩
  · rw [← Bool.not_eq_true, hfree]
    rintro ⟨hwas, hne⟩
    by_cases hcc : c' = c
    · subst hcc
      obtain ⟨j, hj, heq⟩ := (hself k).mp hk
      exact hne j hj heq
    · rw [h.used c' k ((hother c' k hcc).mp hk)] at hwas
      cases hwas
  · by_cases hc₁ : c₁ = c
    · by_cases hc₂ : c₂ = c
      · rw [hc₁, hc₂]
      · subst hc₁
        exact absurd ((hself k).mp h₁) (hnew c₂ k ((hother c₂ k hc₂).mp h₂))
    · by_cases hc₂ : c₂ = c
      · subst hc₂
        exact absurd ((hself k).mp h₂) (hnew c₁ k ((hother c₁ k hc₁).mp h₁))
      · exact h.once c₁ c₂ k ((hother c₁ k hc₁).mp h₁) ((hother c₂ k hc₂).mp h₂)
  · rw [← Bool.not_eq_true, hfree] at hk
    by_cases hin : InChain idx k
    · exact ⟨c, (hself k).mpr hin⟩
    · have hused : s.disk.free k = false := by
        rw [← Bool.not_eq_true]
        exact fun hwas => hk ⟨hwas, fun j hj heq => hin ⟨j, hj, heq⟩⟩
      obtain ⟨c', hc'⟩ := h.held k hlt hused
      have hcc : c' ≠ c := by
        rintro rfl
        obtain ⟨b', idx', hw, -⟩ := hc'
        exact hc b' idx' hw
      exact ⟨c', (hother c' k hcc).mpr hc'⟩

/-- A call gives its descriptors back. -/
theorem Conserved.finish (h : Conserved s) (hc : s.calls c = .waiting b idx)
    (hf : Freed (InChain idx) s.disk disk) : Conserved (setCall { s with disk := disk } c .idle) := by
  let s' := setCall { s with disk := disk } c .idle
  have hself : ∀ k, ¬ Owns s' c k := by
    rintro k ⟨b', idx', hw, -⟩
    cases (setCall_self ..).symm.trans hw
  have hother : ∀ c' k, c' ≠ c → (Owns s' c' k ↔ Owns s c' k) := fun c' k hcc => by
    rw [Owns, Owns, setCall_ne _ hcc]
  have hnot : ∀ c' k, c' ≠ c → Owns s c' k → ¬ InChain idx k := fun c' k hcc hk hin =>
    hcc (h.once c' c k hk ⟨b, idx, hc, hin⟩)
  refine ⟨fun c' b' idx' hw => ?_, fun c' k hk => ?_, fun c₁ c₂ k h₁ h₂ => ?_, fun k hlt hk => ?_⟩
  · by_cases hcc : c' = c
    · subst hcc
      cases (setCall_self ..).symm.trans hw
    · rw [setCall_ne _ hcc] at hw
      refine (h.chain c' b' idx' hw).congr fun k hk => hf.desc k ?_
      exact hnot c' k hcc ⟨b', idx', hw, hk⟩
  · have hcc : c' ≠ c := fun heq => hself k (heq ▸ hk)
    have hown := (hother c' k hcc).mp hk
    exact hf.keeps (h.used c' k hown) (hnot c' k hcc hown)
  · have hc₁ : c₁ ≠ c := fun heq => hself k (heq ▸ h₁)
    have hc₂ : c₂ ≠ c := fun heq => hself k (heq ▸ h₂)
    exact h.once c₁ c₂ k ((hother c₁ k hc₁).mp h₁) ((hother c₂ k hc₂).mp h₂)
  · have hk' : disk.free k = false := hk
    rw [← Bool.not_eq_true, hf.free, not_or, Bool.not_eq_true] at hk'
    obtain ⟨c', hc'⟩ := h.held k hlt hk'.1
    have hcc : c' ≠ c := by
      rintro rfl
      obtain ⟨b', idx', hw, hin⟩ := hc'
      cases hc.symm.trans hw
      exact hk'.2 hin
    exact ⟨c', (hother c' k hcc).mpr hc'⟩

/-! ### Steps -/

theorem rwAlloc_conserved (h : Conserved s) (hc : ∀ b idx, s.calls c ≠ .waiting b idx) (b : Buf)
    (n : BitVec 32) (write : Bool) : ∃ s', rwAlloc s c b n write = .ok s' ∧ Conserved s' := by
  obtain ⟨r, disk, hrun, hall⟩ := alloc3Desc_spec s.disk
  cases hall with
  | failed _ hfree hdesc =>
      refine ⟨setCall { s with disk := disk } c (.asleep b n write), ?_, h.sleep hc hfree hdesc⟩
      simp only [rwAlloc, hrun, ok_bind, pure_eq_ok]
  | done _ idx ht =>
      refine ⟨setCall { s with disk := submit disk idx b n write } c (.waiting b idx), ?_, h.start hc ht⟩
      simp only [rwAlloc, hrun, ok_bind, pure_eq_ok]

theorem Conserved.usedAt (h : Conserved s) (hc : s.calls c = .waiting b idx) :
    ∀ j, j < 3 → s.disk.free (idx j) = false := fun j hj => h.used c _ ⟨b, idx, hc, j, hj, rfl⟩

theorem rwFinish_conserved (h : Conserved s) (hc : s.calls c = .waiting b idx) :
    ∃ s', rwFinish s c b idx = .ok s' ∧ Conserved s' := by
  by_cases hb : s.disk.bufDisk b = true
  · exact ⟨s, by rw [rwFinish, if_pos hb]; rfl, h⟩
  · let info : Info := ⟨none, (s.disk.info (idx 0)).status⟩
    let disk₀ : Disk := { s.disk with info := Function.update s.disk.info (idx 0) info }
    have hchain : Chain disk₀ b idx := (h.chain c b idx hc).congr fun _ _ => rfl
    obtain ⟨disk, hrun, hf⟩ := freeChain_spec hchain (h.usedAt hc)
    refine ⟨setCall { s with disk := disk } c .idle, ?_, h.finish hc ⟨hf.free, hf.desc⟩⟩
    simp only [rwFinish, if_neg hb]
    rw [hrun]
    rfl

/-- An interrupt does not touch the descriptors. -/
theorem intrLoop_frame : ∀ (turns : Nat) (disk disk' : Disk), intrLoop turns disk = .ok disk' →
    disk'.free = disk.free ∧ disk'.desc = disk.desc := by
  intro turns
  induction turns with
  | zero =>
      intro disk disk' hrun
      cases hrun
  | succ turns ih =>
      intro disk disk' hrun
      rw [intrLoop] at hrun
      by_cases hend : disk.usedIdx = disk.usedEnd
      · rw [if_pos hend] at hrun
        cases hrun
        exact ⟨rfl, rfl⟩
      · by_cases hst : (disk.info (disk.usedRing (disk.usedIdx.toNat % NUM))).status ≠ 0
        · simp only [if_neg hend, if_pos hst] at hrun
          cases hrun
        · simp only [if_neg hend, if_neg hst] at hrun
          cases hb : (disk.info (disk.usedRing (disk.usedIdx.toNat % NUM))).b with
          | none =>
              simp only [hb] at hrun
              cases hrun
          | some b =>
              simp only [hb] at hrun
              obtain ⟨hfree, hdesc⟩ := ih _ disk' hrun
              exact ⟨hfree, hdesc⟩

/-- The bound on the turns is not reached. -/
theorem intrLoop_error {e : String} : ∀ (turns : Nat) (disk : Disk),
    (disk.usedEnd - disk.usedIdx).toNat < turns → intrLoop turns disk = .error e →
    e = "virtio_disk_intr status" ∨ e = "kerneltrap" := by
  intro turns
  induction turns with
  | zero => exact fun _ hlt => absurd hlt (Nat.not_lt_zero _)
  | succ turns ih =>
      intro disk hlt hrun
      rw [intrLoop] at hrun
      by_cases hend : disk.usedIdx = disk.usedEnd
      · rw [if_pos hend] at hrun
        cases hrun
      · by_cases hst : (disk.info (disk.usedRing (disk.usedIdx.toNat % NUM))).status ≠ 0
        · simp only [if_neg hend, if_pos hst] at hrun
          cases hrun
          exact Or.inl rfl
        · simp only [if_neg hend, if_neg hst] at hrun
          cases hb : (disk.info (disk.usedRing (disk.usedIdx.toNat % NUM))).b with
          | none =>
              simp only [hb] at hrun
              cases hrun
              exact Or.inr rfl
          | some b =>
              simp only [hb] at hrun
              refine ih _ ?_ hrun
              have hne : (disk.usedEnd - disk.usedIdx).toNat ≠ 0 := fun h0 => hend (by bv_omega)
              change (disk.usedEnd - (disk.usedIdx + 1)).toNat < turns
              bv_omega

/-- **One step** keeps the descriptors. -/
theorem step_conserved {o : Op} {r : Unit} (hcall : o.Callable s) (h : Conserved s)
    (hstep : step o s = .ok (r, s')) : Conserved s' := by
  cases o with
  | rw c b n write =>
      have hc : ∀ b idx, s.calls c ≠ .waiting b idx := fun b idx heq => by
        rw [Op.Callable, heq] at hcall
        cases hcall
      obtain ⟨s₁, hrun, hs₁⟩ := rwAlloc_conserved h hc b n write
      rw [step, hrun] at hstep
      cases hstep
      exact hs₁
  | wake c =>
      cases hc : s.calls c with
      | idle =>
          simp only [step, hc] at hstep
          cases hstep
          exact h
      | asleep b n write =>
          have hne : ∀ b idx, s.calls c ≠ .waiting b idx := fun b idx heq => by
            cases hc.symm.trans heq
          obtain ⟨s₁, hrun, hs₁⟩ := rwAlloc_conserved h hne b n write
          simp only [step, hc, hrun] at hstep
          cases hstep
          exact hs₁
      | waiting b idx =>
          obtain ⟨s₁, hrun, hs₁⟩ := rwFinish_conserved h hc
          simp only [step, hc, hrun] at hstep
          cases hstep
          exact hs₁
  | intr =>
      obtain ⟨disk, hrun, hret⟩ := bind_eq_ok.mp hstep
      cases hret
      obtain ⟨hfree, hdesc⟩ := intrLoop_frame _ _ _ hrun
      exact h.congr hfree hdesc rfl
  | take =>
      cases hstep
      exact h.congr rfl rfl rfl
  | report id =>
      cases hstep
      exact h.congr rfl rfl rfl

/-- The panics that are left are those of the interrupt. -/
theorem step_error {o : Op} {e : String} (hcall : o.Callable s) (h : Conserved s)
    (hstep : step o s = .error e) : e = "virtio_disk_intr status" ∨ e = "kerneltrap" := by
  cases o with
  | rw c b n write =>
      have hc : ∀ b idx, s.calls c ≠ .waiting b idx := fun b idx heq => by
        rw [Op.Callable, heq] at hcall
        cases hcall
      obtain ⟨s₁, hrun, -⟩ := rwAlloc_conserved h hc b n write
      rw [step, hrun] at hstep
      cases hstep
  | wake c =>
      cases hc : s.calls c with
      | idle =>
          simp only [step, hc] at hstep
          cases hstep
      | asleep b n write =>
          have hne : ∀ b idx, s.calls c ≠ .waiting b idx := fun b idx heq => by
            cases hc.symm.trans heq
          obtain ⟨s₁, hrun, -⟩ := rwAlloc_conserved h hne b n write
          simp only [step, hc, hrun] at hstep
          cases hstep
      | waiting b idx =>
          obtain ⟨s₁, hrun, -⟩ := rwFinish_conserved h hc
          simp only [step, hc, hrun] at hstep
          cases hstep
  | intr =>
      cases hrun : virtioDiskIntr s.disk with
      | ok disk =>
          rw [step, hrun] at hstep
          cases hstep
      | error e' =>
          rw [step, hrun] at hstep
          cases hstep
          exact intrLoop_error (2 ^ 16) s.disk (BitVec.isLt _) hrun
  | take => cases hstep
  | report id => cases hstep

/-! ### Runs -/

/-- **Virtio descriptors are conserved** under any interleaving of calls and completions.  Every
descriptor is free or part of the chain of one call, linked head to status; `free_chain` gives back
the three of its chain, an `alloc3_desc` that fails leaves the free map, and `free_desc` does not
panic. -/
theorem descriptors_conserved (os : List Op) (s : State) (rs : List Unit)
    (hcalls : Meets step Op.Callable os boot) (hrun : run step os boot = .ok (rs, s)) :
    (∀ k, k < NUM → (s.disk.free k = true ∧ ∀ c, ¬ Owns s c k) ∨
      (s.disk.free k = false ∧ ∃! c, Owns s c k)) ∧
    (∀ c b idx, s.calls c = .waiting b idx → Chain s.disk b idx ∧
      ∃ disk, freeChain s.disk (idx 0) = .ok disk ∧
        ∀ k, disk.free k = true ↔ s.disk.free k = true ∨ InChain idx k) ∧
    (∀ disk : Disk, ∃ r disk', alloc3Desc disk = .ok (r, disk') ∧ (r = none → disk'.free = disk.free)) ∧
    (∀ o, o.Callable s → step o s ≠ .error "free_desc 1" ∧ step o s ≠ .error "free_desc 2") := by
  have h : Conserved s :=
    run_invariant (fun _ _ _ _ hG hI hstep => step_conserved hG hI hstep) os boot rs s hcalls
      conserved_boot hrun
  refine ⟨fun k hk => ?_, fun c b idx hc => ?_, fun disk => ?_, fun o hcall => ⟨?_, ?_⟩⟩
  · cases hfree : s.disk.free k with
    | true =>
        refine Or.inl ⟨rfl, fun c hc => ?_⟩
        rw [h.used c k hc] at hfree
        cases hfree
    | false =>
        obtain ⟨c, hc⟩ := h.held k hk hfree
        exact Or.inr ⟨rfl, c, hc, fun c' hc' => h.once c' c k hc' hc⟩
  · obtain ⟨disk, hfc, hf⟩ := freeChain_spec (h.chain c b idx hc) (h.usedAt hc)
    exact ⟨h.chain c b idx hc, disk, hfc, hf.free⟩
  · obtain ⟨r, disk', hrun, hall⟩ := alloc3Desc_spec disk
    refine ⟨r, disk', hrun, fun hr => ?_⟩
    cases hall with
    | failed _ hfree _ => exact hfree
    | done _ _ _ => cases hr
  · intro hstep
    rcases step_error hcall h hstep with he | he
    · exact absurd he (by decide)
    · exact absurd he (by decide)
  · intro hstep
    rcases step_error hcall h hstep with he | he
    · exact absurd he (by decide)
    · exact absurd he (by decide)

/-- Two requests take six descriptors, a third sleeps with two left, and the second is finished
first. -/
def threeRequests : List Op :=
  [.rw 0 100 7 true, .rw 1 200 8 false, .rw 2 300 9 true, .take, .take, .report 3, .intr, .wake 1,
    .wake 2]

theorem descriptors_conserved_three : ∃ s, run step threeRequests boot =
      .ok (threeRequests.map fun _ => (), s) ∧
    ∀ o, o.Callable s → step o s ≠ .error "free_desc 1" ∧ step o s ≠ .error "free_desc 2" := by
  obtain ⟨s, hrun⟩ : ∃ s, run step threeRequests boot = .ok (threeRequests.map fun _ => (), s) :=
    eq_ok_of_result (by decide +kernel)
  exact ⟨s, hrun, (descriptors_conserved threeRequests s _ (by decide +kernel) hrun).2.2.2⟩

end Xv6.Virtio
