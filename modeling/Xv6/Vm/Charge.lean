import Xv6.Vm.Holders

/-!
# Vm — Charge

Who pays for swap I/O.

Each transfer to or from swap is counted in one process, the creditor, with its latency: the way
of the disk head plus a constant.  The paging functions charge no other process, and leave the
label of every process alone; nothing here depends on the invariant of the memory, so this holds
also when an allocation fails.

* `DiskSound`: every process has as many operations as reads and writes, at a latency within the
  bounds of one operation; the head and the slots are on the swap area.
* `Charged`, `Quiet`: what a function that charges one process keeps.
* `kernelStep_charged`: each operation of the machine charges one process.
* `disk_stats`: the statistics in every state of a run.
-/

namespace Xv6.Vm
open Xv6.Lib
open Xv6.Raid (Page zeroPage PGSIZE BLOCKS_PER_PAGE MAX_SWAP)

variable {s s' : Kernel} {p q np : ProcId} {r v pa va : Nat}

/-! ### The counters -/

/-- The first block of the last swap slot. -/
abbrev LAST_BLOCK : Nat := (MAX_SWAP - 1) * BLOCKS_PER_PAGE

/-- The disk counters of a process: reads, writes, latency, operations. -/
def Proc.disk (x : Proc) : Nat × Nat × Nat × Int :=
  (x.diskReads, x.diskWrites, x.totalDiskLatency, x.diskOps)

/-- The part of a process that the paging functions leave alone and `kkill` reads. -/
def Proc.label (x : Proc) : ProcState × Int × Bool := (x.state, x.pid, x.killed)

/-- The latency of each operation is between the constant and a way over the whole area. -/
structure DiskOk (x : Proc) : Prop where
  ops : x.diskOps = x.diskReads + x.diskWrites
  lo : ROTATIONAL_CONST * x.diskOps ≤ x.totalDiskLatency
  hi : x.totalDiskLatency ≤ (LAST_BLOCK + ROTATIONAL_CONST : Nat) * x.diskOps

structure DiskSound (s : Kernel) : Prop where
  procs : ∀ p, DiskOk (s.procs p)
  head : s.swapHead ≤ LAST_BLOCK
  blocks : ∀ i, (s.swapSpace i).diskBlock ≤ LAST_BLOCK

theorem DiskOk.congr {x y : Proc} (h : DiskOk x) (he : y.disk = x.disk) : DiskOk y := by
  simp only [Proc.disk, Prod.mk.injEq] at he
  obtain ⟨h₁, h₂, h₃, h₄⟩ := he
  exact ⟨by rw [h₁, h₂, h₄, h.ops], by rw [h₃, h₄]; exact h.lo, by rw [h₃, h₄]; exact h.hi⟩

/-- Only the disk counters of `p` may have changed, and they have in step. -/
structure Charged (p : ProcId) (s s' : Kernel) : Prop where
  disk : ∀ q, q ≠ p → (s'.procs q).disk = (s.procs q).disk
  sound : DiskSound s → DiskSound s'

/-- And every process has its label. -/
structure Quiet (p : ProcId) (s s' : Kernel) : Prop extends Charged p s s' where
  label : ∀ q, (s'.procs q).label = (s.procs q).label

theorem Charged.refl (p : ProcId) (s : Kernel) : Charged p s s := ⟨fun _ _ => rfl, id⟩

theorem Charged.trans {s₁ : Kernel} (h : Charged p s s₁) (h' : Charged p s₁ s') : Charged p s s' :=
  ⟨fun q hq => (h'.disk q hq).trans (h.disk q hq), fun hs => h'.sound (h.sound hs)⟩

theorem Quiet.refl (p : ProcId) (s : Kernel) : Quiet p s s := ⟨.refl p s, fun _ => rfl⟩

theorem Quiet.trans {s₁ : Kernel} (h : Quiet p s s₁) (h' : Quiet p s₁ s') : Quiet p s s' :=
  ⟨h.toCharged.trans h'.toCharged, fun q => (h'.label q).trans (h.label q)⟩

/-- Nobody is charged when the counters, the head and the blocks are as they were. -/
theorem charged_of (hd : ∀ q, (s'.procs q).disk = (s.procs q).disk)
    (hh : s'.swapHead = s.swapHead)
    (hb : ∀ i, (s'.swapSpace i).diskBlock = (s.swapSpace i).diskBlock) : Charged p s s' := by
  refine ⟨fun q _ => hd q, fun hs => ⟨fun q => (hs.procs q).congr (hd q), ?_, fun i => ?_⟩⟩
  · rw [hh]
    exact hs.head
  · rw [hb]
    exact hs.blocks i

theorem quiet_of (hp : s'.procs = s.procs) (hh : s'.swapHead = s.swapHead)
    (hb : ∀ i, (s'.swapSpace i).diskBlock = (s.swapSpace i).diskBlock) : Quiet p s s' :=
  ⟨charged_of (fun q => by rw [hp]) hh hb, fun q => by rw [hp]⟩

theorem charged_setProc {x : Proc} (hd : x.disk = (s.procs q).disk) :
    Charged p s (setProc s q x) := by
  refine charged_of (fun y => ?_) rfl fun _ => rfl
  by_cases hy : y = q
  · subst hy
    simpa [setProc] using hd
  · simp [setProc, hy]

/-- Other counters of a process change. -/
theorem quiet_setProc {x : Proc} (hd : x.disk = (s.procs q).disk) (hl : x.label = (s.procs q).label) :
    Quiet p s (setProc s q x) := by
  refine ⟨charged_setProc hd, fun y => ?_⟩
  by_cases hy : y = q
  · subst hy
    simpa [setProc] using hl
  · simp [setProc, hy]

theorem quiet_setSlot {slot : Nat} {x : SwapSlot}
    (hx : x.diskBlock = (s.swapSpace slot).diskBlock) : Quiet p s (setSlot s slot x) := by
  refine quiet_of rfl rfl (fun i => ?_)
  by_cases hi : i = slot
  · subst hi
    simpa [setSlot] using hx
  · simp [setSlot, hi]

theorem quiet_setPte (s : Kernel) (r v : Nat) (e : Pte) : Quiet p s (setPte s r v e) :=
  quiet_of rfl rfl fun _ => rfl

theorem quiet_setPage (s : Kernel) (pa : Nat) (x : Page) : Quiet p s (setPage s pa x) :=
  quiet_of rfl rfl fun _ => rfl

theorem quiet_setFrame (s : Kernel) (i : Fin MAX_FRAMES) (f : FrameEntry) :
    Quiet p s (setFrame s i f) := quiet_of rfl rfl fun _ => rfl

/-! ### Pages and slots -/

theorem kfree_quiet (h : kfree s pa = .ok s') : Quiet p s s' := by
  unfold kfree at h
  split at h
  · cases h
  · cases h
    exact quiet_of rfl rfl fun _ => rfl

theorem kalloc_quiet (s : Kernel) (p : ProcId) : Quiet p s (kalloc s).2 := by
  unfold kalloc
  split
  · exact quiet_of rfl rfl fun _ => rfl
  · exact quiet_of rfl rfl fun _ => rfl

theorem swapAlloc_quiet (s : Kernel) (p : ProcId) : Quiet p s (swapAlloc s).2 := by
  unfold swapAlloc
  split
  · exact quiet_setSlot rfl
  · exact quiet_of rfl rfl fun _ => rfl

theorem swapAlloc_lt {slot : Nat} (h : swapAlloc s = (some slot, s')) : slot < MAX_SWAP := by
  unfold swapAlloc at h
  split at h
  · next i hi =>
      cases h
      exact List.mem_range.mp (List.mem_of_find?_eq_some hi)
  · cases h

theorem swapFree_quiet (s : Kernel) (slot : Nat) (p : ProcId) : Quiet p s (swapFree s slot) :=
  quiet_setSlot rfl

theorem swapLatency_bounds {head blk : Nat} (hh : head ≤ LAST_BLOCK) (hb : blk ≤ LAST_BLOCK) :
    ROTATIONAL_CONST ≤ swapLatency head blk ∧
      swapLatency head blk ≤ LAST_BLOCK + ROTATIONAL_CONST := by
  unfold swapLatency
  split
  · omega
  · omega

/-- One more operation, at a latency within the bounds. -/
theorem DiskOk.charge {x y : Proc} {latency : Nat} (h : DiskOk x)
    (hlo : ROTATIONAL_CONST ≤ latency) (hhi : latency ≤ LAST_BLOCK + ROTATIONAL_CONST)
    (hrw : y.diskReads + y.diskWrites = x.diskReads + x.diskWrites + 1)
    (hlat : y.totalDiskLatency = x.totalDiskLatency + latency) (hops : y.diskOps = x.diskOps + 1) :
    DiskOk y := by
  obtain ⟨h₁, h₂, h₃⟩ := h
  refine ⟨by omega, ?_, ?_⟩
  · rw [hops, hlat]
    push_cast
    simp only [ROTATIONAL_CONST] at *
    omega
  · rw [hops, hlat]
    push_cast
    simp only [LAST_BLOCK, ROTATIONAL_CONST, MAX_SWAP, BLOCKS_PER_PAGE] at *
    omega

/-- The head moves to block `blk`, and `p` pays for it. -/
theorem charged_transfer {x : Proc} {blk : Nat} (hhead : s'.swapHead = blk)
    (hblk : DiskSound s → blk ≤ LAST_BLOCK) (hprocs : s'.procs = Function.update s.procs p x)
    (hblocks : DiskSound s → ∀ i, (s'.swapSpace i).diskBlock ≤ LAST_BLOCK)
    (hlabel : x.label = (s.procs p).label)
    (hrw : x.diskReads + x.diskWrites = (s.procs p).diskReads + (s.procs p).diskWrites + 1)
    (hlat : x.totalDiskLatency = (s.procs p).totalDiskLatency + swapLatency s.swapHead blk)
    (hops : x.diskOps = (s.procs p).diskOps + 1) : Quiet p s s' := by
  have hother : ∀ q, q ≠ p → s'.procs q = s.procs q := fun q hq => by
    rw [hprocs, Function.update_of_ne hq]
  have hself : s'.procs p = x := by rw [hprocs, Function.update_self]
  refine ⟨⟨fun q hq => by rw [hother q hq], fun hs => ⟨fun q => ?_, hhead ▸ hblk hs, hblocks hs⟩⟩,
    fun q => ?_⟩
  · by_cases hq : q = p
    · obtain ⟨hlo, hhi⟩ := swapLatency_bounds hs.head (hblk hs)
      rw [hq, hself]
      exact (hs.procs p).charge hlo hhi hrw hlat hops
    · rw [hother q hq]
      exact hs.procs q
  · by_cases hq : q = p
    · rw [hq, hself, hlabel]
    · rw [hother q hq]

theorem swapWrite_quiet {slot : Nat} {victim : Option ProcId} (hslot : slot < MAX_SWAP)
    (h : swapWrite s slot pa victim va p = .ok s') : Quiet p s s' := by
  have hblk : SWAP_START_BLOCK + slot * BLOCKS_PER_PAGE ≤ LAST_BLOCK := by
    simp only [SWAP_START_BLOCK, LAST_BLOCK, MAX_SWAP, BLOCKS_PER_PAGE] at *
    omega
  have hpa : pa ≠ 0 := by
    rintro rfl
    cases h
  simp only [swapWrite, if_neg hpa] at h
  obtain ⟨raid, -, h⟩ := bind_eq_ok.mp h
  cases h
  refine charged_transfer rfl (fun _ => hblk) rfl (fun hs i => ?_) rfl ?_ rfl rfl
  · by_cases hi : i = slot
    · subst hi
      simpa [creditWrite, setProc, setSlot] using hblk
    · simpa [creditWrite, setProc, setSlot, hi] using hs.blocks i
  · simp only [setSlot]
    omega

theorem swapRead_quiet {slot : Nat} (h : swapRead s slot pa p = .ok s') : Quiet p s s' := by
  obtain ⟨page, -, h⟩ := bind_eq_ok.mp h
  cases h
  refine charged_transfer rfl (fun hs => hs.blocks slot) rfl (fun hs i => hs.blocks i) rfl ?_ rfl rfl
  simp only [setPage]
  omega

/-! ### Page tables -/

theorem walkL1_quiet (s : Kernel) (r k : Nat) : Quiet p s (walkL1 s r k).2 := by
  have hk := kalloc_quiet s p
  unfold walkL1
  split
  · exact .refl p s
  · split
    · next s₁ h₁ =>
        rw [h₁] at hk
        exact hk
    · next pa s₁ h₁ =>
        rw [h₁] at hk
        exact hk.trans (quiet_of rfl rfl fun _ => rfl)

theorem walkL0_quiet (s : Kernel) (r k : Nat) : Quiet p s (walkL0 s r k).2 := by
  have hk := kalloc_quiet s p
  unfold walkL0
  split
  · exact .refl p s
  · split
    · next s₁ h₁ =>
        rw [h₁] at hk
        exact hk
    · next pa s₁ h₁ =>
        rw [h₁] at hk
        exact hk.trans (quiet_of rfl rfl fun _ => rfl)

theorem walkAlloc_quiet {x : Bool × Kernel} (h : walkAlloc s r va = .ok x) : Quiet p s x.2 := by
  have h₁ := walkL1_quiet (p := p) s r (va / 2 ^ 30)
  unfold walkAlloc at h
  split at h
  · cases h
  · split at h
    · next s₁ he =>
        cases h
        rwa [he] at h₁
    · next s₁ he =>
        cases h
        rw [he] at h₁
        exact h₁.trans (walkL0_quiet ..)

theorem mappagesLoop_quiet {perm : Pte} : ∀ (n : Nat) (s : Kernel) (a pa : Nat) (x : Bool × Kernel),
    mappagesLoop r perm n s a pa = .ok x → Quiet p s x.2 := by
  intro n
  induction n with
  | zero =>
      intro s a pa x h
      cases h
      exact .refl p s
  | succ n ih =>
      intro s a pa x h
      obtain ⟨⟨found, s₁⟩, h₁, h⟩ := bind_eq_ok.mp h
      have hq₁ : Quiet p s s₁ := walkAlloc_quiet h₁
      simp only at h
      split at h
      · cases h
        exact hq₁
      · split at h
        · cases h
        · exact (hq₁.trans (quiet_setPte ..)).trans (ih _ _ _ x h)

theorem mappages_quiet {perm : Pte} {size : Nat} {x : Bool × Kernel}
    (h : mappages s r va size pa perm = .ok x) : Quiet p s x.2 := by
  unfold mappages at h
  split at h
  · cases h
  · split at h
    · cases h
    · split at h
      · cases h
      · exact mappagesLoop_quiet _ _ _ _ _ h

theorem uvmcreate_quiet (s : Kernel) : Quiet p s (uvmcreate s).2 := by
  have hk := kalloc_quiet s p
  unfold uvmcreate
  split
  · next s₁ h₁ =>
      rw [h₁] at hk
      exact hk
  · next pa s₁ h₁ =>
      rw [h₁] at hk
      exact hk.trans (quiet_of rfl rfl fun _ => rfl)

/-! ### `kalloc_user` -/

theorem fillFrame_quiet (s : Kernel) (i : Fin MAX_FRAMES) : Quiet p s (fillFrame s i).2 := by
  have hk := kalloc_quiet s p
  unfold fillFrame
  split
  · next s₁ h₁ =>
      rw [h₁] at hk
      exact hk.trans (quiet_of rfl rfl fun _ => rfl)
  · next pa s₁ h₁ =>
      rw [h₁] at hk
      exact hk.trans (quiet_of rfl rfl fun _ => rfl)

theorem swapOutEntry_quiet {slot : Nat} (h : swapOutEntry s q va slot = .ok s') : Quiet p s s' := by
  unfold swapOutEntry at h
  split at h
  · cases h
    exact .refl p s
  · obtain ⟨e, -, h⟩ := bind_eq_ok.mp h
    cases e with
    | none =>
        cases h
        exact .refl p s
    | some e =>
        simp only at h
        split at h
        · cases h
          exact quiet_of rfl rfl fun _ => rfl
        · cases h
          exact .refl p s

theorem kallocUser_quiet {x : Option Nat × Kernel} (h : kallocUser s p va = .ok x) :
    Quiet p s x.2 := by
  unfold kallocUser at h
  split at h
  · cases h
    exact (quiet_setFrame s _ _).trans (fillFrame_quiet ..)
  · obtain ⟨⟨i, ft, hand⟩, -, h⟩ := bind_eq_ok.mp h
    -- the victim's entry is claimed
    have h₁ : Quiet p s (claimFrame { s with frameTable := ft, clockHand := hand } i p va 0) :=
      quiet_of rfl rfl fun _ => rfl
    have h₂ := swapAlloc_quiet (claimFrame { s with frameTable := ft, clockHand := hand } i p va 0) p
    simp only at h
    split at h
    · next s₂ he =>
        cases h
        rw [he] at h₂
        exact (h₁.trans h₂).trans (quiet_of rfl rfl fun _ => rfl)
    · next slot s₂ he =>
        rw [he] at h₂
        obtain ⟨s₃, h₃, h⟩ := bind_eq_ok.mp h
        have hslot : slot < MAX_SWAP := swapAlloc_lt he
        have hq₃ := (h₁.trans h₂).trans (swapWrite_quiet hslot h₃)
        have hrest : ∀ s₄ s₅, Quiet p s s₄ → kfree s₄ (ft i).pa = .ok s₅ →
            Quiet p s (fillFrame s₅ i).2 := fun s₄ s₅ hq hf =>
          (hq.trans (kfree_quiet hf)).trans (fillFrame_quiet ..)
        split at h
        · obtain ⟨s₄, h₄, h⟩ := bind_eq_ok.mp h
          cases h₄
          obtain ⟨s₅, h₅, h⟩ := bind_eq_ok.mp h
          cases h
          exact hrest _ _ hq₃ h₅
        · next q _ =>
            obtain ⟨s₄, h₄, h⟩ := bind_eq_ok.mp h
            obtain ⟨s₅, h₅, h⟩ := bind_eq_ok.mp h
            cases h₅
            obtain ⟨s₆, h₆, h⟩ := bind_eq_ok.mp h
            cases h
            refine hrest _ _ ((hq₃.trans (swapOutEntry_quiet h₄)).trans ?_) h₆
            exact quiet_setProc rfl rfl

/-! ### User memory -/

theorem uvmunmapPage_quiet {doFree : Bool} {a : Nat} (h : uvmunmapPage s r doFree a = .ok s') :
    Quiet p s s' := by
  obtain ⟨e, -, h⟩ := bind_eq_ok.mp h
  cases e with
  | none =>
      cases h
      exact .refl p s
  | some e =>
      simp only at h
      split at h
      · cases h
        exact (swapFree_quiet ..).trans (quiet_setPte ..)
      · split at h
        · cases h
          exact .refl p s
        · split at h
          · obtain ⟨s₁, h₁, h⟩ := bind_eq_ok.mp h
            cases h
            have h₀ : Quiet p s { s with frameTable := dropFrame s.frameTable (pte2Pa e) } :=
              quiet_of rfl rfl fun _ => rfl
            exact (h₀.trans (kfree_quiet h₁)).trans (quiet_setPte ..)
          · cases h
            exact quiet_setPte ..

/-- A loop whose body charges `p`. -/
theorem foldlM_quiet {β : Type} {f : Kernel → β → Except String Kernel}
    (hf : ∀ s x s', f s x = .ok s' → Quiet p s s') (l : List β) (s s' : Kernel)
    (h : l.foldlM f s = .ok s') : Quiet p s s' :=
  foldlM_invariant (I := fun t => Quiet p s t) (fun t x t' ht hx => ht.trans (hf t x t' hx)) l s s'
    (.refl p s) h

theorem uvmunmap_quiet {n : Nat} {doFree : Bool} (h : uvmunmap s r va n doFree = .ok s') :
    Quiet p s s' := by
  unfold uvmunmap at h
  split at h
  · cases h
  · exact foldlM_quiet (fun _ _ _ hx => uvmunmapPage_quiet hx) _ _ _ h

theorem countUnmapped_quiet {n : Nat} (h : countUnmapped s q r va n = .ok s') : Quiet p s s' := by
  refine foldlM_quiet (fun t k t' hx => ?_) _ _ _ h
  obtain ⟨e, -, hx⟩ := bind_eq_ok.mp hx
  cases e with
  | none =>
      cases hx
      exact .refl p t
  | some e =>
      simp only at hx
      split at hx
      · cases hx
        exact quiet_setProc rfl rfl
      · cases hx
        exact .refl p t

theorem uvmdealloc_quiet {oldsz newsz : Nat} {x : Nat × Kernel}
    (h : uvmdealloc s q r oldsz newsz = .ok x) : Quiet p s x.2 := by
  unfold uvmdealloc at h
  split at h
  · cases h
    exact .refl p s
  · split at h
    · obtain ⟨s₁, h₁, h⟩ := bind_eq_ok.mp h
      obtain ⟨s₂, h₂, h⟩ := bind_eq_ok.mp h
      cases h
      exact (countUnmapped_quiet h₁).trans (uvmunmap_quiet h₂)
    · cases h
      exact .refl p s

theorem uvmallocLoop_quiet {base : Nat} {xperm : Pte} : ∀ (n a : Nat) (s : Kernel)
    (x : Bool × Kernel), uvmallocLoop p r base xperm n a s = .ok x → Quiet p s x.2 := by
  intro n
  induction n with
  | zero =>
      intro a s x h
      cases h
      exact .refl p s
  | succ n ih =>
      intro a s x h
      obtain ⟨⟨mem, s₁⟩, h₁, h⟩ := bind_eq_ok.mp h
      have hq₁ : Quiet p s s₁ := kallocUser_quiet h₁
      cases mem with
      | none =>
          obtain ⟨y, h₂, h⟩ := bind_eq_ok.mp h
          cases h
          exact hq₁.trans (uvmdealloc_quiet h₂)
      | some pa =>
          obtain ⟨⟨mapped, s₂⟩, h₂, h⟩ := bind_eq_ok.mp h
          have hq₂ : Quiet p s s₂ := (hq₁.trans (quiet_setPage ..)).trans (mappages_quiet h₂)
          simp only at h
          split at h
          · exact hq₂.trans (ih _ _ x h)
          · obtain ⟨s₃, h₃, h⟩ := bind_eq_ok.mp h
            obtain ⟨y, h₄, h⟩ := bind_eq_ok.mp h
            cases h
            exact (hq₂.trans (kfree_quiet h₃)).trans (uvmdealloc_quiet h₄)

theorem uvmalloc_quiet {oldsz newsz : Nat} {xperm : Pte} {x : Nat × Kernel}
    (h : uvmalloc s p r oldsz newsz xperm = .ok x) : Quiet p s x.2 := by
  unfold uvmalloc at h
  split at h
  · cases h
    exact .refl p s
  · obtain ⟨y, h₁, h⟩ := bind_eq_ok.mp h
    cases h
    exact uvmallocLoop_quiet _ _ _ _ h₁

theorem growproc_quiet {n : Int} {x : Bool × Kernel} (h : growproc s p r n = .ok x) :
    Quiet p s x.2 := by
  unfold growproc at h
  simp only at h
  split at h
  · split at h
    · cases h
      exact .refl p s
    · obtain ⟨y, h₁, h⟩ := bind_eq_ok.mp h
      have hq := uvmalloc_quiet h₁
      split at h
      · cases h
        exact hq
      · cases h
        exact hq.trans (quiet_setProc rfl rfl)
  · split at h
    · obtain ⟨y, h₁, h⟩ := bind_eq_ok.mp h
      cases h
      exact (uvmdealloc_quiet h₁).trans (quiet_setProc rfl rfl)
    · cases h
      exact .refl p s

theorem serveFault_quiet {x : Nat × Kernel} (h : serveFault s p r v = .ok x) : Quiet p s x.2 := by
  unfold serveFault at h
  split at h
  · obtain ⟨⟨mem, s₁⟩, h₁, h⟩ := bind_eq_ok.mp h
    have hq₁ : Quiet p s s₁ := kallocUser_quiet h₁
    cases mem with
    | none =>
        cases h
        exact hq₁
    | some mem =>
        obtain ⟨s₂, h₂, h⟩ := bind_eq_ok.mp h
        cases h
        have hq₂ := (hq₁.trans (swapRead_quiet h₂)).trans (swapFree_quiet s₂ (swapIdx (s.pte r v)) p)
        exact (hq₂.trans (quiet_setPte ..)).trans (quiet_setProc rfl rfl)
  · split at h
    · obtain ⟨⟨mem, s₁⟩, h₁, h⟩ := bind_eq_ok.mp h
      have hq₁ : Quiet p s s₁ := kallocUser_quiet h₁
      cases mem with
      | none =>
          cases h
          exact hq₁
      | some mem =>
          cases h
          have hq₂ := hq₁.trans (quiet_setPage s₁ mem zeroPage)
          exact (hq₂.trans (quiet_setPte ..)).trans (quiet_setProc rfl rfl)
    · split at h
      · cases h
        exact .refl p s
      · cases h
        exact quiet_setFrame ..

theorem vmfault_quiet {x : Nat × Kernel} (h : vmfault s p r va = .ok x) : Quiet p s x.2 := by
  rw [vmfault_eq] at h
  split at h
  · cases h
    exact .refl p s
  · obtain ⟨⟨found, s₁⟩, h₁, h⟩ := bind_eq_ok.mp h
    have hq₁ : Quiet p s s₁ := walkAlloc_quiet h₁
    simp only at h
    split at h
    · cases h
      exact hq₁
    · exact hq₁.trans (serveFault_quiet h)

theorem copyoutLoop_quiet : ∀ (n : Nat) (s : Kernel) (dstva : Nat) (src : List UInt8)
    (x : Bool × Kernel), copyoutLoop p r n s dstva src = .ok x → Quiet p s x.2 := by
  intro n
  induction n with
  | zero =>
      intro s dstva src x h
      cases h
      exact .refl p s
  | succ n ih =>
      intro s dstva src x h
      rw [copyoutLoop] at h
      split at h
      · cases h
        exact .refl p s
      · simp only at h
        split at h
        · cases h
          exact .refl p s
        · obtain ⟨pa₀, -, h⟩ := bind_eq_ok.mp h
          have hrest : ∀ y : Nat × Kernel, Quiet p s y.2 → copyoutStore p r n dstva src y = .ok x →
              Quiet p s x.2 := by
            intro y hy h
            unfold copyoutStore at h
            split at h
            · cases h
              exact hy
            · obtain ⟨e, -, h⟩ := bind_eq_ok.mp h
              cases e with
              | none => cases h
              | some e =>
                  simp only at h
                  split at h
                  · cases h
                    exact hy
                  · exact (hy.trans (quiet_setPage ..)).trans (ih _ _ _ x h)
          by_cases h0 : pa₀ = 0
          · rw [if_pos h0] at h
            obtain ⟨y, hy, h⟩ := bind_eq_ok.mp h
            exact hrest y (vmfault_quiet hy) h
          · rw [if_neg h0] at h
            exact hrest (pa₀, s) (.refl p s) h

theorem copyStatus_quiet {addr : Nat} {status : Int} {x : Bool × Kernel}
    (h : copyStatus s p addr status = .ok x) : Quiet p s x.2 := by
  unfold copyStatus at h
  split at h
  · cases h
    exact .refl p s
  · split at h
    · cases h
    · exact copyoutLoop_quiet _ _ _ _ _ h

/-- A copy for a new process is charged to it. -/
theorem uvmcopyPage_quiet {old new : Nat} {x : Bool × Kernel}
    (h : uvmcopyPage s old new np v = .ok x) : Quiet np s x.2 := by
  obtain ⟨e, -, h⟩ := bind_eq_ok.mp h
  cases e with
  | none =>
      cases h
      exact .refl np s
  | some e =>
      simp only at h
      split at h
      · have hq₀ := swapAlloc_quiet s np
        split at h
        · next s₁ he =>
            cases h
            rwa [he] at hq₀
        · next slot s₁ he =>
            rw [he] at hq₀
            obtain ⟨raid, -, h⟩ := bind_eq_ok.mp h
            obtain ⟨⟨found, s₂⟩, h₂, h⟩ := bind_eq_ok.mp h
            -- the block of the new slot lies on the swap area
            have hblk : SWAP_START_BLOCK + slot * BLOCKS_PER_PAGE ≤ LAST_BLOCK := by
              have := swapAlloc_lt he
              simp only [SWAP_START_BLOCK, LAST_BLOCK, MAX_SWAP, BLOCKS_PER_PAGE] at *
              omega
            let copy : SwapSlot := ⟨true, none, v * PGSIZE, SWAP_START_BLOCK + slot * BLOCKS_PER_PAGE⟩
            have hq₁ : Quiet np s₁ { setSlot s₁ slot copy with raid := raid } := by
              refine ⟨⟨fun _ _ => rfl, fun hs => ⟨hs.procs, hs.head, fun i => ?_⟩⟩, fun _ => rfl⟩
              by_cases hi : i = slot
              · subst hi
                simp only [setSlot, Function.update_self]
                exact hblk
              · simpa [setSlot, hi] using hs.blocks i
            have hq₂ : Quiet np s s₂ := (hq₀.trans hq₁).trans (walkAlloc_quiet h₂)
            simp only at h
            split at h
            · cases h
              exact hq₂
            · cases h
              exact hq₂.trans (quiet_setPte ..)
      · split at h
        · cases h
          exact .refl np s
        · obtain ⟨⟨mem, s₁⟩, h₁, h⟩ := bind_eq_ok.mp h
          have hq₁ : Quiet np s s₁ := kallocUser_quiet h₁
          cases mem with
          | none =>
              cases h
              exact hq₁
          | some mem =>
              obtain ⟨⟨mapped, s₂⟩, h₂, h⟩ := bind_eq_ok.mp h
              have hq₂ : Quiet np s s₂ := (hq₁.trans (quiet_setPage ..)).trans (mappages_quiet h₂)
              simp only at h
              split at h
              · cases h
                exact hq₂
              · obtain ⟨s₃, h₃, h⟩ := bind_eq_ok.mp h
                cases h
                exact hq₂.trans (kfree_quiet h₃)

theorem uvmcopyLoop_quiet {old new : Nat} : ∀ (n v : Nat) (s : Kernel) (x : Bool × Kernel),
    uvmcopyLoop old new np n v s = .ok x → Quiet np s x.2 := by
  intro n
  induction n with
  | zero =>
      intro v s x h
      cases h
      exact .refl np s
  | succ n ih =>
      intro v s x h
      obtain ⟨⟨ok, s₁⟩, h₁, h⟩ := bind_eq_ok.mp h
      have hq₁ : Quiet np s s₁ := uvmcopyPage_quiet h₁
      simp only at h
      split at h
      · exact hq₁.trans (ih _ _ x h)
      · obtain ⟨s₂, h₂, h⟩ := bind_eq_ok.mp h
        cases h
        exact hq₁.trans (uvmunmap_quiet h₂)

/-! ### Freeing a process -/

theorem freewalkEntry0_quiet {k : Nat} (h : freewalkEntry0 r s k = .ok s') : Quiet p s s' := by
  unfold freewalkEntry0 at h
  split at h
  · cases h
    exact .refl p s
  · obtain ⟨s₁, h₁, h⟩ := bind_eq_ok.mp h
    cases h
    unfold freewalkL0 at h₁
    split at h₁
    · cases h₁
    · exact (kfree_quiet h₁).trans (quiet_of rfl rfl fun _ => rfl)

theorem freewalkEntry1_quiet {k : Nat} (h : freewalkEntry1 r s k = .ok s') : Quiet p s s' := by
  unfold freewalkEntry1 at h
  split at h
  · cases h
    exact .refl p s
  · obtain ⟨s₁, h₁, h⟩ := bind_eq_ok.mp h
    cases h
    obtain ⟨s₂, h₂, h₁⟩ := bind_eq_ok.mp h₁
    have hq₂ : Quiet p s s₂ := foldlM_quiet (fun _ _ _ hx => freewalkEntry0_quiet hx) _ _ _ h₂
    exact (hq₂.trans (kfree_quiet h₁)).trans (quiet_of rfl rfl fun _ => rfl)

theorem uvmfree_quiet {sz : Nat} (h : uvmfree s r sz = .ok s') : Quiet p s s' := by
  have hwalk : ∀ s₁, freewalk s₁ r = .ok s' → Quiet p s₁ s' := by
    intro s₁ h
    obtain ⟨s₂, h₂, h⟩ := bind_eq_ok.mp h
    exact (foldlM_quiet (fun _ _ _ hx => freewalkEntry1_quiet hx) _ _ _ h₂).trans (kfree_quiet h)
  unfold uvmfree at h
  split at h
  · obtain ⟨s₁, h₁, h⟩ := bind_eq_ok.mp h
    exact (uvmunmap_quiet h₁).trans (hwalk s₁ h)
  · rw [pure_eq_ok, ok_bind] at h
    exact hwalk s h

theorem freeTrapframe_quiet (h : freeTrapframe s q = .ok s') : Quiet p s s' := by
  have hset : ∀ s₁ : Kernel, Quiet p s₁ (setProc s₁ q { s₁.procs q with trapframe := none }) :=
    fun s₁ => quiet_setProc rfl rfl
  unfold freeTrapframe at h
  split at h
  · cases h
    exact hset s
  · obtain ⟨s₁, h₁, h⟩ := bind_eq_ok.mp h
    cases h
    exact (kfree_quiet h₁).trans (hset s₁)

/-- The disk counters of a freed process stay until `allocproc` clears them. -/
theorem resetProc_charged (s : Kernel) (q : ProcId) : Charged p s (resetProc s q) := by
  refine charged_of (fun y => ?_) rfl fun i => ?_
  · by_cases hy : y = q
    · subst hy
      simp [resetProc, setProc, Proc.disk]
    · rw [resetProc_other s hy]
  · simp only [resetProc, setProc, dropSlots]
    split
    · rfl
    · rfl

theorem resetProc_label (s : Kernel) (q : ProcId) :
    ((resetProc s q).procs q).label = (.unused, 0, false) := by
  simp [resetProc, setProc, Proc.label]

/-- **`freeproc`** charges nobody, and changes the label of `q` only. -/
theorem freeproc_charged (h : freeproc s q = .ok s') :
    Charged p s s' ∧ (s'.procs q).label = (.unused, 0, false) ∧
      ∀ y, y ≠ q → (s'.procs y).label = (s.procs y).label := by
  obtain ⟨s₁, h₁, h⟩ := bind_eq_ok.mp h
  have hq₁ : Quiet p s s₁ := freeTrapframe_quiet h₁
  have hreset : ∀ s₂, Quiet p s s₂ → Charged p s (resetProc s₂ q) ∧
      ((resetProc s₂ q).procs q).label = (.unused, 0, false) ∧
      ∀ y, y ≠ q → ((resetProc s₂ q).procs y).label = (s.procs y).label := by
    intro s₂ hq₂
    refine ⟨hq₂.toCharged.trans (resetProc_charged ..), resetProc_label .., fun y hy => ?_⟩
    rw [resetProc_other s₂ hy]
    exact hq₂.label y
  split at h
  · cases h
    exact hreset s₁ hq₁
  · obtain ⟨s₂, h₂, h⟩ := bind_eq_ok.mp h
    cases h
    obtain ⟨s₃, h₃, h₂⟩ := bind_eq_ok.mp h₂
    obtain ⟨s₄, h₄, h₂⟩ := bind_eq_ok.mp h₂
    exact hreset s₂ (((hq₁.trans (uvmunmap_quiet h₃)).trans (uvmunmap_quiet h₄)).trans
      (uvmfree_quiet h₂))

/-! ### Making a process -/

theorem procPagetable_quiet {x : Option Nat × Kernel} (h : procPagetable s q = .ok x) :
    Quiet p s x.2 := by
  have hc := uvmcreate_quiet (p := p) s
  unfold procPagetable at h
  split at h
  · next s₁ he =>
      cases h
      rwa [he] at hc
  · next r s₁ he =>
      rw [he] at hc
      obtain ⟨⟨ok, s₂⟩, h₂, h⟩ := bind_eq_ok.mp h
      have hq₂ : Quiet p s s₂ := hc.trans (mappages_quiet h₂)
      simp only at h
      split at h
      · obtain ⟨s₃, h₃, h⟩ := bind_eq_ok.mp h
        cases h
        exact hq₂.trans (uvmfree_quiet h₃)
      · obtain ⟨⟨ok', s₃⟩, h₃, h⟩ := bind_eq_ok.mp h
        have hq₃ : Quiet p s s₃ := hq₂.trans (mappages_quiet h₃)
        simp only at h
        split at h
        · obtain ⟨s₄, h₄, h⟩ := bind_eq_ok.mp h
          obtain ⟨s₅, h₅, h⟩ := bind_eq_ok.mp h
          cases h
          exact (hq₃.trans (uvmunmap_quiet h₄)).trans (uvmfree_quiet h₅)
        · cases h
          exact hq₃

theorem startProc_charged (s : Kernel) (np : ProcId) : Charged np s (startProc s np) := by
  have hother : ∀ q, q ≠ np → (startProc s np).procs q = s.procs q := fun q hq => by
    simp [startProc, setProc, hq]
  refine ⟨fun q hq => by rw [hother q hq], fun hs => ⟨fun q => ?_, hs.head, hs.blocks⟩⟩
  by_cases hq : q = np
  · subst hq
    have hself : ((startProc s q).procs q).disk = (0, 0, 0, 0) := by
      simp [startProc, setProc, Proc.disk]
    simp only [Proc.disk, Prod.mk.injEq] at hself
    obtain ⟨h₁, h₂, h₃, h₄⟩ := hself
    exact ⟨by rw [h₁, h₂, h₄]; rfl, by rw [h₃, h₄]; rfl, by rw [h₃, h₄]; rfl⟩
  · rw [hother q hq]
    exact hs.procs q

/-- What `allocproc` leaves of the labels: the new process has a new pid and is as killed as its
slot was; when it fails, the slot is cleared. -/
structure Labelled (s s' : Kernel) (np : ProcId) (res : Option ProcId) : Prop where
  others : ∀ q, q ≠ np → (s'.procs q).label = (s.procs q).label
  made : res = some np → (s'.procs np).label = (.used, s.nextpid, (s.procs np).killed)
  failed : res = none → (s'.procs np).label = (.unused, 0, false)

/-- **`allocproc`** charges nobody but the new process, whose counters it clears. -/
theorem allocproc_charged {res : Option ProcId} (hnp : freeProc s = some np)
    (h : allocproc s = .ok (res, s')) :
    Charged np s s' ∧ (res = some np ∨ res = none) ∧ Labelled s s' np res := by
  have hlabel : ((startProc s np).procs np).label = (.used, s.nextpid, (s.procs np).killed) ∧
      ∀ q, q ≠ np → ((startProc s np).procs q).label = (s.procs q).label := by
    refine ⟨by simp [startProc, setProc, Proc.label], fun q hq => ?_⟩
    simp [startProc, setProc, Proc.label, hq]
  -- a failure after any quiet steps is undone by `freeproc`
  have hfail : ∀ s₁, Quiet np (startProc s np) s₁ → freeproc s₁ np = .ok s' → res = none →
      Charged np s s' ∧ (res = some np ∨ res = none) ∧ Labelled s s' np res := by
    intro s₁ hq hfree hres
    obtain ⟨hc, hself, hothers⟩ := freeproc_charged (p := np) hfree
    refine ⟨((startProc_charged s np).trans hq.toCharged).trans hc, Or.inr hres, fun q hqn => ?_,
      fun hr => ?_, fun _ => hself⟩
    · rw [hothers q hqn, hq.label q, hlabel.2 q hqn]
    · cases hres.symm.trans hr
  have hk := kalloc_quiet (startProc s np) np
  simp only [allocproc, hnp] at h
  split at h
  · next s₁ he =>
      rw [he] at hk
      obtain ⟨s₂, h₂, h⟩ := bind_eq_ok.mp h
      cases h
      have hq₁ : Quiet np (startProc s np) (setProc s₁ np { s₁.procs np with trapframe := none }) :=
        hk.trans (quiet_setProc rfl rfl)
      exact hfail _ hq₁ h₂ rfl
  · next pa s₁ he =>
      rw [he] at hk
      obtain ⟨⟨table, s₂⟩, h₂, h⟩ := bind_eq_ok.mp h
      have hq₁ : Quiet np (startProc s np) (setProc s₁ np { s₁.procs np with trapframe := some pa }) :=
        hk.trans (quiet_setProc rfl rfl)
      have hq₂ : Quiet np (startProc s np) (setProc s₂ np { s₂.procs np with pagetable := table }) :=
        (hq₁.trans (procPagetable_quiet h₂)).trans (quiet_setProc rfl rfl)
      simp only at h
      split at h
      · obtain ⟨s₃, h₃, h⟩ := bind_eq_ok.mp h
        cases h
        exact hfail _ hq₂ h₃ rfl
      · cases h
        refine ⟨(startProc_charged s np).trans hq₂.toCharged, Or.inl rfl, fun q hqn => ?_, fun _ => ?_,
          fun hf => (by cases hf)⟩
        · rw [hq₂.label q, hlabel.2 q hqn]
        · rw [hq₂.label np, hlabel.1]

/-! ### Fork, exit, wait -/

/-- **`kfork`** charges nobody but the child. -/
theorem kfork_charged {x : Option Int × Kernel} (h : kfork s p = .ok x)
    (hnp : freeProc s = some np) : Charged np s x.2 := by
  obtain ⟨⟨res, s₁⟩, h₁, h⟩ := bind_eq_ok.mp h
  obtain ⟨hc, hres, -⟩ := allocproc_charged hnp h₁
  cases res with
  | none =>
      cases h
      exact hc
  | some np' =>
      rcases hres with hres | hres
      swap
      · cases hres
      cases hres
      simp only at h
      split at h
      · next old new hold hnew =>
          obtain ⟨⟨ok, s₂⟩, h₂, h⟩ := bind_eq_ok.mp h
          have hc₂ : Charged np s s₂ := hc.trans (uvmcopyLoop_quiet _ _ _ _ h₂).toCharged
          simp only at h
          split at h
          · obtain ⟨s₃, h₃, h⟩ := bind_eq_ok.mp h
            cases h
            exact hc₂.trans (freeproc_charged h₃).1
          · cases h
            exact hc₂.trans (charged_setProc rfl)
      · cases h

theorem kfork_none {x : Option Int × Kernel} (h : kfork s p = .ok x) (hnp : freeProc s = none) :
    x.2 = s := by
  simp only [kfork, allocproc, hnp, ok_bind] at h
  cases h
  rfl

/-- Labels do not count. -/
theorem Relabelled.charged (h : Relabelled s s') : Charged p s s' := by
  refine charged_of (fun q => ?_) (by rw [h.only]) fun i => by rw [h.only]
  have hq := congrArg Proc.disk (h.bare q)
  exact hq

theorem kexit_charged {status : Int} (h : kexit s q status = .ok s') : Charged p s s' := by
  unfold kexit at h
  split at h
  · cases h
  · rw [← Except.ok.inj h]
    have hr := (reparent_relabelled s q).trans
      (wakeup_relabelled (reparent s q) q ((reparent s q).procs q).parent)
    exact hr.charged.trans (charged_setProc rfl)

theorem kwait_charged {addr : Nat} {x : WaitResult × Kernel} (h : kwait s p addr = .ok x) :
    Charged p s x.2 := by
  unfold kwait at h
  split at h
  · obtain ⟨⟨ok, s₁⟩, h₁, h⟩ := bind_eq_ok.mp h
    have hq₁ : Quiet p s s₁ := copyStatus_quiet h₁
    simp only at h
    split at h
    · cases h
      exact hq₁.toCharged
    · obtain ⟨s₂, h₂, h⟩ := bind_eq_ok.mp h
      cases h
      exact hq₁.toCharged.trans (freeproc_charged h₂).1
  · split at h
    · cases h
      exact .refl p s
    · cases h
      exact charged_setProc rfl

/-! ### Runs -/

/-- The process that pays for an operation: the one that performs it or, for `kfork`, the child. -/
def KernelOp.payer (o : KernelOp) (s : Kernel) : Option ProcId :=
  match o with
  | .fork _ => freeProc s
  | o => some o.proc

/-- Counters of processes that an operation is not performed for stay as they are. -/
def KernelOp.Isolated (o : KernelOp) (s s' : Kernel) : Prop :=
  ∀ q, o.payer s ≠ some q → (s'.procs q).disk = (s.procs q).disk

/-- **Each operation charges one process**, and keeps the statistics sound. -/
theorem kernelStep_charged {o : KernelOp} {res : KernelResult} (h : kernelStep o s = .ok (res, s')) :
    o.Isolated s s' ∧ (DiskSound s → DiskSound s') := by
  have hpaid : ∀ q, o.payer s = some q → Charged q s s' → o.Isolated s s' ∧
      (DiskSound s → DiskSound s') := by
    intro q hq hc
    refine ⟨fun y hy => hc.disk y fun he => hy ?_, hc.sound⟩
    rw [hq, he]
  unfold kernelStep at h
  split at h
  · cases h
  · cases o with
    | fault p va =>
        obtain ⟨x, hx, h⟩ := bind_eq_ok.mp h
        cases h
        exact hpaid p rfl (vmfault_quiet hx).toCharged
    | grow p n =>
        obtain ⟨x, hx, h⟩ := bind_eq_ok.mp h
        cases h
        exact hpaid p rfl (growproc_quiet hx).toCharged
    | fork p =>
        obtain ⟨x, hx, h⟩ := bind_eq_ok.mp h
        cases h
        cases hnp : freeProc s with
        | none =>
            rw [kfork_none hx hnp]
            exact ⟨fun _ _ => rfl, id⟩
        | some np => exact hpaid np hnp (kfork_charged hx hnp)
    | exit p status =>
        obtain ⟨x, hx, h⟩ := bind_eq_ok.mp h
        cases h
        exact hpaid p rfl (kexit_charged hx)
    | wait p addr =>
        obtain ⟨x, hx, h⟩ := bind_eq_ok.mp h
        cases h
        exact hpaid p rfl (kwait_charged hx)

theorem run_diskSound {ops : List KernelOp} {rs : List KernelResult} (h : DiskSound s)
    (hrun : run kernelStep ops s = .ok (rs, s')) : DiskSound s' :=
  run_invariant (G := fun _ _ => True) (fun _ _ _ _ _ hI hs => (kernelStep_charged hs).2 hI) ops s rs s'
    (meets_of_forall (fun _ _ => trivial) ops s) h hrun

/-! ### `getvmstats` -/

/-- `struct vmstats`. -/
structure VmStats where
  pageFaults : Int
  pagesEvicted : Int
  pagesSwappedIn : Int
  pagesSwappedOut : Int
  residentPages : Int
  diskReads : Nat
  diskWrites : Nat
  avgDiskLatency : Nat
  deriving DecidableEq, Repr

/-- The value that a counter of type `uint64` holds after `n` increments. -/
def asUint64 (n : Nat) : Nat := n % 2 ^ 64

/-- What `getvmstats` reads of one process.  The counters of the model do not wrap around; the
source's do. -/
def vmstatsOf (x : Proc) : VmStats where
  pageFaults := asInt x.pageFaults
  pagesEvicted := asInt x.pagesEvicted
  pagesSwappedIn := asInt x.pagesSwappedIn
  pagesSwappedOut := asInt x.pagesSwappedOut
  residentPages := asInt x.residentPages
  diskReads := asUint64 x.diskReads
  diskWrites := asUint64 x.diskWrites
  avgDiskLatency :=
    if asInt x.diskOps > 0 then asUint64 x.totalDiskLatency / (asInt x.diskOps).toNat else 0

/-- `none` is the result -1. -/
def getvmstats (s : Kernel) (pid : Int) : Option VmStats :=
  ((List.finRange NPROC).find? fun p => (s.procs p).pid == pid && (s.procs p).state != .unused).map
    fun p => vmstatsOf (s.procs p)

/-- The process that `getvmstats` reports on. -/
theorem getvmstats_some {pid : Int} {st : VmStats} (h : getvmstats s pid = some st) :
    ∃ p, (s.procs p).pid = pid ∧ (s.procs p).state ≠ .unused ∧ st = vmstatsOf (s.procs p) := by
  obtain ⟨p, hp, rfl⟩ := Option.map_eq_some_iff.mp h
  have hf := List.find?_some hp
  simp only [Bool.and_eq_true, beq_iff_eq, bne_iff_ne] at hf
  exact ⟨p, hf.1, hf.2, rfl⟩

/-- Below `2 ^ 31` operations the counters hold what was counted. -/
theorem DiskOk.stats {x : Proc} (h : DiskOk x) (hsmall : x.diskOps < 2 ^ 31) :
    asInt x.diskOps = x.diskOps ∧ asUint64 x.diskReads = x.diskReads ∧
      asUint64 x.diskWrites = x.diskWrites ∧ asUint64 x.totalDiskLatency = x.totalDiskLatency := by
  obtain ⟨h₁, h₂, h₃⟩ := h
  simp only [LAST_BLOCK, ROTATIONAL_CONST, MAX_SWAP, BLOCKS_PER_PAGE] at h₂ h₃
  refine ⟨?_, Nat.mod_eq_of_lt (by omega), Nat.mod_eq_of_lt (by omega), Nat.mod_eq_of_lt (by omega)⟩
  rw [asInt, Int.bmod_eq_of_le_mul_two (by omega) (by omega)]

/-- The average is between the bounds of one operation. -/
theorem DiskOk.average {x : Proc} (h : DiskOk x) (hsmall : x.diskOps < 2 ^ 31) :
    (x.diskOps = 0 → (vmstatsOf x).avgDiskLatency = 0) ∧
      (x.diskOps ≠ 0 → ROTATIONAL_CONST ≤ (vmstatsOf x).avgDiskLatency ∧
        (vmstatsOf x).avgDiskLatency ≤ LAST_BLOCK + ROTATIONAL_CONST) := by
  obtain ⟨h₁, -, -, h₄⟩ := h.stats hsmall
  simp only [vmstatsOf, h₁, h₄]
  refine ⟨fun h0 => by rw [h0]; rfl, fun hne => ?_⟩
  obtain ⟨n, hn⟩ : ∃ n : Nat, x.diskOps = n := ⟨x.diskReads + x.diskWrites, by
    rw [h.ops]
    push_cast
    rfl⟩
  have hpos : 0 < n := by omega
  rw [if_pos (by omega), hn, Int.toNat_natCast]
  constructor
  · rw [Nat.le_div_iff_mul_le hpos]
    have := h.lo
    rw [hn] at this
    exact_mod_cast this
  · refine (Nat.div_le_iff_le_mul_add_pred hpos).mpr ?_
    have := h.hi
    rw [hn] at this
    have hle : x.totalDiskLatency ≤ (LAST_BLOCK + ROTATIONAL_CONST) * n := by exact_mod_cast this
    rw [Nat.mul_comm]
    omega

/-! ### The statistics of a run -/

theorem diskOk_zero : DiskOk zeroProc := ⟨rfl, le_rfl, le_rfl⟩

theorem freerangeLoop_quiet : ∀ (n : Nat) (s : Kernel) (pa : Nat) (s' : Kernel),
    freerangeLoop n s pa = .ok s' → Quiet p s s' := by
  intro n
  induction n with
  | zero =>
      intro s pa s' h
      cases h
      exact .refl p s
  | succ n ih =>
      intro s pa s' h
      obtain ⟨s₁, h₁, h⟩ := bind_eq_ok.mp h
      exact (kfree_quiet h₁).trans (ih s₁ _ s' h)

theorem keepPages_quiet : ∀ (n : Nat) (s : Kernel), Quiet p s (keepPages n s)
  | 0, s => .refl p s
  | n + 1, s => (kalloc_quiet s p).trans (keepPages_quiet n _)

/-- The statistics are sound at boot. -/
theorem boot_diskSound {kend trampoline n : Nat} {mem : Nat → Page}
    (h : boot kend trampoline mem n = .ok s) : DiskSound s := by
  obtain ⟨s₁, h₁, h⟩ := bind_eq_ok.mp h
  obtain ⟨s₂, h₂, h₁⟩ := bind_eq_ok.mp h₁
  cases h
  cases h₁
  have hload : DiskSound (loadedKernel kend trampoline mem) :=
    ⟨fun _ => diskOk_zero, Nat.zero_le _, fun _ => Nat.zero_le _⟩
  have hfree : DiskSound s₂ := (freerangeLoop_quiet (p := firstProc) _ _ _ _ h₂).sound hload
  have hinit : DiskSound (swapInit { s₂ with frameTable := fun _ => zeroFrame }) := by
    refine ⟨hfree.procs, hfree.head, fun i => ?_⟩
    simp only [swapInit]
    split
    · exact Nat.zero_le _
    · exact hfree.blocks i
  have hkeep := (keepPages_quiet (p := firstProc) n _).sound hinit
  exact ⟨fun q => (hkeep.procs q).congr rfl, hkeep.head, hkeep.blocks⟩

theorem userinit_diskSound (h : DiskSound s) (hrun : userinit s = .ok s') : DiskSound s' := by
  obtain ⟨⟨res, s₁⟩, h₁, hrun⟩ := bind_eq_ok.mp hrun
  cases res with
  | none => cases hrun
  | some p =>
      cases hrun
      have hs₁ : DiskSound s₁ := by
        cases hnp : freeProc s with
        | none =>
            simp only [allocproc, hnp] at h₁
            cases h₁
        | some np => exact (allocproc_charged hnp h₁).1.sound h
      have hs₂ := (charged_setProc (s := s₁) (p := p) (q := p)
        (x := { s₁.procs p with state := .runnable }) rfl).sound hs₁
      exact ⟨hs₂.procs, hs₂.head, hs₂.blocks⟩

/-- The disk counters that a process holds agree with each other. -/
structure StatsOk (x : Proc) : Prop where
  ops : asInt x.diskOps = asUint64 x.diskReads + asUint64 x.diskWrites
  lo : 5 * asInt x.diskOps ≤ asUint64 x.totalDiskLatency
  hi : asUint64 x.totalDiskLatency ≤ 513 * asInt x.diskOps

theorem DiskOk.statsOk {x : Proc} (h : DiskOk x) (hsmall : x.diskOps < 2 ^ 31) : StatsOk x := by
  obtain ⟨h₁, h₂, h₃, h₄⟩ := h.stats hsmall
  refine ⟨?_, ?_, ?_⟩
  · rw [h₁, h₂, h₃, h.ops]
  · rw [h₁, h₄]
    exact h.lo
  · rw [h₁, h₄]
    exact h.hi

/-- **The disk statistics are consistent** in every state of a run, and each operation leaves the
counters of the other processes alone. -/
theorem disk_stats {ops : List KernelOp} {rs : List KernelResult} (h : DiskSound s)
    (hrun : run kernelStep ops s = .ok (rs, s'))
    (hsmall : ∀ p, (s'.procs p).state ≠ .unused → (s'.procs p).diskOps < 2 ^ 31) :
    (∀ p, (s'.procs p).state ≠ .unused → StatsOk (s'.procs p)) ∧
      (∀ pid st, getvmstats s' pid = some st →
        (st.diskReads + st.diskWrites = 0 → st.avgDiskLatency = 0) ∧
        (st.diskReads + st.diskWrites ≠ 0 → 5 ≤ st.avgDiskLatency ∧ st.avgDiskLatency ≤ 513)) ∧
      ∀ o res s'', kernelStep o s' = .ok (res, s'') → o.Isolated s' s'' := by
  have hs := run_diskSound h hrun
  refine ⟨fun p hp => (hs.procs p).statsOk (hsmall p hp), fun pid st hst => ?_,
    fun o res s'' hstep => (kernelStep_charged hstep).1⟩
  obtain ⟨p, -, hlive, rfl⟩ := getvmstats_some hst
  have hok := hs.procs p
  obtain ⟨-, h₂, h₃, -⟩ := hok.stats (hsmall p hlive)
  obtain ⟨hzero, hpos⟩ := hok.average (hsmall p hlive)
  have hops := hok.ops
  refine ⟨fun h0 => hzero ?_, fun hne => hpos ?_⟩
  · simp only [vmstatsOf, h₂, h₃] at h0
    omega
  · simp only [vmstatsOf, h₂, h₃] at hne
    omega

theorem firstKernel_diskSound : DiskSound firstKernel := by
  refine userinit_diskSound (s := smallKernel) ?_ (eq_ok_getD smallKernel (by decide +kernel))
  exact ⟨fun _ => diskOk_zero, Nat.zero_le _, fun _ => Nat.zero_le _⟩

/-- A process grows until its first page is swapped out, and touches it again. -/
def swapInRun : List KernelOp := [.grow firstProc (33 * 4096), .fault firstProc 0]

theorem disk_stats_swapIn : ∃ rs s', run kernelStep swapInRun firstKernel = .ok (rs, s') ∧
    getvmstats s' 1 = some ⟨0, 2, 1, 2, -1, 1, 2, 7⟩ ∧ StatsOk (s'.procs firstProc) := by
  obtain ⟨rs, hrun⟩ : ∃ rs, run kernelStep swapInRun firstKernel =
      .ok (rs, stateAfter (run kernelStep swapInRun firstKernel) firstKernel) :=
    eq_ok_stateAfter firstKernel (by decide +kernel)
  have hstats := (disk_stats firstKernel_diskSound hrun (by decide +kernel)).1
  exact ⟨rs, _, hrun, by decide +kernel, hstats firstProc (by decide +kernel)⟩

end Xv6.Vm
