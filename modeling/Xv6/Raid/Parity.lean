import Xv6.Raid.Pages

/-!
# Raid — Parity

RAID-5 with all disks healthy keeps the XOR of every row zero, so that any one disk can be
reconstructed from the other three.

* `ParityOk`: RAID-5, all disks healthy, every row XORs to zero.
* `ioStep_parityOk`: every call keeps it, through each of its four block writes.
* `raid5_survives_one_failure`: after any sequence of calls, failing any one disk changes no
  page.
-/

namespace Xv6.Raid
open Xv6.Lib

/-- The four blocks of every row XOR to zero, in RAID-5 with all disks healthy. -/
structure ParityOk (s : State) : Prop where
  mode5 : s.raidMode = .mode5
  healthy : Healthy s
  rows : ∀ r, rowXor s r = zeroBlock

theorem parityOk_initMode (s : State) : ParityOk (initMode s .mode5) := by
  refine ⟨rfl, healthy_initMode s .mode5, fun r => ?_⟩
  simp only [rowXor, initMode, raidInit, xorBlock_self]

theorem writeBlock_parityOk {s s' : State} {lb : Nat} {src : Block} (hs : ParityOk s)
    (hlb : lb < 512) (h : writeBlock s lb src = .ok s') : ParityOk s' := by
  have heq := raid5Write_eq s hlb src
  simp only [writeBlock, hs.mode5] at h
  rw [h] at heq
  cases heq
  set r := lb / DATA_DISKS
  set s₁ := putRow s (disk5 lb) r src with hs₁
  have hf : s₁.diskFailed = s.diskFailed := by simp [hs₁]
  refine ⟨by simp [hs₁, hs.mode5], fun d hd => by simpa [hs₁] using hs.healthy d hd, fun q => ?_⟩
  by_cases hq : q = r
  · -- the written row: its parity was recomputed from all three data blocks
    rw [hq, rowXor_parity s₁ r (by rw [hf]; exact hs.healthy _ (raid5ParityDisk_lt r))]
    simp [hf, hs.healthy _ (raid5DataDisk_lt _ _)]
  · have hrow : ∀ d, (putRow s₁ (raid5ParityDisk r) r (parityOf s₁ r)).simDisk d q = s.simDisk d q := by
      intro d
      rw [putRow_simDisk, if_neg fun h => hq h.2.1, hs₁, putRow_simDisk, if_neg fun h => hq h.2.1]
    simp only [rowXor, hrow]
    exact hs.rows q

theorem raidWrite_parityOk {s s' : State} {slot : Slot} {page : Page} (hs : ParityOk s)
    (h : raidWrite s (BLOCKS_PER_PAGE * slot.val) page = .ok s') : ParityOk s' := by
  refine foldlM_invariant (fun t i t' ht h => ?_) _ s s' hs h
  rw [lblockAt_slot] at h
  exact writeBlock_parityOk ht (slot_block_lt slot i) h

/-- Every call keeps every row's XOR zero. -/
theorem ioStep_parityOk {o : IoOp} {s s' : State} {r : Option Page} (hs : ParityOk s)
    (h : ioStep o s = .ok (r, s')) : ParityOk s' := by
  cases o with
  | write slot page =>
      obtain ⟨t, ht, he⟩ := bind_eq_ok.mp h
      cases he
      exact raidWrite_parityOk hs ht
  | read slot =>
      obtain ⟨page, -, he⟩ := bind_eq_ok.mp h
      cases he
      exact hs
  | copy src dst =>
      obtain ⟨t, ht, he⟩ := bind_eq_ok.mp h
      cases he
      obtain ⟨buf, -, hw⟩ := bind_eq_ok.mp ht
      exact raidWrite_parityOk (s := { s with raidCopyBuf := buf })
        ⟨hs.mode5, hs.healthy, hs.rows⟩ hw

theorem setFailed_oneFailed {s : State} (hs : Healthy s) (d : Nat) : OneFailed (setFailed s d true) := by
  intro a b ha hb fa fb
  have only : ∀ e, e < NUM_DISKS → (setFailed s d true).diskFailed e = true → e = d := by
    intro e he hf
    by_contra hne
    simp [setFailed, Function.update_of_ne hne, hs e he] at hf
  rw [only a ha fa, only b hb fb]

/-- Failing a disk whose rows are consistent changes no block that reads return. -/
theorem blockView_setFailed {s : State} (hs : ParityOk s) (d x : Nat) :
    blockView (setFailed s d true) x = blockView s x := by
  have hm : (setFailed s d true).raidMode = .mode5 := hs.mode5
  have hrow : rowXor (setFailed s d true) (x / DATA_DISKS) = zeroBlock := hs.rows _
  rw [blockView_mode5 hm, blockView_mode5 hs.mode5, hrow, hs.healthy _ (disk5_lt x), zero_xorBlock]
  split <;> rfl

/-- **RAID-5 survives the loss of any one disk.**  After any sequence of calls in RAID-5 with all
disks healthy, the four blocks of every row XOR to zero, and after failing any one disk every
slot reads the same page as before. -/
theorem raid5_survives_one_failure (s₀ : State) (ops : List IoOp) :
    ∃ s rs s', raidSetmode (raidInit s₀) 5 = .ok s ∧ run ioStep ops s = .ok (rs, s') ∧
      (∀ row, row < DISK_BLOCKS → xorBlock (s'.simDisk 0 row) (xorBlock (s'.simDisk 1 row)
        (xorBlock (s'.simDisk 2 row) (s'.simDisk 3 row))) = zeroBlock) ∧
      ∀ d : Fin NUM_DISKS, ∃ s'', raidFailDisk s' d.val = .ok s'' ∧
        ∀ (slot : Slot) (dst : Page), ∃ page,
          raidRead s' (BLOCKS_PER_PAGE * slot.val) dst = .ok page ∧
          raidRead s'' (BLOCKS_PER_PAGE * slot.val) dst = .ok page := by
  obtain ⟨s', hrun, ⟨hI, -⟩, -⟩ :=
    (raid_refines_flat .mode5).run ops _ ⟨healthy_initMode s₀ .mode5, rfl⟩
  have hpar : ParityOk s' :=
    run_invariant (G := fun _ _ => True) (fun o s r s' _ hs h => ioStep_parityOk hs h) ops _ _ s'
      (meets_of_forall (fun _ _ => trivial) ops _) (parityOk_initMode s₀) hrun
  refine ⟨_, _, s', initMode_eq s₀ .mode5, hrun, fun row _ => ?_, fun d => ?_⟩
  · rw [← rowXor_eq, hpar.rows]
  · have hd : raidFailDisk s' d.val = .ok (setFailed s' d.val true) := by
      have := d.isLt
      simp only [raidFailDisk, NUM_DISKS] at *
      rw [if_neg (by omega), Int.toNat_natCast]
    refine ⟨_, hd, fun slot dst => ⟨pageView s' slot, raidRead_eq hI.readable slot dst, ?_⟩⟩
    have hread : Readable (setFailed s' d.val true) :=
      ⟨setFailed_oneFailed hI d.val, fun h => by cases hpar.mode5.symm.trans h⟩
    rw [raidRead_eq hread, pageView_congr fun i _ => blockView_setFailed hpar d.val _]

end Xv6.Raid
