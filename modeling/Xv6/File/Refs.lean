import Xv6.File.Table
import Xv6.Lib.Refs

/-!
# File — Refs

The reference count of an open file is the number of its descriptors.

* `Tracked s e`: the invariant, inside a call.  `e f` is the number of references to `f` that the call
  has in its hands.  A pipe has at most one file for each end, the end is open as long as there is
  one, and the pages of pipes are not free.
* `Within s s'`: no page is lost, or appears, from `s` to `s'`.
* `fileclose_spec`, `filedup_spec`, `filealloc_spec`, `fdalloc_spec`, `pipealloc_spec`: each function
  returns, and moves references between the counts, the slots and the call.
* `fileStep_spec`: every call returns, and keeps the invariant with nothing left in its hands.
-/

namespace Xv6.File
open Xv6.Lib

variable {s s' s₁ s₂ : Files} {e e' : FileId → Int} {f g : FileId} {p np : ProcId} {fd : Fd}
  {x : OpenFile} {pa : Nat} {w : Bool}

/-! ### The invariant -/

/-- An end of the pipe is open. -/
def Pipe.isOpen (pi : Pipe) (writable : Bool) : Bool :=
  if writable then pi.writeopen else pi.readopen

/-- `f` is an end of the pipe at `pa`. -/
def EndOf (s : Files) (f : FileId) (pa : Nat) : Prop :=
  (s.file f).type = .pipe ∧ (s.file f).pipe = pa

structure Tracked (s : Files) (e : FileId → Int) : Prop where
  ref : Counts (fun f => (s.file f).ref) s.ofile e
  closed : ∀ f, (s.file f).ref = 0 → (s.file f).type = .none
  ends : ∀ f pa, EndOf s f pa →
    ∀ w, (s.page pa).isOpen w = true ↔ ∃ g, EndOf s g pa ∧ (s.file g).writable = w
  once : ∀ f g pa, EndOf s f pa → EndOf s g pa → (s.file f).writable = (s.file g).writable → f = g
  taken : ∀ f pa, EndOf s f pa → pa ∉ s.freelist
  nodup : s.freelist.Nodup

/-- The pages that are free or in a pipe. -/
def Known (s : Files) (pa : Nat) : Prop := pa ∈ s.freelist ∨ ∃ f, EndOf s f pa

def Within (s s' : Files) : Prop := ∀ pa, Known s' pa ↔ Known s pa

theorem Within.refl (s : Files) : Within s s := fun _ => Iff.rfl

theorem Within.trans (h : Within s s₁) (h' : Within s₁ s₂) : Within s s₂ :=
  fun pa => (h' pa).trans (h pa)

@[simp] theorem setFile_file_self (s : Files) (f : FileId) (x : OpenFile) : (setFile s f x).file f = x :=
  Function.update_self ..

theorem setFile_file_ne (s : Files) (x : OpenFile) (h : g ≠ f) : (setFile s f x).file g = s.file g :=
  Function.update_of_ne h ..

/-- Only the references of a file change. -/
theorem endOf_setFile (htype : x.type = (s.file f).type) (hpipe : x.pipe = (s.file f).pipe) :
    EndOf (setFile s f x) g pa ↔ EndOf s g pa := by
  unfold EndOf setFile
  by_cases hg : g = f
  · subst hg
    simp only [Function.update_self, htype, hpipe]
  · simp only [Function.update_of_ne hg]

theorem writable_setFile (hw : x.writable = (s.file f).writable) (g : FileId) :
    ((setFile s f x).file g).writable = (s.file g).writable := by
  unfold setFile
  by_cases hg : g = f
  · subst hg
    simp only [Function.update_self, hw]
  · simp only [Function.update_of_ne hg]

theorem ref_setFile (s : Files) (f : FileId) (x : OpenFile) :
    (fun g => ((setFile s f x).file g).ref) = Function.update (fun g => (s.file g).ref) f x.ref := by
  funext g
  unfold setFile
  by_cases hg : g = f
  · subst hg
    simp only [Function.update_self]
  · simp only [Function.update_of_ne hg]

/-- The count of a file changes. -/
theorem Tracked.recount {n : Nat} (h : Tracked s e)
    (hcount : Counts (Function.update (fun g => (s.file g).ref) f n) s.ofile e')
    (hn : n = 0 → (s.file f).type = .none) :
    Tracked (setFile s f { s.file f with ref := n }) e' ∧
      Within s (setFile s f { s.file f with ref := n }) := by
  have hend : ∀ g pa, EndOf (setFile s f { s.file f with ref := n }) g pa ↔ EndOf s g pa :=
    fun g pa => endOf_setFile rfl rfl
  have hw := writable_setFile (s := s) (f := f) (x := { s.file f with ref := n }) rfl
  refine ⟨⟨?_, fun g hg => ?_, fun g pa hg w => ?_, fun g g' pa hg hg' hww => ?_, fun g pa hg => ?_,
    h.nodup⟩, fun pa => ?_⟩
  · rw [ref_setFile]
    exact hcount
  · unfold setFile at hg ⊢
    by_cases hgf : g = f
    · subst hgf
      simp only [Function.update_self] at hg ⊢
      exact hn hg
    · simp only [Function.update_of_ne hgf] at hg ⊢
      exact h.closed g hg
  · simp only [hend, hw]
    exact h.ends g pa ((hend g pa).mp hg) w
  · rw [hw, hw] at hww
    exact h.once g g' pa ((hend g pa).mp hg) ((hend g' pa).mp hg') hww
  · exact h.taken g pa ((hend g pa).mp hg)
  · simp only [Known, hend]
    rfl

/-- A file that is no pipe gets other contents. -/
theorem Tracked.retype (h : Tracked s e) (hx : x.ref = (s.file f).ref)
    (hold : (s.file f).type ≠ .pipe) (hnew : x.type ≠ .pipe) (hclosed : x.ref = 0 → x.type = .none) :
    Tracked (setFile s f x) e ∧ Within s (setFile s f x) := by
  have hend : ∀ g pa, EndOf (setFile s f x) g pa ↔ EndOf s g pa := by
    intro g pa
    unfold EndOf setFile
    by_cases hg : g = f
    · subst hg
      simp only [Function.update_self, hold, hnew, false_and]
    · simp only [Function.update_of_ne hg]
  have hw : ∀ g pa, EndOf s g pa → ((setFile s f x).file g).writable = (s.file g).writable := by
    intro g pa hg
    have hgf : g ≠ f := by
      rintro rfl
      exact hold hg.1
    unfold setFile
    simp only [Function.update_of_ne hgf]
  refine ⟨⟨?_, fun g hg => ?_, fun g pa hg w => ?_, fun g g' pa hg hg' hww => ?_, fun g pa hg => ?_,
    h.nodup⟩, fun pa => ?_⟩
  · rw [ref_setFile, hx, Function.update_eq_self]
    exact h.ref
  · unfold setFile at hg ⊢
    by_cases hgf : g = f
    · subst hgf
      simp only [Function.update_self] at hg ⊢
      exact hclosed hg
    · simp only [Function.update_of_ne hgf] at hg ⊢
      exact h.closed g hg
  · refine (h.ends g pa ((hend g pa).mp hg) w).trans (exists_congr fun g' => ?_)
    rw [hend]
    exact and_congr_right fun hg' => by rw [hw g' pa hg']
  · rw [hend] at hg hg'
    rw [hw g pa hg, hw g' pa hg'] at hww
    exact h.once g g' pa hg hg' hww
  · exact h.taken g pa ((hend g pa).mp hg)
  · simp only [Known, hend]
    rfl

/-! ### Slots -/

@[simp] theorem setFd_ofile_self (s : Files) (p : ProcId) (fd : Fd) (v : Option FileId) :
    (setFd s p fd v).ofile (p, fd) = v :=
  Function.update_self ..

theorem setFd_ofile_ne (s : Files) (v : Option FileId) {i : ProcId × Fd} (h : i ≠ (p, fd)) :
    (setFd s p fd v).ofile i = s.ofile i :=
  Function.update_of_ne h ..

theorem Tracked.setFd_some (h : Tracked s e) (p : ProcId) (fd : Fd) (hfd : s.ofile (p, fd) = none) (f : FileId) :
    Tracked (setFd s p fd (some f)) (e - Pi.single f 1) :=
  ⟨h.ref.store hfd f, h.closed, h.ends, h.once, h.taken, h.nodup⟩

theorem Tracked.setFd_none (h : Tracked s e) (p : ProcId) (fd : Fd) (hfd : s.ofile (p, fd) = some f) :
    Tracked (setFd s p fd none) (e + Pi.single f 1) :=
  ⟨h.ref.clear hfd, h.closed, h.ends, h.once, h.taken, h.nodup⟩

/-! ### Files -/

/-- Nothing but the files and the pages of pipes has changed. -/
structure Keeps (s s' : Files) : Prop where
  ofile : s'.ofile = s.ofile
  state : s'.state = s.state
  within_ : Within s s'

theorem Keeps.trans (h : Keeps s s₁) (h' : Keeps s₁ s₂) : Keeps s s₂ :=
  ⟨h'.ofile.trans h.ofile, h'.state.trans h.state, h.within_.trans h'.within_⟩

theorem filealloc_eq (ha : filealloc s = some (f, s')) :
    (s.file f).ref = 0 ∧ s' = setFile s f { s.file f with ref := 1 } := by
  rw [filealloc] at ha
  split at ha
  · rename_i g hg
    cases ha
    exact ⟨by simpa using List.find?_some hg, rfl⟩
  · cases ha

theorem filealloc_spec (h : Tracked s e) (ha : filealloc s = some (f, s')) :
    Tracked s' (e + Pi.single f 1) ∧ Keeps s s' := by
  obtain ⟨hzero, rfl⟩ := filealloc_eq ha
  have hcount := h.ref.take f
  simp only [hzero, Nat.zero_add] at hcount
  obtain ⟨htracked, hwithin⟩ := h.recount (n := 1) hcount fun hn => absurd hn Nat.one_ne_zero
  exact ⟨htracked, rfl, rfl, hwithin⟩

theorem filedup_spec (h : Tracked s e) (hpos : 0 < (s.file f).ref) :
    ∃ s', filedup s f = .ok s' ∧ Tracked s' (e + Pi.single f 1) ∧ Keeps s s' := by
  obtain ⟨htracked, hwithin⟩ := h.recount (n := (s.file f).ref + 1) (h.ref.take f) fun hn =>
    absurd hn (Nat.succ_ne_zero _)
  exact ⟨_, if_neg (by omega), htracked, rfl, rfl, hwithin⟩

theorem pipeclose_isOpen (pi : Pipe) (w w' : Bool) :
    (pipeclose pi w).isOpen w' = (pi.isOpen w' && w' != w) := by
  cases w with
  | true => cases w' <;> simp [pipeclose, Pipe.isOpen]
  | false => cases w' <;> simp [pipeclose, Pipe.isOpen]

theorem closed_iff (pi : Pipe) : (!pi.readopen && !pi.writeopen) = true ↔ ∀ w, pi.isOpen w = false := by
  simp [Pipe.isOpen]

/-- The end `v` of the pipe at `q`, the file `f`, has been closed. -/
structure EndClosed (s s' : Files) (f : FileId) (q : Nat) (v : Bool) : Prop where
  file : s'.file = Function.update s.file f { s.file f with ref := 0, type := .none }
  ofile : s'.ofile = s.ofile
  state : s'.state = s.state
  page : s'.page = Function.update s.page q (pipeclose (s.page q) v)
  freelist : (∀ w, (s'.page q).isOpen w = false) ∧ s'.freelist = q :: s.freelist ∨
    (∃ w, (s'.page q).isOpen w = true) ∧ s'.freelist = s.freelist

theorem closePipe_closes (s : Files) (f : FileId) (q : Nat) (v : Bool) :
    EndClosed s (closePipe (setFile s f { s.file f with ref := 0, type := .none }) q v) f q v := by
  rw [closePipe]
  split
  · rename_i hclosed
    exact ⟨rfl, rfl, rfl, rfl, Or.inl ⟨(closed_iff _).mp hclosed, rfl⟩⟩
  · rename_i hclosed
    refine ⟨rfl, rfl, rfl, rfl, Or.inr ⟨?_, rfl⟩⟩
    rw [closed_iff] at hclosed
    push Not at hclosed
    obtain ⟨w, hw⟩ := hclosed
    exact ⟨w, by simpa using hw⟩

section EndClosed

variable {q : Nat} {v : Bool}

theorem EndClosed.file_ne (hc : EndClosed s s' f q v) (hg : g ≠ f) : s'.file g = s.file g := by
  rw [hc.file, Function.update_of_ne hg]

theorem EndClosed.endOf_iff (hc : EndClosed s s' f q v) : EndOf s' g pa ↔ EndOf s g pa ∧ g ≠ f := by
  by_cases hg : g = f
  · subst hg
    simp [EndOf, hc.file]
  · simp [EndOf, hc.file_ne hg, hg]

/-- The other end stays as it was. -/
theorem EndClosed.isOpen_iff (hc : EndClosed s s' f q v) (h : Tracked s e) (hfq : EndOf s f q)
    (hv : (s.file f).writable = v) (w : Bool) :
    (s'.page q).isOpen w = true ↔ ∃ g, EndOf s' g q ∧ (s'.file g).writable = w := by
  rw [hc.page, Function.update_self, pipeclose_isOpen, Bool.and_eq_true, h.ends f q hfq w]
  constructor
  · rintro ⟨⟨g, hg, hw⟩, hwv⟩
    have hgf : g ≠ f := by
      rintro rfl
      rw [hv] at hw
      simp [hw] at hwv
    exact ⟨g, hc.endOf_iff.mpr ⟨hg, hgf⟩, by rw [hc.file_ne hgf, hw]⟩
  · rintro ⟨g, hg, hw⟩
    obtain ⟨hg, hgf⟩ := hc.endOf_iff.mp hg
    rw [hc.file_ne hgf] at hw
    refine ⟨⟨g, hg, hw⟩, ?_⟩
    have hwv : w ≠ v := by
      rintro rfl
      exact hgf (h.once g f q hg hfq (by rw [hw, hv]))
    simpa using hwv

theorem EndClosed.taken (hc : EndClosed s s' f q v) (h : Tracked s e) (hfq : EndOf s f q)
    (hv : (s.file f).writable = v) (hg : EndOf s' g pa) : pa ∉ s'.freelist := by
  have hold := h.taken g pa (hc.endOf_iff.mp hg).1
  rcases hc.freelist with ⟨hclosed, hfree⟩ | ⟨-, hfree⟩
  · rw [hfree]
    intro hmem
    rcases List.mem_cons.mp hmem with rfl | hmem
    · have hopen := (hc.isOpen_iff h hfq hv _).mpr ⟨g, hg, rfl⟩
      rw [hclosed] at hopen
      cases hopen
    · exact hold hmem
  · rw [hfree]
    exact hold

theorem EndClosed.within (hc : EndClosed s s' f q v) (h : Tracked s e) (hfq : EndOf s f q)
    (hv : (s.file f).writable = v) : Within s s' := by
  intro pa
  by_cases hpa : pa = q
  · subst hpa
    refine iff_of_true ?_ (Or.inr ⟨f, hfq⟩)
    rcases hc.freelist with ⟨-, hfree⟩ | ⟨⟨w, hw⟩, -⟩
    · exact Or.inl (hfree ▸ List.mem_cons_self)
    · obtain ⟨g, hg, -⟩ := (hc.isOpen_iff h hfq hv w).mp hw
      exact Or.inr ⟨g, hg⟩
  · refine or_congr ?_ (exists_congr fun g => ?_)
    · rcases hc.freelist with ⟨-, hfree⟩ | ⟨-, hfree⟩
      · rw [hfree, List.mem_cons, or_iff_right hpa]
      · rw [hfree]
    · rw [hc.endOf_iff, and_iff_left_iff_imp]
      rintro hg rfl
      exact hpa (hg.2.symm.trans hfq.2)

/-- The last reference to an end of a pipe goes. -/
theorem EndClosed.tracked (hc : EndClosed s s' f q v) (h : Tracked s e) (hfq : EndOf s f q)
    (hv : (s.file f).writable = v) (hone : (s.file f).ref = 1) : Tracked s' (e - Pi.single f 1) := by
  refine ⟨?_, fun g hg => ?_, fun g pa hg w => ?_, fun g g' pa hg hg' hww => ?_,
    fun g pa hg => hc.taken h hfq hv hg, ?_⟩
  · have hcount := h.ref.drop (a := f) (by omega)
    simp only [hone] at hcount
    rw [hc.ofile, hc.file]
    exact ref_setFile s f _ ▸ hcount
  · by_cases hgf : g = f
    · rw [hgf, hc.file, Function.update_self]
    · rw [hc.file_ne hgf] at hg ⊢
      exact h.closed g hg
  · by_cases hpa : pa = q
    · rw [hpa]
      exact hc.isOpen_iff h hfq hv w
    · rw [hc.page, Function.update_of_ne hpa]
      refine (h.ends g pa (hc.endOf_iff.mp hg).1 w).trans (exists_congr fun g' => ?_)
      rw [hc.endOf_iff]
      constructor
      · rintro ⟨hg', hw⟩
        have hgf : g' ≠ f := by
          rintro rfl
          exact hpa (hg'.2.symm.trans hfq.2)
        exact ⟨⟨hg', hgf⟩, by rw [hc.file_ne hgf, hw]⟩
      · rintro ⟨⟨hg', hgf⟩, hw⟩
        rw [hc.file_ne hgf] at hw
        exact ⟨hg', hw⟩
  · obtain ⟨hg, hgf⟩ := hc.endOf_iff.mp hg
    obtain ⟨hg', hgf'⟩ := hc.endOf_iff.mp hg'
    rw [hc.file_ne hgf, hc.file_ne hgf'] at hww
    exact h.once g g' pa hg hg' hww
  · rcases hc.freelist with ⟨-, hfree⟩ | ⟨-, hfree⟩
    · rw [hfree]
      exact List.nodup_cons.mpr ⟨h.taken f q hfq, h.nodup⟩
    · rw [hfree]
      exact h.nodup

end EndClosed

theorem fileclose_spec (h : Tracked s e) (hpos : 0 < (s.file f).ref) :
    ∃ s', fileclose s f = .ok s' ∧ Tracked s' (e - Pi.single f 1) ∧ Keeps s s' := by
  have hcount := h.ref.drop hpos
  rw [fileclose, if_neg (by omega)]
  by_cases hmore : (s.file f).ref - 1 > 0
  · obtain ⟨htracked, hwithin⟩ := h.recount (n := (s.file f).ref - 1) hcount fun hn => by omega
    refine ⟨_, ?_, htracked, rfl, rfl, hwithin⟩
    simp only [setFile_file_self, if_pos hmore]
  · have hone : (s.file f).ref = 1 := by omega
    have hself : ∀ x y, setFile (setFile s f x) f y = setFile s f y := fun x y => by
      simp only [setFile, Function.update_idem]
    simp only [setFile_file_self, if_neg hmore, hself]
    by_cases hpipe : (s.file f).type = .pipe
    · have hc := closePipe_closes s f (s.file f).pipe (s.file f).writable
      have hfq : EndOf s f (s.file f).pipe := ⟨hpipe, rfl⟩
      rw [if_pos hpipe]
      exact ⟨_, rfl, hc.tracked h hfq rfl hone, hc.ofile, hc.state, hc.within h hfq rfl⟩
    · rw [if_neg hpipe]
      obtain ⟨htracked, hwithin⟩ := h.retype (x := { s.file f with type := .none }) rfl hpipe
        FileType.noConfusion fun _ => rfl
      have hzero : Counts (Function.update (fun g =>
          ((setFile s f { s.file f with type := .none }).file g).ref) f 0) s.ofile (e - Pi.single f 1) := by
        rw [ref_setFile, Function.update_idem]
        simpa [hone] using hcount
      obtain ⟨htracked, hwithin'⟩ := htracked.recount (n := 0) hzero fun _ => by rw [setFile_file_self]
      rw [setFile_file_self, hself] at htracked hwithin'
      exact ⟨_, rfl, htracked, rfl, rfl, hwithin.trans hwithin'⟩

/-! ### Pipes -/

/-- The free page `pa` has become a pipe with the ends `f0` and `f1`. -/
structure PipeMade (s s' : Files) (f0 f1 : FileId) (pa : Nat) : Prop where
  file : ∀ g, g ≠ f0 → g ≠ f1 → s'.file g = s.file g
  file0 : s'.file f0 = ⟨.pipe, (s.file f0).ref, true, false, pa⟩
  file1 : s'.file f1 = ⟨.pipe, (s.file f1).ref, false, true, pa⟩
  ofile : s'.ofile = s.ofile
  state : s'.state = s.state
  page : ∃ data, s'.page = Function.update s.page pa (newPipe data)
  freelist : s.freelist = pa :: s'.freelist

section PipeMade

variable {f0 f1 : FileId}

theorem PipeMade.endOf_iff (hm : PipeMade s s' f0 f1 pa) (h0 : (s.file f0).type = .none)
    (h1 : (s.file f1).type = .none) {q : Nat} :
    EndOf s' g q ↔ EndOf s g q ∨ ((g = f0 ∨ g = f1) ∧ q = pa) := by
  by_cases hg0 : g = f0
  · subst hg0
    simp [EndOf, hm.file0, h0, eq_comm]
  · by_cases hg1 : g = f1
    · subst hg1
      simp [EndOf, hm.file1, h1, eq_comm]
    · simp [EndOf, hm.file g hg0 hg1, hg0, hg1]

theorem PipeMade.ref (hm : PipeMade s s' f0 f1 pa) (g : FileId) : (s'.file g).ref = (s.file g).ref := by
  by_cases hg0 : g = f0
  · rw [hg0, hm.file0]
  · by_cases hg1 : g = f1
    · rw [hg1, hm.file1]
    · rw [hm.file g hg0 hg1]

theorem PipeMade.tracked (hm : PipeMade s s' f0 f1 pa) (h : Tracked s e) (hne : f0 ≠ f1)
    (h0 : (s.file f0).type = .none) (h1 : (s.file f1).type = .none)
    (hr0 : (s.file f0).ref ≠ 0) (hr1 : (s.file f1).ref ≠ 0) : Tracked s' e ∧ Within s s' := by
  have hend : ∀ g q, EndOf s' g q ↔ EndOf s g q ∨ ((g = f0 ∨ g = f1) ∧ q = pa) := fun g q =>
    hm.endOf_iff h0 h1
  have hpa : pa ∈ s.freelist := hm.freelist ▸ List.mem_cons_self
  have hold : ∀ g, ¬ EndOf s g pa := fun g hg => h.taken g pa hg hpa
  obtain ⟨hfree, hnodup⟩ := List.nodup_cons.mp (hm.freelist ▸ h.nodup)
  have hnot : ∀ g q, EndOf s g q → g ≠ f0 ∧ g ≠ f1 := by
    intro g q hg
    refine ⟨?_, ?_⟩
    · rintro rfl
      rw [EndOf, h0] at hg
      cases hg.1
    · rintro rfl
      rw [EndOf, h1] at hg
      cases hg.1
  have hfile : ∀ g q, EndOf s g q → s'.file g = s.file g := fun g q hg =>
    hm.file g (hnot g q hg).1 (hnot g q hg).2
  have hnew : ∀ g, EndOf s' g pa ↔ g = f0 ∨ g = f1 := fun g => by
    rw [hend, or_iff_right (hold g), and_iff_left rfl]
  have hkept : ∀ g q, q ≠ pa → (EndOf s' g q ↔ EndOf s g q) := fun g q hq => by
    rw [hend, or_iff_left fun hc => hq hc.2]
  refine ⟨⟨?_, fun g hg => ?_, fun g q hg w => ?_, fun g g' q hg hg' hww => ?_, fun g q hg => ?_,
    hnodup⟩, fun q => ?_⟩
  · rw [hm.ofile, show (fun g => (s'.file g).ref) = fun g => (s.file g).ref from funext hm.ref]
    exact h.ref
  · by_cases hg0 : g = f0
    · rw [hg0, hm.file0] at hg
      exact absurd hg hr0
    · by_cases hg1 : g = f1
      · rw [hg1, hm.file1] at hg
        exact absurd hg hr1
      · rw [hm.file g hg0 hg1] at hg ⊢
        exact h.closed g hg
  · obtain ⟨data, hpage⟩ := hm.page
    by_cases hq : q = pa
    · subst hq
      rw [hpage, Function.update_self]
      refine iff_of_true (by cases w <;> rfl) ?_
      cases w with
      | false => exact ⟨f0, (hnew f0).mpr (Or.inl rfl), by rw [hm.file0]⟩
      | true => exact ⟨f1, (hnew f1).mpr (Or.inr rfl), by rw [hm.file1]⟩
    · rw [hpage, Function.update_of_ne hq]
      refine (h.ends g q ((hkept g q hq).mp hg) w).trans (exists_congr fun g' => ?_)
      rw [hkept g' q hq]
      exact and_congr_right fun hg' => by rw [hfile g' q hg']
  · by_cases hq : q = pa
    · subst hq
      rcases (hnew g).mp hg with rfl | rfl
      · rcases (hnew g').mp hg' with rfl | rfl
        · rfl
        · rw [hm.file0, hm.file1] at hww
          cases hww
      · rcases (hnew g').mp hg' with rfl | rfl
        · rw [hm.file0, hm.file1] at hww
          cases hww
        · rfl
    · rw [hkept g q hq] at hg
      rw [hkept g' q hq] at hg'
      rw [hfile g q hg, hfile g' q hg'] at hww
      exact h.once g g' q hg hg' hww
  · by_cases hq : q = pa
    · rw [hq]
      exact hfree
    · exact fun hmem => h.taken g q ((hkept g q hq).mp hg) (hm.freelist ▸ List.mem_cons_of_mem pa hmem)
  · by_cases hq : q = pa
    · subst hq
      exact iff_of_true (Or.inr ⟨f0, (hnew f0).mpr (Or.inl rfl)⟩) (Or.inl hpa)
    · refine or_congr ?_ (exists_congr fun g => hkept g q hq)
      rw [hm.freelist, List.mem_cons, or_iff_right hq]

end PipeMade

/-- A reference in the call's hands is counted. -/
theorem Tracked.pos_of_owed (h : Tracked s e) (he : 0 < e f) : 0 < (s.file f).ref := by
  have hcount := h.ref f
  simp only at hcount
  omega

/-- The reference of a descriptor is counted. -/
theorem Tracked.pos_of_slot {i : ProcId × Fd} (h : Tracked s e) (hi : s.ofile i = some f) (he : 0 ≤ e f) :
    0 < (s.file f).ref := by
  have hcount := h.ref f
  have hpos := holders_pos hi
  simp only at hcount
  omega

theorem kalloc_eq (ha : kalloc s = some (pa, s')) :
    s.freelist = pa :: s'.freelist ∧ s' = { s with freelist := s'.freelist } := by
  rw [kalloc] at ha
  split at ha
  · cases ha
  · rename_i hfree
    cases ha
    exact ⟨hfree, rfl⟩

/-- What `pipealloc` makes of a page. -/
theorem pipeMade {f0 f1 : FileId} (data : Fin PIPESIZE → UInt8) (ha : kalloc s = some (pa, s')) (hne : f0 ≠ f1) :
    PipeMade s (setFile (setFile { s' with page := Function.update s'.page pa (newPipe data) } f0
      { s'.file f0 with type := .pipe, readable := true, writable := false, pipe := pa }) f1
      { (setFile { s' with page := Function.update s'.page pa (newPipe data) } f0
          { s'.file f0 with type := .pipe, readable := true, writable := false, pipe := pa }).file f1 with
        type := .pipe, readable := false, writable := true, pipe := pa }) f0 f1 pa := by
  obtain ⟨hfree, hs'⟩ := kalloc_eq ha
  have hfile : s'.file = s.file := by rw [hs']
  refine ⟨fun g hg0 hg1 => ?_, ?_, ?_, ?_, ?_, ⟨data, ?_⟩, hfree⟩
  · rw [setFile_file_ne _ _ hg1, setFile_file_ne _ _ hg0, ← hfile]
  · rw [setFile_file_ne _ _ hne, setFile_file_self, ← hfile]
  · rw [setFile_file_self, setFile_file_ne _ _ hne.symm, ← hfile]
  · rw [hs']
    rfl
  · rw [hs']
    rfl
  · rw [hs']
    rfl

/-- The call gives back the two files that it has taken. -/
theorem fileclose_both {f0 f1 : FileId} (h : Tracked s (Pi.single f0 1 + Pi.single f1 1)) :
    ∃ s₁ s₂, fileclose s f0 = .ok s₁ ∧ fileclose s₁ f1 = .ok s₂ ∧ Tracked s₂ 0 ∧ Keeps s s₂ := by
  have hpos : ∀ a b : FileId, (0 : Int) < (Pi.single a 1 + Pi.single b 1 : FileId → Int) a := by
    intro a b
    rw [Pi.add_apply, Pi.single_eq_same, Pi.single_apply]
    split
    · decide
    · decide
  obtain ⟨s₁, hc₁, h₁, hk₁⟩ := fileclose_spec h (h.pos_of_owed (hpos f0 f1))
  rw [add_sub_cancel_left] at h₁
  obtain ⟨s₂, hc₂, h₂, hk₂⟩ := fileclose_spec h₁ (h₁.pos_of_owed (by rw [Pi.single_eq_same]; decide))
  rw [sub_self] at h₂
  exact ⟨s₁, s₂, hc₁, hc₂, h₂, hk₁.trans hk₂⟩

theorem pipealloc_spec (h : Tracked s 0) : ∃ r s', pipealloc s = .ok (r, s') ∧ Keeps s s' ∧
    (r = none → Tracked s' 0) ∧
    ∀ f0 f1, r = some (f0, f1) → Tracked s' (Pi.single f0 1 + Pi.single f1 1) := by
  rw [pipealloc]
  cases ha0 : filealloc s with
  | none => exact ⟨none, s, rfl, ⟨rfl, rfl, Within.refl s⟩, fun _ => h, fun _ _ hr => (by cases hr)⟩
  | some x =>
      obtain ⟨f0, s₁⟩ := x
      obtain ⟨h₁, hk₁⟩ := filealloc_spec h ha0
      obtain ⟨hz₀, hs₁⟩ := filealloc_eq ha0
      rw [zero_add] at h₁
      dsimp only
      cases ha1 : filealloc s₁ with
      | none =>
          obtain ⟨s₂, hc, h₂, hk₂⟩ := fileclose_spec h₁ (h₁.pos_of_owed (by rw [Pi.single_eq_same]; decide))
          rw [sub_self] at h₂
          dsimp only
          rw [hc]
          exact ⟨none, s₂, rfl, hk₁.trans hk₂, fun _ => h₂, fun _ _ hr => (by cases hr)⟩
      | some y =>
          obtain ⟨f1, s₂⟩ := y
          obtain ⟨h₂, hk₂⟩ := filealloc_spec h₁ ha1
          obtain ⟨hz₁, hs₂⟩ := filealloc_eq ha1
          dsimp only
          cases ha : kalloc s₂ with
          | none =>
              obtain ⟨s₃, s₄, hc₃, hc₄, h₄, hk₄⟩ := fileclose_both h₂
              dsimp only
              rw [hc₃, ok_bind, hc₄]
              exact ⟨none, s₄, rfl, (hk₁.trans hk₂).trans hk₄, fun _ => h₄, fun _ _ hr => (by cases hr)⟩
          | some z =>
              obtain ⟨pi, s₃⟩ := z
              obtain ⟨hfree, hs₃⟩ := kalloc_eq ha
              have hne : f0 ≠ f1 := by
                rintro rfl
                rw [hs₁, setFile_file_self] at hz₁
                cases hz₁
              have hf0 : s₂.file f0 = { s.file f0 with ref := 1 } := by
                rw [hs₂, setFile_file_ne _ _ hne, hs₁, setFile_file_self]
              have hf1 : s₂.file f1 = { s₁.file f1 with ref := 1 } := by
                rw [hs₂, setFile_file_self]
              have hmade := pipeMade (s₃.page pi).data ha hne
              obtain ⟨htracked, hwithin⟩ := hmade.tracked h₂ hne
                (by rw [hf0]; exact h.closed f0 hz₀) (by rw [hf1]; exact h₁.closed f1 hz₁)
                (by rw [hf0]; exact Nat.one_ne_zero) (by rw [hf1]; exact Nat.one_ne_zero)
              refine ⟨some (f0, f1), _, rfl, (hk₁.trans hk₂).trans ⟨hmade.ofile, hmade.state, hwithin⟩,
                fun hr => (by cases hr), fun g0 g1 hr => ?_⟩
              cases hr
              exact htracked

/-! ### Calls -/

/-- The invariant, between calls. -/
structure Settled (s : Files) : Prop where
  tracked : Tracked s 0
  gone : ∀ p fd, s.state p ≠ .running → s.ofile (p, fd) = none

/-- A call returns, keeps the invariant, and loses no page. -/
def Returns (s : Files) (m : Except String (Ret × Files)) : Prop :=
  ∃ r s', m = .ok (r, s') ∧ Settled s' ∧ Within s s'

theorem Settled.fails (h : Settled s) : Returns s (.ok (.minusOne, s)) :=
  ⟨.minusOne, s, rfl, h, Within.refl s⟩

theorem Keeps.gone (hk : Keeps s s') (h : ∀ p fd, s.state p ≠ .running → s.ofile (p, fd) = none) :
    ∀ p fd, s'.state p ≠ .running → s'.ofile (p, fd) = none := by
  intro p fd hp
  rw [hk.ofile]
  exact h p fd (hk.state ▸ hp)

theorem gone_setFd (fd : Fd) (v : Option FileId)
    (h : ∀ p fd, s.state p ≠ .running → s.ofile (p, fd) = none) (hp : s.state p = .running) :
    ∀ q i, (setFd s p fd v).state q ≠ .running → (setFd s p fd v).ofile (q, i) = none := by
  intro q i hq
  have hne : (q, i) ≠ (p, fd) := by
    rintro ⟨⟩
    exact hq hp
  rw [setFd_ofile_ne _ _ hne]
  exact h q i hq

theorem argfd_eq {n : Int} (ha : argfd s p n = some (fd, f)) : s.ofile (p, fd) = some f := by
  rw [argfd] at ha
  split at ha
  · obtain ⟨g, hg, he⟩ := Option.map_eq_some_iff.mp ha
    cases he
    exact hg
  · cases ha

theorem fdalloc_eq (ha : fdalloc s p f = some (fd, s')) :
    s.ofile (p, fd) = none ∧ s' = setFd s p fd (some f) := by
  rw [fdalloc] at ha
  split at ha
  · rename_i i hi
    cases ha
    exact ⟨by simpa using List.find?_some hi, rfl⟩
  · cases ha

theorem sysDup_spec (h : Settled s) (hp : s.state p = .running) (n : Int) : Returns s (sysDup s p n) := by
  rw [sysDup]
  split
  · exact h.fails
  · rename_i i f ha
    have hslot := argfd_eq ha
    split
    · exact h.fails
    · rename_i fd s₁ hfd
      obtain ⟨hnone, rfl⟩ := fdalloc_eq hfd
      have h₁ := h.tracked.setFd_some p fd hnone f
      obtain ⟨s₂, hd, h₂, hk⟩ := filedup_spec h₁ (h.tracked.pos_of_slot hslot le_rfl)
      rw [zero_sub, neg_add_cancel] at h₂
      exact ⟨.fd fd, s₂, by rw [hd]; rfl, ⟨h₂, hk.gone (gone_setFd _ _ h.gone hp)⟩, hk.within_⟩

theorem sysClose_spec (h : Settled s) (hp : s.state p = .running) (n : Int) :
    Returns s (sysClose s p n) := by
  rw [sysClose]
  split
  · exact h.fails
  · rename_i fd f ha
    have h₁ := h.tracked.setFd_none p fd (argfd_eq ha)
    rw [zero_add] at h₁
    obtain ⟨s₂, hc, h₂, hk⟩ := fileclose_spec h₁ (h₁.pos_of_owed (by rw [Pi.single_eq_same]; decide))
    rw [sub_self] at h₂
    exact ⟨.zero, s₂, by rw [hc]; rfl, ⟨h₂, hk.gone (gone_setFd _ _ h.gone hp)⟩, hk.within_⟩

theorem sysOpen_spec (h : Settled s) (hp : s.state p = .running) (omode : BitVec 32) (ip : Option Inode) :
    Returns s (sysOpen s p omode ip) := by
  cases ip with
  | none => exact h.fails
  | some ip =>
      rw [sysOpen]
      split
      · exact h.fails
      · split
        · exact h.fails
        · split
          · exact h.fails
          · rename_i f s₁ ha
            obtain ⟨h₁, hk₁⟩ := filealloc_spec h.tracked ha
            obtain ⟨hzero, hs₁⟩ := filealloc_eq ha
            rw [zero_add] at h₁
            split
            · obtain ⟨s₂, hc, h₂, hk₂⟩ := fileclose_spec h₁
                (h₁.pos_of_owed (by rw [Pi.single_eq_same]; decide))
              rw [sub_self] at h₂
              exact ⟨.minusOne, s₂, by rw [hc]; rfl, ⟨h₂, (hk₁.trans hk₂).gone h.gone⟩,
                (hk₁.trans hk₂).within_⟩
            · rename_i fd s₂ hfd
              obtain ⟨hnone, rfl⟩ := fdalloc_eq hfd
              have h₂ := h₁.setFd_some p fd hnone f
              rw [sub_self] at h₂
              have hfile : (setFd s₁ p fd (some f)).file f = { s.file f with ref := 1 } := by
                rw [setFd, hs₁, setFile_file_self]
              have htype : (s.file f).type = .none := h.tracked.closed f hzero
              obtain ⟨h₃, hwithin⟩ := h₂.retype (f := f) (x := { (setFd s₁ p fd (some f)).file f with
                  type := if ip.type = .device then .device else .inode
                  readable := omode &&& O_WRONLY == 0
                  writable := omode &&& O_WRONLY != 0 || omode &&& O_RDWR != 0 }) rfl
                (by rw [hfile, htype]; exact FileType.noConfusion)
                (by dsimp only; split <;> exact FileType.noConfusion)
                (by rw [hfile]; exact fun hn => absurd hn Nat.one_ne_zero)
              have hgone := gone_setFd fd (some f)
                (hk₁.gone h.gone) (hk₁.state ▸ hp)
              exact ⟨.fd fd, _, rfl, ⟨h₃, hgone⟩, hk₁.within_.trans hwithin⟩

/-- The end of a `pipe` call that fails. -/
theorem returns_of_closeBoth {f0 f1 : FileId} (ht : Tracked s₁ (Pi.single f0 1 + Pi.single f1 1))
    (hgone : ∀ p fd, s₁.state p ≠ .running → s₁.ofile (p, fd) = none) (hw : Within s s₁) :
    Returns s (do
      let s ← fileclose s₁ f0
      let s ← fileclose s f1
      return (.minusOne, s)) := by
  obtain ⟨s₂, s₃, hc₂, hc₃, h₃, hk⟩ := fileclose_both ht
  rw [hc₂, ok_bind, hc₃]
  exact ⟨.minusOne, s₃, rfl, ⟨h₃, hk.gone hgone⟩, hw.trans hk.within_⟩

theorem sysPipe_spec (h : Settled s) (hp : s.state p = .running) (copied : Bool) :
    Returns s (sysPipe s p copied) := by
  obtain ⟨files, s₁, halloc, hk, hnone, hsome⟩ := pipealloc_spec h.tracked
  have hgone₁ := hk.gone h.gone
  have hp₁ : s₁.state p = .running := by rw [hk.state, hp]
  rw [sysPipe, halloc, ok_bind]
  cases files with
  | none => exact ⟨.minusOne, s₁, rfl, ⟨hnone rfl, hgone₁⟩, hk.within_⟩
  | some fs =>
      obtain ⟨rf, wf⟩ := fs
      have h₁ := hsome rf wf rfl
      dsimp only
      split
      · exact returns_of_closeBoth h₁ hgone₁ hk.within_
      · rename_i fd0 s₂ hfd0
        obtain ⟨hnone0, rfl⟩ := fdalloc_eq hfd0
        have h₂ := h₁.setFd_some p fd0 hnone0 rf
        have hgone₂ := gone_setFd fd0 (some rf) hgone₁ hp₁
        split
        · have h₃ := h₂.setFd_none p fd0 (setFd_ofile_self ..)
          rw [sub_add_cancel] at h₃
          exact returns_of_closeBoth h₃ (gone_setFd _ _ hgone₂ hp₁) hk.within_
        · rename_i fd1 s₃ hfd1
          obtain ⟨hnone1, rfl⟩ := fdalloc_eq hfd1
          have h₃ := h₂.setFd_some p fd1 hnone1 wf
          have hgone₃ := gone_setFd fd1 (some wf) hgone₂ hp₁
          split
          · rw [add_sub_cancel_left, sub_self] at h₃
            exact ⟨.zero, _, rfl, ⟨h₃, hgone₃⟩, hk.within_⟩
          · have hne : (p, fd0) ≠ (p, fd1) := by
              rintro ⟨⟩
              rw [setFd_ofile_self] at hnone1
              cases hnone1
            have h₄ := h₃.setFd_none p fd0 (f := rf)
              (by rw [setFd_ofile_ne _ _ hne, setFd_ofile_self])
            have h₅ := h₄.setFd_none p fd1 (f := wf)
              (by rw [setFd_ofile_ne _ _ hne.symm, setFd_ofile_self])
            rw [add_sub_cancel_left, sub_self, zero_add] at h₅
            exact returns_of_closeBoth h₅ (gone_setFd _ _ (gone_setFd _ _ hgone₃ hp₁) hp₁) hk.within_

theorem closeFd_spec (h : Tracked s 0) (p : ProcId) (fd : Fd) :
    ∃ s', closeFd p s fd = .ok s' ∧ Tracked s' 0 ∧ s'.state = s.state ∧ Within s s' ∧
      s'.ofile = Function.update s.ofile (p, fd) none := by
  rw [closeFd]
  split
  · rename_i hnone
    refine ⟨s, rfl, h, rfl, Within.refl s, ?_⟩
    rw [← hnone, Function.update_eq_self]
  · rename_i f hf
    obtain ⟨s₁, hc, h₁, hk⟩ := fileclose_spec h (h.pos_of_slot hf le_rfl)
    have h₂ := h₁.setFd_none p fd (f := f) (by rw [hk.ofile, hf])
    rw [sub_add_cancel] at h₂
    refine ⟨_, by rw [hc]; rfl, h₂, hk.state, hk.within_, ?_⟩
    rw [setFd, hk.ofile]

/-- The loop of `kexit`. -/
theorem closeFds_spec (p : ProcId) : ∀ (l : List Fd) (s : Files), Tracked s 0 →
    ∃ s', l.foldlM (closeFd p) s = .ok s' ∧ Tracked s' 0 ∧ s'.state = s.state ∧ Within s s' ∧
      (∀ q ≠ p, ∀ i, s'.ofile (q, i) = s.ofile (q, i)) ∧
      ∀ i, i ∈ l ∨ s.ofile (p, i) = none → s'.ofile (p, i) = none := by
  intro l
  induction l with
  | nil =>
      intro s h
      exact ⟨s, rfl, h, rfl, Within.refl s, fun _ _ _ => rfl, fun i hi => hi.resolve_left List.not_mem_nil⟩
  | cons fd l ih =>
      intro s h
      obtain ⟨s₁, hc₁, h₁, hst₁, hw₁, ho₁⟩ := closeFd_spec h p fd
      obtain ⟨s₂, hc₂, h₂, hst₂, hw₂, hother, hnone⟩ := ih s₁ h₁
      refine ⟨s₂, ?_, h₂, hst₂.trans hst₁, hw₁.trans hw₂, fun q hq i => ?_, fun i hi => hnone i ?_⟩
      · rw [List.foldlM_cons, hc₁]
        exact hc₂
      · have hne : (q, i) ≠ (p, fd) := by
          rintro ⟨⟩
          exact hq rfl
        rw [hother q hq, ho₁, Function.update_of_ne hne]
      · rw [ho₁]
        by_cases hifd : i = fd
        · rw [hifd, Function.update_self]
          exact Or.inr rfl
        · have hne : (p, i) ≠ (p, fd) := by
            rintro ⟨⟩
            exact hifd rfl
          rw [Function.update_of_ne hne]
          exact hi.imp_left fun hmem => (List.mem_cons.mp hmem).resolve_left hifd

theorem kexit_spec (h : Settled s) (hp : p ≠ initproc) : Returns s (kexit s p) := by
  obtain ⟨s₁, hc, h₁, hst, hw, hother, hnone⟩ := closeFds_spec p (List.finRange NOFILE) s h.tracked
  rw [kexit, if_neg hp, hc]
  refine ⟨.zero, _, rfl, ⟨⟨h₁.ref, h₁.closed, h₁.ends, h₁.once, h₁.taken, h₁.nodup⟩, fun q i hq => ?_⟩, hw⟩
  by_cases hqp : q = p
  · rw [hqp]
    exact hnone i (Or.inl (List.mem_finRange i))
  · dsimp only at hq
    rw [Function.update_of_ne hqp, hst] at hq
    exact (hother q hqp i).trans (h.gone q i hq)

theorem dupFd_spec {i : Fd} (h : Tracked s 0) (hnone : s.ofile (np, i) = none) :
    ∃ s', dupFd p np s i = .ok s' ∧ Tracked s' 0 ∧ s'.state = s.state ∧ Within s s' ∧
      s'.ofile = Function.update s.ofile (np, i) (s.ofile (p, i)) := by
  rw [dupFd]
  split
  · rename_i hp
    refine ⟨s, rfl, h, rfl, Within.refl s, ?_⟩
    rw [hp, ← hnone, Function.update_eq_self]
  · rename_i f hf
    obtain ⟨s₁, hd, h₁, hk⟩ := filedup_spec h (h.pos_of_slot hf le_rfl)
    have h₂ := h₁.setFd_some np i (by rw [hk.ofile, hnone]) f
    rw [add_sub_cancel_right] at h₂
    refine ⟨_, by rw [hd]; rfl, h₂, hk.state, hk.within_, ?_⟩
    rw [setFd, hk.ofile, hf]

/-- The loop of `kfork`. -/
theorem dupFds_spec (p np : ProcId) : ∀ (l : List Fd) (s : Files), l.Nodup → Tracked s 0 →
    (∀ i ∈ l, s.ofile (np, i) = none) →
    ∃ s', l.foldlM (dupFd p np) s = .ok s' ∧ Tracked s' 0 ∧ s'.state = s.state ∧ Within s s' ∧
      ∀ q ≠ np, ∀ i, s'.ofile (q, i) = s.ofile (q, i) := by
  intro l
  induction l with
  | nil =>
      intro s _ h _
      exact ⟨s, rfl, h, rfl, Within.refl s, fun _ _ _ => rfl⟩
  | cons i l ih =>
      intro s hnd h hnone
      obtain ⟨hi, hnd⟩ := List.nodup_cons.mp hnd
      obtain ⟨s₁, hd₁, h₁, hst₁, hw₁, ho₁⟩ := dupFd_spec (p := p) h (hnone i List.mem_cons_self)
      have hnone₁ : ∀ j ∈ l, s₁.ofile (np, j) = none := by
        intro j hj
        have hne : (np, j) ≠ (np, i) := by
          rintro ⟨⟩
          exact hi hj
        rw [ho₁, Function.update_of_ne hne]
        exact hnone j (List.mem_cons_of_mem i hj)
      obtain ⟨s₂, hd₂, h₂, hst₂, hw₂, hother⟩ := ih s₁ hnd h₁ hnone₁
      refine ⟨s₂, ?_, h₂, hst₂.trans hst₁, hw₁.trans hw₂, fun q hq j => ?_⟩
      · rw [List.foldlM_cons, hd₁]
        exact hd₂
      · have hne : (q, j) ≠ (np, i) := by
          rintro ⟨⟩
          exact hq rfl
        rw [hother q hq, ho₁, Function.update_of_ne hne]

theorem kfork_spec (h : Settled s) (memory : Bool) : Returns s (kfork s p memory) := by
  rw [kfork]
  split
  · exact h.fails
  · rename_i np hnp
    have hunused : s.state np = .unused := by simpa using List.find?_some hnp
    have hnone : ∀ i ∈ List.finRange NOFILE, s.ofile (np, i) = none := fun i _ =>
      h.gone np i (by rw [hunused]; exact ProcState.noConfusion)
    obtain ⟨s₁, hd, h₁, hst, hw, hother⟩ := dupFds_spec p np (List.finRange NOFILE) s
      (List.nodup_finRange NOFILE) h.tracked hnone
    split
    · rw [hd]
      refine ⟨.child np, _, rfl, ⟨⟨h₁.ref, h₁.closed, h₁.ends, h₁.once, h₁.taken, h₁.nodup⟩,
        fun q i hq => ?_⟩, hw⟩
      dsimp only at hq
      have hne : q ≠ np := by
        rintro rfl
        rw [Function.update_self] at hq
        exact hq rfl
      rw [Function.update_of_ne hne, hst] at hq
      exact (hother q hne i).trans (h.gone q i hq)
    · exact h.fails

/-! ### Runs -/

/-- A pipe's page is known by an end, and an end by a descriptor. -/
theorem Settled.hasPipe_iff (h : Settled s) : HasPipe s pa ↔ ∃ f, EndOf s f pa := by
  constructor
  · rintro ⟨p, fd, f, -, hf⟩
    exact ⟨f, hf⟩
  · rintro ⟨f, hf⟩
    have hcount := h.tracked.ref f
    have hpos : 0 < holders s.ofile f := by
      by_contra hzero
      have hclosed := h.tracked.closed f
      simp only [Pi.zero_apply] at hcount
      rw [hf.1] at hclosed
      have hne : (s.file f).ref ≠ 0 := fun hn => FileType.noConfusion (hclosed hn)
      omega
    obtain ⟨⟨p, fd⟩, hslot⟩ := exists_of_holders hpos
    exact ⟨p, fd, f, hslot, hf⟩

theorem settled_boot (page : Nat → Pipe) {freelist : List Nat} (hfree : freelist.Nodup) :
    Settled (bootFiles page freelist) := by
  have hno : ∀ f pa, ¬ EndOf (bootFiles page freelist) f pa := fun f pa hf => FileType.noConfusion hf.1
  refine ⟨⟨fun f => ?_, fun f _ => rfl, fun f pa hf => (hno f pa hf).elim,
    fun f g pa hf => (hno f pa hf).elim, fun f pa hf => (hno f pa hf).elim, hfree⟩, fun p fd _ => rfl⟩
  simp [bootFiles, holders]

theorem fileStep_settled {a : FileAct} (h : Settled s) (ha : CallOk a s) :
    ∃ r s', fileStep a s = .ok (r, s') ∧ Settled s' ∧ ((∀ l, a ≠ .memory l) → Within s s') := by
  have hcall : ∀ {m : Except String (Ret × Files)}, Returns s m →
      ∃ r s', m = .ok (r, s') ∧ Settled s' ∧ ((∀ l, a ≠ .memory l) → Within s s') := by
    rintro m ⟨r, s', hm, hs', hw⟩
    exact ⟨r, s', hm, hs', fun _ => hw⟩
  cases a with
  | sysOpen p omode ip => exact hcall (sysOpen_spec h ha omode ip)
  | sysPipe p copied => exact hcall (sysPipe_spec h ha copied)
  | sysDup p fd => exact hcall (sysDup_spec h ha fd)
  | sysClose p fd => exact hcall (sysClose_spec h ha fd)
  | kfork p memory => exact hcall (kfork_spec h memory)
  | kexit p => exact hcall (kexit_spec h ha.2)
  | freeproc p =>
      have ht := h.tracked
      refine ⟨.zero, _, rfl, ⟨⟨ht.ref, ht.closed, ht.ends, ht.once, ht.taken, ht.nodup⟩,
        fun q i hq => h.gone q i ?_⟩, fun _ => Within.refl s⟩
      dsimp only at hq
      by_cases hqp : q = p
      · rw [hqp, show s.state p = .zombie from ha]
        exact ProcState.noConfusion
      · rwa [Function.update_of_ne hqp] at hq
  | memory l =>
      have ht := h.tracked
      obtain ⟨hnodup, hfree⟩ := ha
      exact ⟨.zero, _, rfl, ⟨⟨ht.ref, ht.closed, ht.ends, ht.once,
        fun f pa hf hmem => hfree pa hmem (h.hasPipe_iff.mpr ⟨f, hf⟩), hnodup⟩, h.gone⟩,
        fun hno => absurd rfl (hno l)⟩

/-- **The reference counts are exact.**  Let any processes open, duplicate and close files, make pipes,
fork and exit, with any of these calls failing at any of its allocations.  No call panics.  In every
state that is reached, the count of each open file is the number of the descriptors that point to it;
and when the next call leaves no descriptor to either end of a pipe, and only then, the pipe's page is
back on the free list, once. -/
theorem refs_exact {acts : List FileAct} {page : Nat → Pipe} {freelist : List Nat}
    (hfree : freelist.Nodup) (hm : Meets fileStep CallOk acts (bootFiles page freelist)) :
    ∃ rs s, run fileStep acts (bootFiles page freelist) = .ok (rs, s) ∧
      (∀ f, (s.file f).ref = holders s.ofile f) ∧
      (∀ p fd f, s.ofile (p, fd) = some f → (s.file f).ref ≠ 0) ∧
      (∀ pa, HasPipe s pa → s.freelist.count pa = 0) ∧
      ∀ a, CallOk a s → ∃ r s', fileStep a s = .ok (r, s') ∧ ((∀ l, a ≠ .memory l) →
        ∀ pa, s.freelist.count pa = 1 ∨ HasPipe s pa →
          (HasPipe s' pa ∧ s'.freelist.count pa = 0 ∨ ¬ HasPipe s' pa ∧ s'.freelist.count pa = 1)) := by
  have hstep : ∀ a s (u : Unit), CallOk a s → Settled s →
      ∃ r s', ∃ u' : Unit, fileStep a s = .ok (r, s') ∧ True ∧ Settled s' := by
    intro a s u ha h
    obtain ⟨r, s', hs, h', -⟩ := fileStep_settled h ha
    exact ⟨r, s', u, hs, trivial, h'⟩
  obtain ⟨rs, s, -, hrun, -, h⟩ := run_simulates (R := fun s _ => Settled s) (A := fun _ _ _ _ => True)
    hstep acts _ () hm (settled_boot page hfree)
  have hcount : ∀ f, (s.file f).ref = holders s.ofile f := by
    intro f
    have hf := h.tracked.ref f
    rw [Pi.zero_apply, add_zero] at hf
    exact Int.ofNat.inj hf
  have hfreed : ∀ {s : Files}, Settled s → ∀ pa, HasPipe s pa → s.freelist.count pa = 0 := by
    intro s h pa hpa
    obtain ⟨f, hf⟩ := h.hasPipe_iff.mp hpa
    exact List.count_eq_zero.mpr (h.tracked.taken f pa hf)
  refine ⟨rs, s, hrun, hcount, fun p fd f hslot => ?_, hfreed h, fun a ha => ?_⟩
  · rw [hcount]
    exact (holders_pos hslot).ne'
  · obtain ⟨r, s', hs, h', hw⟩ := fileStep_settled h ha
    refine ⟨r, s', hs, fun hno pa hpa => ?_⟩
    have hknown : Known s pa := hpa.imp
      (fun hone => List.count_pos_iff.mp (by omega)) fun hpipe => h.hasPipe_iff.mp hpipe
    by_cases hpipe : HasPipe s' pa
    · exact Or.inl ⟨hpipe, hfreed h' pa hpipe⟩
    · refine Or.inr ⟨hpipe, List.count_eq_one_of_mem h'.tracked.nodup ?_⟩
      exact ((hw hno pa).mpr hknown).resolve_right fun hend => hpipe (h'.hasPipe_iff.mpr hend)

def zeroPages : Nat → Pipe := fun _ => newPipe fun _ => 0

/-- A pipe to a child: each side closes the end that it does not use, and the child exits first. -/
def pipeToChild : List FileAct :=
  [.sysPipe initproc true, .kfork initproc true, .sysClose ⟨1, by decide⟩ 0, .sysClose initproc 1,
    .kexit ⟨1, by decide⟩, .sysClose initproc 0]

theorem refs_exact_pipeToChild : [7].Nodup ∧
    Meets fileStep CallOk pipeToChild (bootFiles zeroPages [7]) ∧
    ∃ rs s, run fileStep pipeToChild (bootFiles zeroPages [7]) = .ok (rs, s) ∧
      (∀ f, (s.file f).ref = holders s.ofile f) ∧ ∀ pa, HasPipe s pa → s.freelist.count pa = 0 := by
  have hm : Meets fileStep CallOk pipeToChild (bootFiles zeroPages [7]) := by decide +kernel
  obtain ⟨rs, s, hrun, hcount, -, hpipe, -⟩ := refs_exact (by decide) hm
  exact ⟨by decide, hm, rs, s, hrun, hcount, hpipe⟩

end Xv6.File
