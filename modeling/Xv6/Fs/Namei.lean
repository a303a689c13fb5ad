import Xv6.Fs.DirOps
import Xv6.Fs.Path
import Xv6.Fs.Frame

/-!
# Fs — Namei

`namex` on the disk and the inode table, with the references that it takes and gives back.

* `Walkable`: paths can be followed.
* `TableWith`: the inode table, and the references that a call holds besides.
* `namexLoop_walks`: the loop answers as `namex` does on the `Tree` of the disk.
* `lookups_follow_tree`: so do the calls of any number of processes, one after the other, and the table
  has the references that they hold.
-/

namespace Xv6.Fs
open Xv6.Lib

def idup (s : State) (i : Fin NINODE) : State :=
  setInode s i { s.itable i with ref := (s.itable i).ref + 1 }

/-- The loop of `namex`, with a bound on the turns.  `iunlock` changes nothing here. -/
def State.namexLoop (sb : Super) (parent : Bool) : Nat → Fin NINODE → List Byte → List Byte → State →
    Except String ((Option (Fin NINODE) × List Byte) × State)
  | 0, _, _, _, _ => .error "namex: no turn left"
  | turns + 1, ip, path, name, s =>
    match skipelem path name with
    | none =>
      if parent then do
        let s ← iput sb s ip
        return ((none, name), s)
      else .ok ((some ip, name), s)
    | some (path, name) => do
      let s ← ilock sb s ip
      if (s.itable ip).d.type ≠ T_DIR then
        let s ← iput sb s ip
        return ((none, name), s)
      else if parent = true ∧ deref path = 0 then return ((some ip, name), s)
      else
        let (next, s) ← dirlookup sb s ip name
        let s ← iput sb s ip
        match next with
        | none => return ((none, name), s)
        | some (next, _) => State.namexLoop sb parent turns next path name s

def State.namex (sb : Super) (s : State) (cwd : Fin NINODE) (path : List Byte) (parent : Bool)
    (name : List Byte) : Except String ((Option (Fin NINODE) × List Byte) × State) := do
  let (ip, s) ← if deref path = slash then iget s ROOTINO else pure (cwd, idup s cwd)
  s.namexLoop sb parent (path.length + 1) ip path name

/-- `name` is the buffer on the stack. -/
def State.namei (sb : Super) (s : State) (cwd : Fin NINODE) (path name : List Byte) :
    Except String (Option (Fin NINODE) × State) := do
  let ((ip, _), s) ← s.namex sb cwd path false name
  return (ip, s)

def State.nameiparent (sb : Super) (s : State) (cwd : Fin NINODE) (path name : List Byte) :
    Except String ((Option (Fin NINODE) × List Byte) × State) := s.namex sb cwd path true name

variable {sb : Super} {disk : Disk} {s s₀ s' : State} {i j ip : Fin NINODE} {inum : Nat}
  {l : List (Fin NINODE)}

/-! ### What the disk holds -/

/-- The files and directories that are on the disk, as path names see them. -/
def diskTree (sb : Super) (disk : Disk) : Tree where
  isDir i := decide ((dinodes sb disk i).type = T_DIR)
  entries := dirents (dinodes sb disk) disk

/-- An inode in use that has a link. -/
structure Linked (sb : Super) (disk : Disk) (inum : Nat) : Prop where
  type : (dinodes sb disk inum).type ≠ 0
  nlink : (dinodes sb disk inum).nlink ≠ 0

theorem lt_ninodes (h : (dinodes sb disk inum).type ≠ 0) : inum < sb.ninodes := by
  by_contra hn
  exact h (by rw [dinodes, if_neg hn]; rfl)

/-- A consistent state in which the directories have whole entries. -/
structure Tidy (sb : Super) (s : State) : Prop where
  consistent : Consistent sb s
  whole : ∀ {i}, (dinodes sb s.disk i).type = T_DIR → Whole (dinodes sb s.disk) s.disk i
  aligned : ∀ {i}, (dinodes sb s.disk i).type = T_DIR → DIRENT ∣ (dinodes sb s.disk i).size.toNat

theorem Tidy.of_disk (h : Tidy sb s) (hdisk : s'.disk = s.disk) (hcons : Consistent sb s') : Tidy sb s' := by
  refine ⟨hcons, ?_, ?_⟩
  · rw [hdisk]
    exact h.whole
  · rw [hdisk]
    exact h.aligned

/-- **Paths can be followed**: from a directory that has a link, names lead to inodes that have one. -/
structure Walkable (sb : Super) (s : State) : Prop where
  tidy : Tidy sb s
  target : ∀ {i n j}, Linked sb s.disk i → (dinodes sb s.disk i).type = T_DIR →
    (diskTree sb s.disk).find i n = some j → Linked sb s.disk j

theorem Walkable.of_disk (h : Walkable sb s) (hdisk : s'.disk = s.disk) (hcons : Consistent sb s') :
    Walkable sb s' := by
  refine ⟨h.tidy.of_disk hdisk hcons, ?_⟩
  rw [hdisk]
  exact h.target

/-- A directory that is locked. -/
theorem Tidy.dirOk (h : Tidy sb s) (hi : Held s i) (htype : (dinodes sb s.disk (s.itable i).inum).type = T_DIR) :
    DirOk sb s i := by
  have hd := (dinode_of_held h.consistent hi).1
  refine ⟨h.consistent.layout, h.consistent.owned, hi, h.consistent.table.inums i hi.1, hd, ?_,
    h.whole htype, ?_⟩
  · rw [← hd]
    exact htype
  · rw [← hd]
    exact h.aligned htype

/-- What `dirlookup` finds. -/
theorem lookup_tree (sb : Super) (s : State) (i : Fin NINODE) :
    lookup sb s i = (diskTree sb s.disk).find (s.itable i).inum := rfl

/-! ### References -/

@[simp] theorem itable_setInode (s : State) (i : Fin NINODE) (x : Inode) : (setInode s i x).itable i = x :=
  Function.update_self ..

theorem itable_setInode_ne (h : j ≠ i) (s : State) (x : Inode) : (setInode s i x).itable j = s.itable j :=
  Function.update_of_ne h ..

/-- A change of an entry that keeps its inode. -/
theorem inum_setInode {x : Inode} (h : x.inum = (s.itable i).inum) (j : Fin NINODE) :
    ((setInode s i x).itable j).inum = (s.itable j).inum := by
  by_cases hj : j = i
  · rw [hj, itable_setInode, h]
  · rw [itable_setInode_ne hj]

/-- The inode table, after a call that holds the references `l` besides those of `s`. -/
structure TableWith (s s' : State) (l : List (Fin NINODE)) : Prop where
  ref : ∀ i, (s'.itable i).ref = (s.itable i).ref + l.count i
  inum : ∀ i, 0 < (s.itable i).ref → (s'.itable i).inum = (s.itable i).inum
  valid : ∀ i, 0 < (s.itable i).ref → (s.itable i).valid = true → (s'.itable i).valid = true

theorem TableWith.refl (s : State) : TableWith s s [] :=
  ⟨fun _ => by rw [List.count_nil, Nat.add_zero], fun _ _ => rfl, fun _ _ hv => hv⟩

/-- The references that are held. -/
theorem TableWith.pos (h : TableWith s s' l) (hi : i ∈ l) : 0 < (s'.itable i).ref := by
  rw [h.ref]
  exact Nat.add_pos_right _ (List.count_pos_iff.mpr hi)

theorem TableWith.trans {s₁ : State} {l' : List (Fin NINODE)} (h : TableWith s s₁ l)
    (h' : TableWith s₁ s' l') : TableWith s s' (l' ++ l) := by
  have hpos : ∀ i, 0 < (s.itable i).ref → 0 < (s₁.itable i).ref := fun i hi => by
    rw [h.ref]
    exact Nat.add_pos_left hi _
  refine ⟨fun i => ?_, fun i hi => (h'.inum i (hpos i hi)).trans (h.inum i hi), fun i hi hv =>
    h'.valid i (hpos i hi) (h.valid i hi hv)⟩
  rw [h'.ref, h.ref, List.count_append, Nat.add_assoc, Nat.add_comm (l.count i)]

theorem TableWith.held (h : TableWith s s' l) (hi : Held s i) : Held s' i := by
  refine ⟨?_, h.valid i hi.1 hi.2⟩
  rw [h.ref]
  exact Nat.add_pos_left hi.1 _

/-- Another disk. -/
theorem TableWith.of_disk (h : TableWith s s' l) (disk : Disk) : TableWith s { s' with disk := disk } l :=
  ⟨h.ref, h.inum, h.valid⟩

/-- One entry changes. -/
theorem TableWith.set {x : Inode} {l' : List (Fin NINODE)} (h : TableWith s s' l) (disk : Disk)
    (hother : ∀ j, j ≠ i → l'.count j = l.count j)
    (href : x.ref = (s.itable i).ref + l'.count i)
    (hsame : 0 < (s.itable i).ref → x.inum = (s'.itable i).inum ∧
      ((s'.itable i).valid = true → x.valid = true)) :
    TableWith s (setInode { s' with disk := disk } i x) l' := by
  have hself : (setInode { s' with disk := disk } i x).itable i = x := itable_setInode ..
  have hne : ∀ j, j ≠ i → (setInode { s' with disk := disk } i x).itable j = s'.itable j := fun j hj =>
    itable_setInode_ne hj ..
  refine ⟨fun j => ?_, fun j hj => ?_, fun j hj hv => ?_⟩
  · by_cases hji : j = i
    · rw [hji, hself, href]
    · rw [hne j hji, hother j hji, h.ref]
  · by_cases hji : j = i
    · subst hji
      rw [hself, (hsame hj).1, h.inum _ hj]
    · rw [hne j hji, h.inum _ hj]
  · by_cases hji : j = i
    · subst hji
      rw [hself]
      exact (hsame hj).2 (h.valid _ hj hv)
    · rw [hne j hji]
      exact h.valid _ hj hv

theorem count_cons_ne {a b : Fin NINODE} (h : b ≠ a) (l : List (Fin NINODE)) :
    (a :: l).count b = l.count b := List.count_cons_of_ne h.symm ..

/-- The disk and the inode in an entry change, and no reference. -/
theorem TableWith.setData (h : TableWith s s' l) (disk : Disk) (d : Dinode) (i : Fin NINODE) :
    TableWith s (setInode { s' with disk := disk } i { s'.itable i with d := d }) l :=
  h.set disk (fun _ _ => rfl) (h.ref i) fun _ => ⟨rfl, id⟩

theorem TableWith.idup (h : TableWith s s' l) (i : Fin NINODE) : TableWith s (idup s' i) (i :: l) := by
  refine h.set s'.disk (fun j hj => count_cons_ne hj l) ?_ fun _ => ⟨rfl, id⟩
  show (s'.itable i).ref + 1 = _
  rw [h.ref, List.count_cons_self, Nat.add_assoc]

theorem TableWith.got (h : TableWith s s₀ l) (hgot : Got s₀ inum j s') : TableWith s s' (j :: l) := by
  cases hgot with
  | shared href hinum => exact h.idup j
  | recycled href =>
      have hzero := h.ref j
      rw [href] at hzero
      refine h.set s₀.disk (fun i hi => count_cons_ne hi l) ?_ fun hpos => absurd hpos (by omega)
      show 1 = _
      rw [List.count_cons_self]
      omega

theorem TableWith.ilock (h : TableWith s s₀ l) (hrun : ilock sb s₀ i = .ok s') : TableWith s s' l := by
  rw [Fs.ilock] at hrun
  split at hrun
  · cases hrun
  split at hrun
  · cases hrun
    exact h
  split at hrun
  · cases hrun
  · cases hrun
    exact h.set s₀.disk (fun _ _ => rfl) (h.ref i) fun _ => ⟨rfl, fun _ => rfl⟩

/-- A reference is given back, also when it is the last. -/
theorem TableWith.iput (h : TableWith s s₀ (i :: l)) (hrun : iput sb s₀ i = .ok s') :
    TableWith s s' l := by
  have href := h.ref i
  rw [List.count_cons_self] at href
  have hother : ∀ j, j ≠ i → l.count j = (i :: l).count j := fun j hj => (count_cons_ne hj l).symm
  rw [Fs.iput] at hrun
  by_cases hdead : (s₀.itable i).ref = 1 ∧ (s₀.itable i).valid = true ∧ (s₀.itable i).d.nlink = 0
  · rw [if_pos hdead] at hrun
    obtain ⟨⟨disk, d⟩, -, hret⟩ := bind_eq_ok.mp hrun
    cases hret
    have hlast := hdead.1
    refine h.set _ hother ?_ fun hpos => absurd hpos (by omega)
    show (s₀.itable i).ref - 1 = _
    omega
  · rw [if_neg hdead] at hrun
    cases hrun
    refine h.set s₀.disk hother ?_ fun _ => ⟨rfl, id⟩
    show (s₀.itable i).ref - 1 = _
    omega

/-! ### Locking and putting an inode that has a link -/

theorem not_dead (h : Consistent sb s) (hl : Linked sb s.disk (s.itable i).inum) : ¬ Dead s i := by
  rintro ⟨href, hvalid, hnlink⟩
  have hd := (h.table.valid i (by rw [href]; exact Nat.one_pos) hvalid).1
  rw [hd] at hnlink
  exact hl.nlink hnlink

theorem iput_linked (h : Consistent sb s) (hr : 0 < (s.itable i).ref)
    (hl : Linked sb s.disk (s.itable i).inum) : ∃ s', iput sb s i = .ok s' ∧ Consistent sb s' ∧
      s'.disk = s.disk ∧ ∀ j, (s'.itable j).inum = (s.itable j).inum := by
  obtain ⟨s', hrun, hcons⟩ := iput_consistent h hr
  refine ⟨s', hrun, hcons, ?_⟩
  have hput : iput sb s i = .ok (setInode s i { s.itable i with ref := (s.itable i).ref - 1 }) :=
    if_neg (not_dead h hl)
  cases hrun.symm.trans hput
  exact ⟨rfl, fun j => inum_setInode (by rfl) j⟩

/-- What `ilock` does to an inode in use. -/
structure Locked (sb : Super) (s : State) (i : Fin NINODE) (s' : State) : Prop where
  consistent : Consistent sb s'
  disk : s'.disk = s.disk
  inum : ∀ j, (s'.itable j).inum = (s.itable j).inum
  held : Held s' i
  d : (s'.itable i).d = dinodes sb s.disk (s.itable i).inum

theorem ilock_spec (h : Consistent sb s) (hr : 0 < (s.itable i).ref)
    (ht : (dinodes sb s.disk (s.itable i).inum).type ≠ 0) :
    ∃ s', ilock sb s i = .ok s' ∧ Locked sb s i s' := by
  have href : ¬ (s.itable i).ref < 1 := Nat.not_lt.mpr hr
  have hinum := h.table.inums i hr
  by_cases hv : (s.itable i).valid = true
  · have hrun : ilock sb s i = .ok s := (if_neg href).trans (if_pos hv)
    exact ⟨s, hrun, h, rfl, fun _ => rfl, ⟨hr, hv⟩, (h.table.valid i hr hv).1⟩
  · have hd : dinodes sb s.disk (s.itable i).inum = dinodeAt sb s.disk (s.itable i).inum := if_pos hinum
    rw [hd] at ht
    have hrun : ilock sb s i = .ok (setInode s i { s.itable i with
        valid := true, d := dinodeAt sb s.disk (s.itable i).inum }) :=
      (if_neg href).trans ((if_neg hv).trans (if_neg ht))
    refine ⟨_, hrun, ilock_consistent h hrun, rfl, fun j => inum_setInode (by rfl) j, ?_, ?_⟩
    · rw [Held, itable_setInode]
      exact ⟨hr, rfl⟩
    · rw [itable_setInode, hd]

/-! ### The loop -/

/-- All entries of the table but one are in use. -/
def Crowded (s : State) : Prop := ∃ ip, ∀ j, j ≠ ip → 0 < (s.itable j).ref

/-- `iget` panics when they all are. -/
theorem iget_full {e : String} (h : iget s inum = .error e) (j : Fin NINODE) : 0 < (s.itable j).ref := by
  rw [iget] at h
  split at h
  · cases h
  split at h
  · rename_i hnone
    have hj := List.find?_eq_none.mp hnone j (List.mem_finRange j)
    exact Nat.pos_of_ne_zero fun h0 => hj (decide_eq_true h0)
  · cases h

/-- A call that holds one reference. -/
theorem TableWith.crowded (h : TableWith s s' [ip]) (hfull : ∀ j, 0 < (s'.itable j).ref) : Crowded s := by
  refine ⟨ip, fun j hj => ?_⟩
  have hpos := hfull j
  rwa [h.ref, count_cons_ne hj, List.count_nil, Nat.add_zero] at hpos

/-- What a walk leaves: the disk as it was, and a reference to what it has found. -/
structure Walked (sb : Super) (s₀ s : State) (res : Option (Fin NINODE)) (s' : State) : Prop where
  consistent : Consistent sb s'
  disk : s'.disk = s.disk
  table : TableWith s₀ s' res.toList
  linked : ∀ i ∈ res, Linked sb s.disk (s'.itable i).inum

theorem Got.inum_eq (h : Got s inum j s') : (s'.itable j).inum = inum := by
  cases h with
  | shared href hinum => rwa [itable_setInode]
  | recycled href => rw [itable_setInode]

/-- The other entries, and one that is shared. -/
theorem Got.inum_other (h : Got s inum j s') (hi : 0 < (s.itable i).ref) :
    (s'.itable i).inum = (s.itable i).inum := by
  cases h with
  | shared href hinum => exact inum_setInode (by rfl) i
  | recycled href =>
      rw [itable_setInode_ne]
      rintro rfl
      exact hi.ne' href

/-- **The loop of `namex`** on the disk. -/
theorem namexLoop_walks (parent : Bool) : ∀ (turns : Nat) (ip : Fin NINODE) (path name : List Byte)
    (s : State), path.length < turns → Walkable sb s → TableWith s₀ s [ip] →
    Linked sb s.disk (s.itable ip).inum →
    (s.namexLoop sb parent turns ip path name = .error "iget: no inodes" ∧ Crowded s₀) ∨
    ∃ res name' s', s.namexLoop sb parent turns ip path name = .ok ((res, name'), s') ∧
      Walked sb s₀ s res s' ∧
      Fs.namexLoop (diskTree sb s.disk) parent turns (s.itable ip).inum path name =
        .ok (res.map fun i => (s'.itable i).inum, name') := by
  intro turns
  induction turns with
  | zero => exact fun _ _ _ _ hlt => absurd hlt (Nat.not_lt_zero _)
  | succ turns ih =>
      intro ip path name s hlt hw ht hl
      rw [namexLoop_succ, State.namexLoop]
      have hskip := skipelem_spec path name
      have href : 0 < (s.itable ip).ref := ht.pos (List.mem_singleton_self ip)
      cases hs : skipelem path name with
      | none =>
          -- the path is at its end; `nameiparent` of "/" gives the reference back
          cases parent with
          | true =>
              obtain ⟨s', hput, hcons, hdisk, -⟩ := iput_linked hw.tidy.consistent href hl
              refine Or.inr ⟨none, name, s', ?_, ⟨hcons, hdisk, ht.iput hput, fun _ hi => nomatch hi⟩, rfl⟩
              simp only [if_true, hput, ok_bind, pure_eq_ok]
          | false =>
              refine Or.inr ⟨some ip, name, s, rfl, ⟨hw.tidy.consistent, rfl, ht, fun i hi => ?_⟩, rfl⟩
              cases hi
              exact hl
      | some x =>
          obtain ⟨path', name'⟩ := x
          rw [hs] at hskip
          cases hskip with
          | elem run _ _ hruns hname hlen hend =>
              obtain ⟨s₁, hlock, hlocked⟩ := ilock_spec hw.tidy.consistent href hl.type
              have ht₁ := ht.ilock hlock
              have hw₁ := hw.of_disk hlocked.disk hlocked.consistent
              have hl₁ : Linked sb s₁.disk (s₁.itable ip).inum := by
                rw [hlocked.disk, hlocked.inum]
                exact hl
              obtain ⟨s₂, hput, hcons₂, hdisk₂, hinum₂⟩ := iput_linked hlocked.consistent
                (ht₁.pos (List.mem_singleton_self ip)) hl₁
              simp only [hlock, ok_bind, hlocked.d]
              by_cases hdir : (dinodes sb s.disk (s.itable ip).inum).type = T_DIR
              swap
              · -- not a directory
                refine Or.inr ⟨none, name', s₂, ?_,
                  ⟨hcons₂, hdisk₂.trans hlocked.disk, ht₁.iput hput, fun _ hi => nomatch hi⟩, ?_⟩
                · simp only [ne_eq, hdir, not_false_eq_true, if_true, hput, ok_bind, pure_eq_ok]
                · simp only [diskTree, hdir, decide_false, Bool.not_false, if_true, Option.map_none]
              have hisDir : (diskTree sb s.disk).isDir (s.itable ip).inum = true := decide_eq_true hdir
              simp only [ne_eq, hdir, not_true_eq_false, if_false, hisDir, Bool.not_true, Bool.false_eq_true]
              by_cases hlast : parent = true ∧ deref path' = 0
              · -- `nameiparent` stops one level early, with the directory
                refine Or.inr ⟨some ip, name', s₁, if_pos hlast,
                  ⟨hlocked.consistent, hlocked.disk, ht₁, fun i hi => ?_⟩, ?_⟩
                · cases hi
                  rw [← hlocked.disk]
                  exact hl₁
                · rw [if_pos hlast, Option.map_some, hlocked.inum]
              rw [if_neg hlast, if_neg hlast]
              have htype₁ : (dinodes sb s₁.disk (s₁.itable ip).inum).type = T_DIR := by
                rw [hlocked.disk, hlocked.inum]
                exact hdir
              have hok := hw₁.tidy.dirOk hlocked.held htype₁
              have hfind : (diskTree sb s.disk).dirlookup (s.itable ip).inum name' =
                  lookup sb s₁ ip (cname name') := by
                rw [lookup_findDirent, entriesOf, hlocked.disk, hlocked.inum]
                rfl
              rw [hfind, dirlookup_spec hok]
              cases hfound : lookup sb s₁ ip (cname name') with
              | none =>
                  refine Or.inr ⟨none, name', s₂, ?_,
                    ⟨hcons₂, hdisk₂.trans hlocked.disk, ht₁.iput hput, fun _ hi => nomatch hi⟩, rfl⟩
                  simp only [getFound, ok_bind, hput, pure_eq_ok]
              | some next =>
                  -- `dirlookup` takes a reference to the next inode before that to this one is given back
                  rcases iget_cases s₁ next with ⟨j, s₃, hget, hgot⟩ | hget
                  swap
                  · exact Or.inl ⟨by simp only [getFound, hget, error_bind], ht₁.crowded (iget_full hget)⟩
                  rw [lookup_tree] at hfound
                  have hln : Linked sb s₁.disk next := hw₁.target hl₁ htype₁ hfound
                  have hcons₃ := iget_consistent hlocked.consistent (lt_ninodes hln.type) hget
                  have hdisk₃ := iget_disk hget
                  have ht₃ := ht₁.got hgot
                  have hinum₃ := hgot.inum_other (ht₁.pos (List.mem_singleton_self ip))
                  obtain ⟨s₄, hput₄, hcons₄, hdisk₄, hinum₄⟩ := iput_linked (i := ip) hcons₃
                    (ht₃.pos (List.mem_cons_of_mem _ (List.mem_singleton_self ip)))
                    (by rw [hdisk₃, hinum₃]; exact hl₁)
                  have ht₄ : TableWith s₀ s₄ [j] := by
                    refine TableWith.iput (i := ip) ⟨fun i => ?_, ht₃.inum, ht₃.valid⟩ hput₄
                    rw [ht₃.ref, List.Perm.count_eq (List.Perm.swap ip j [])]
                  have hdisk : s₄.disk = s.disk :=
                    hdisk₄.trans (hdisk₃.trans hlocked.disk)
                  have hj : (s₄.itable j).inum = next := (hinum₄ j).trans hgot.inum_eq
                  have hnext := ih j path' name' s₄ (by omega) (hw.of_disk hdisk hcons₄) ht₄ (by
                    rw [hj, hdisk, ← hlocked.disk]
                    exact hln)
                  rw [hj, hdisk] at hnext
                  simp only [getFound, hget, ok_bind, pure_eq_ok, hput₄]
                  refine hnext.imp_right ?_
                  rintro ⟨res, name'', s', hrun, hwalked, htree⟩
                  exact ⟨res, name'', s', hrun, ⟨hwalked.consistent, hwalked.disk.trans hdisk,
                    hwalked.table, fun i hi => hdisk ▸ hwalked.linked i hi⟩, htree⟩

/-! ### `namei` and `nameiparent` -/

theorem idup_consistent (h : Consistent sb s) (hr : 0 < (s.itable i).ref) : Consistent sb (idup s i) := by
  have hentry := h.table.entryOk hr
  exact ⟨h.layout, h.owned, h.table.set (fun _ _ _ => rfl) fun _ =>
    ⟨hentry.inum, hentry.once, hentry.valid⟩⟩

section Walk

variable {cwd : Fin NINODE} (h : Walkable sb s) (hroot : Linked sb s.disk ROOTINO)
  (hcwd : 0 < (s.itable cwd).ref) {path : List Byte}
  (hl : deref path ≠ slash → Linked sb s.disk (s.itable cwd).inum)

include h hroot hcwd hl

/-- **`namex`** on the disk. -/
theorem namex_walks (parent : Bool) (name : List Byte) :
    (s.namex sb cwd path parent name = .error "iget: no inodes" ∧ Crowded s) ∨
    ∃ res name' s', s.namex sb cwd path parent name = .ok ((res, name'), s') ∧ Walked sb s s res s' ∧
      Fs.namex (diskTree sb s.disk) (s.itable cwd).inum path parent name =
        .ok (res.map fun i => (s'.itable i).inum, name') := by
  have hloop : ∀ ip s₁, Consistent sb s₁ → s₁.disk = s.disk → TableWith s s₁ [ip] →
      Linked sb s.disk (s₁.itable ip).inum → (s₁.itable ip).inum = namexStart (s.itable cwd).inum path →
      (s₁.namexLoop sb parent (path.length + 1) ip path name = .error "iget: no inodes" ∧ Crowded s) ∨
      ∃ res name' s', s₁.namexLoop sb parent (path.length + 1) ip path name = .ok ((res, name'), s') ∧
        Walked sb s s res s' ∧ Fs.namex (diskTree sb s.disk) (s.itable cwd).inum path parent name =
          .ok (res.map fun i => (s'.itable i).inum, name') := by
    intro ip s₁ hcons hdisk ht hip hstart
    have hwalk := namexLoop_walks parent (path.length + 1) ip path name s₁ (Nat.lt_succ_self _)
      (h.of_disk hdisk hcons) ht (hdisk.symm ▸ hip)
    rw [hdisk, hstart] at hwalk
    refine hwalk.imp_right ?_
    rintro ⟨res, name', s', hrun, hwalked, htree⟩
    exact ⟨res, name', s', hrun, ⟨hwalked.consistent, hwalked.disk.trans hdisk, hwalked.table,
      fun i hi => hdisk ▸ hwalked.linked i hi⟩, htree⟩
  rw [State.namex]
  by_cases habs : deref path = slash
  · rcases iget_cases s ROOTINO with ⟨j, s₁, hget, hgot⟩ | hget
    · rw [if_pos habs, hget, ok_bind]
      refine hloop j s₁ (iget_consistent h.tidy.consistent (lt_ninodes hroot.type) hget) (iget_disk hget)
        ((TableWith.refl s).got hgot) (by rwa [hgot.inum_eq]) ?_
      rw [hgot.inum_eq, namexStart, if_pos habs]
    · rw [if_pos habs, hget, error_bind]
      exact Or.inl ⟨rfl, cwd, fun j _ => iget_full hget j⟩
  · have hinum : ((idup s cwd).itable cwd).inum = (s.itable cwd).inum := inum_setInode (by rfl) cwd
    rw [if_neg habs, pure_eq_ok, ok_bind]
    refine hloop cwd (idup s cwd) (idup_consistent h.tidy.consistent hcwd) rfl ((TableWith.refl s).idup cwd)
      (by rw [hinum]; exact hl habs) ?_
    rw [hinum, namexStart, if_neg habs]

theorem namei_walks (name : List Byte) :
    (s.namei sb cwd path name = .error "iget: no inodes" ∧ Crowded s) ∨
    ∃ res s', s.namei sb cwd path name = .ok (res, s') ∧ Walked sb s s res s' ∧
      (diskTree sb s.disk).resolve (namexStart (s.itable cwd).inum path) (runs path) =
        res.map fun i => (s'.itable i).inum := by
  rcases namex_walks h hroot hcwd hl false name with ⟨hrun, hfull⟩ | ⟨res, name', s', hrun, hwalked, htree⟩
  · exact Or.inl ⟨by rw [State.namei, hrun, error_bind], hfull⟩
  · obtain ⟨name'', hres⟩ : ∃ name'', Fs.namexLoop (diskTree sb s.disk) false (path.length + 1)
        (namexStart (s.itable cwd).inum path) path name = .ok ((diskTree sb s.disk).resolve
          (namexStart (s.itable cwd).inum path) (runs path), name'') :=
      namexLoop_namei _ _ _ _ (Nat.lt_succ_self _)
    rw [namex, hres] at htree
    refine Or.inr ⟨res, s', by rw [State.namei, hrun, ok_bind]; rfl, hwalked, ?_⟩
    exact congrArg Prod.fst (Except.ok.inj htree)

theorem nameiparent_walks (name : List Byte) :
    (s.nameiparent sb cwd path name = .error "iget: no inodes" ∧ Crowded s) ∨
    ∃ res name' s', s.nameiparent sb cwd path name = .ok ((res, name'), s') ∧ Walked sb s s res s' ∧
      ParentOf (diskTree sb s.disk) (namexStart (s.itable cwd).inum path) (runs path)
        (res.map fun i => (s'.itable i).inum) name' := by
  refine (namex_walks h hroot hcwd hl true name).imp_right ?_
  rintro ⟨res, name', s', hrun, hwalked, htree⟩
  obtain ⟨res', name'', hres, hpar⟩ : ∃ res' name'', Fs.namexLoop (diskTree sb s.disk) true
      (path.length + 1) (namexStart (s.itable cwd).inum path) path name = .ok (res', name'') ∧
      ParentOf (diskTree sb s.disk) (namexStart (s.itable cwd).inum path) (runs path) res' name'' :=
    namexLoop_nameiparent _ _ _ _ (Nat.lt_succ_self _)
  rw [namex, hres] at htree
  obtain ⟨hfst, hsnd⟩ := Prod.mk.inj (Except.ok.inj htree)
  exact ⟨res, name', s', hrun, hwalked, hfst ▸ hsnd ▸ hpar⟩

end Walk

/-! ### Lookups by any number of processes -/

inductive PathCall where
  | namei (path name : List Byte)
  | nameiparent (path name : List Byte)
  | dup
  | lock
  | put

/-- A call, and the reference that it is made with: its place in the list of those that are held. -/
structure PathOp where
  place : Nat
  call : PathCall

/-- What is found: an inode, or a directory and the name that is looked for in it. -/
inductive PathResult where
  | nothing
  | inode (inum : Nat)
  | parent (dp : Nat) (name : List Byte)
  deriving DecidableEq, Repr

/-- The inode table, and the references that the processes hold. -/
structure PathSystem where
  inodes : State
  held : List (Fin NINODE)

/-- What the references are to. -/
def PathSystem.inums (p : PathSystem) : List Nat := p.held.map fun i => (p.inodes.itable i).inum

/-- One call.  A reference that is not held cannot be used. -/
def pathStep (sb : Super) (o : PathOp) (p : PathSystem) : Except String (PathResult × PathSystem) :=
  match p.held[o.place]? with
  | none => .ok (.nothing, p)
  | some i =>
    match o.call with
    | .namei path name => do
      let (res, s) ← p.inodes.namei sb i path name
      return (res.elim .nothing fun j => .inode (s.itable j).inum, ⟨s, res.toList ++ p.held⟩)
    | .nameiparent path name => do
      let ((res, name), s) ← p.inodes.nameiparent sb i path name
      return (res.elim .nothing fun j => .parent (s.itable j).inum (cname name), ⟨s, res.toList ++ p.held⟩)
    | .dup => .ok (.nothing, ⟨idup p.inodes i, i :: p.held⟩)
    | .lock => do
      let s ← ilock sb p.inodes i
      return (.nothing, ⟨s, p.held⟩)
    | .put => do
      let s ← iput sb p.inodes i
      return (.nothing, ⟨s, p.held.eraseIdx o.place⟩)

/-- The directory that the last of the runs is in, with that run as a name. -/
def Tree.parent (tree : Tree) (ip : Nat) (rs : List (List Byte)) : Option (Nat × List Byte) :=
  rs.getLast?.bind fun run =>
    ((tree.resolve ip rs.dropLast).filter fun dp => tree.isDir dp).map fun dp => (dp, run.take DIRSIZ)

/-- **What lookups are for**: references are to nodes of a tree that nobody changes. -/
def treeStep (tree : Tree) (o : PathOp) (held : List Nat) : PathResult × List Nat :=
  match held[o.place]? with
  | none => (.nothing, held)
  | some ip =>
    match o.call with
    | .namei path _ =>
      let res := tree.resolve (namexStart ip path) (runs path)
      (res.elim .nothing .inode, res.toList ++ held)
    | .nameiparent path _ =>
      let res := tree.parent (namexStart ip path) (runs path)
      (res.elim .nothing fun x => .parent x.1 x.2, (res.map Prod.fst).toList ++ held)
    | .dup => (.nothing, ip :: held)
    | .lock => (.nothing, held)
    | .put => (.nothing, held.eraseIdx o.place)

/-- **The table has the references that are held**, all of them to inodes that have a link. -/
structure PathsOk (sb : Super) (p : PathSystem) : Prop where
  walkable : Walkable sb p.inodes
  root : Linked sb p.inodes.disk ROOTINO
  linked : ∀ i ∈ p.held, Linked sb p.inodes.disk (p.inodes.itable i).inum
  ref : ∀ i, (p.inodes.itable i).ref = p.held.count i

variable {p : PathSystem} {o : PathOp}

theorem PathsOk.ref_pos (h : PathsOk sb p) (hi : i ∈ p.held) : 0 < (p.inodes.itable i).ref := by
  rw [h.ref]
  exact List.count_pos_iff.mpr hi

/-- A call that adds references. -/
theorem PathsOk.after (h : PathsOk sb p) (hcons : Consistent sb s') (hdisk : s'.disk = p.inodes.disk)
    (ht : TableWith p.inodes s' l) (hl : ∀ i ∈ l, Linked sb p.inodes.disk (s'.itable i).inum) :
    PathsOk sb ⟨s', l ++ p.held⟩ ∧
    PathSystem.inums ⟨s', l ++ p.held⟩ = (l.map fun i => (s'.itable i).inum) ++ p.inums := by
  have hinum : ∀ i ∈ p.held, (s'.itable i).inum = (p.inodes.itable i).inum := fun i hi =>
    ht.inum i (h.ref_pos hi)
  refine ⟨⟨h.walkable.of_disk hdisk hcons, hdisk.symm ▸ h.root, fun i hi => ?_, fun i => ?_⟩, ?_⟩
  · rcases List.mem_append.mp hi with hi | hi
    · exact hdisk.symm ▸ hl i hi
    · rw [hinum i hi, hdisk]
      exact h.linked i hi
  · rw [ht.ref, h.ref, List.count_append, Nat.add_comm]
  · rw [PathSystem.inums, PathSystem.inums, List.map_append]
    exact congrArg _ (List.map_congr_left hinum)

/-- A reference is given back. -/
theorem PathsOk.put (h : PathsOk sb p) {k : Nat} (hk : p.held[k]? = some i) :
    ∃ s', iput sb p.inodes i = .ok s' ∧ s'.disk = p.inodes.disk ∧
      PathsOk sb ⟨s', p.held.eraseIdx k⟩ ∧ PathSystem.inums ⟨s', p.held.eraseIdx k⟩ = p.inums.eraseIdx k := by
  obtain ⟨hlt, hget⟩ := List.getElem?_eq_some_iff.mp hk
  have hi : i ∈ p.held := List.mem_of_getElem? hk
  have hperm : (i :: p.held.eraseIdx k).Perm p.held := hget ▸ List.getElem_cons_eraseIdx_perm hlt
  obtain ⟨s', hrun, hcons, hdisk, hinum⟩ := iput_linked h.walkable.tidy.consistent (h.ref_pos hi) (h.linked i hi)
  -- the references, counted from a table that has none
  have hall : TableWith ⟨p.inodes.disk, fun _ => ⟨0, 0, false, newDinode 0⟩⟩ p.inodes
      (i :: p.held.eraseIdx k) := by
    refine ⟨fun j => ?_, fun j hj => absurd hj (lt_irrefl 0), fun j hj => absurd hj (lt_irrefl 0)⟩
    rw [h.ref, hperm.count_eq, Nat.zero_add]
  refine ⟨s', hrun, hdisk, ⟨h.walkable.of_disk hdisk hcons, hdisk.symm ▸ h.root, fun j hj => ?_,
    fun j => ?_⟩, ?_⟩
  · rw [hinum, hdisk]
    exact h.linked j (List.mem_of_mem_eraseIdx hj)
  · rw [(hall.iput hrun).ref, Nat.zero_add]
  · rw [PathSystem.inums, PathSystem.inums, List.eraseIdx_map]
    exact List.map_congr_left fun j _ => hinum j

/-- The table is full with one more reference than are held. -/
theorem PathsOk.crowded (h : PathsOk sb p) (hfull : Crowded p.inodes) : NINODE ≤ p.held.length + 1 := by
  obtain ⟨ip, hfull⟩ := hfull
  have hsub : List.finRange NINODE ⊆ ip :: p.held := by
    intro j _
    by_cases hj : j = ip
    · rw [hj]
      exact List.mem_cons_self
    · have hpos := hfull j hj
      rw [h.ref] at hpos
      exact List.mem_cons_of_mem _ (List.count_pos_iff.mp hpos)
  have hle := ((List.nodup_finRange NINODE).subperm hsub).length_le
  rwa [List.length_finRange, List.length_cons] at hle

theorem ParentOf.parent_eq {tree : Tree} {ip : Nat} {rs : List (List Byte)} {res : Option Nat}
    {name : List Byte} (h : ParentOf tree ip rs res name) (hrs : ∀ run ∈ rs, (0 : Byte) ∉ run) :
    tree.parent ip rs = res.map fun dp => (dp, cname name) := by
  cases h with
  | found dp _ run init heq hdp hname =>
      subst heq
      have hrun := hrs run (List.mem_append_right _ (List.mem_singleton_self run))
      rw [Tree.parent, List.getLast?_concat, Option.bind_some, List.dropLast_concat, hdp.1,
        Option.filter_some, if_pos hdp.2, hname.cname hrun]
  | empty _ heq =>
      subst heq
      rfl
  | lost _ run init heq hnot =>
      subst heq
      rw [Tree.parent, List.getLast?_concat, Option.bind_some, List.dropLast_concat]
      cases hres : tree.resolve ip init with
      | none => rfl
      | some dp =>
          have hdir : ¬ tree.isDir dp = true := fun hdir => hnot dp ⟨hres, hdir⟩
          rw [Option.filter_some, if_neg hdir, Option.map_none, Option.map_none]

/-- **One call** does what the tree says, or panics on a full table. -/
theorem pathStep_tree (h : PathsOk sb p) (o : PathOp) :
    (pathStep sb o p = .error "iget: no inodes" ∧ NINODE ≤ p.held.length + 1) ∨
    ∃ p', pathStep sb o p = .ok ((treeStep (diskTree sb p.inodes.disk) o p.inums).1, p') ∧
      p'.inums = (treeStep (diskTree sb p.inodes.disk) o p.inums).2 ∧
      p'.inodes.disk = p.inodes.disk ∧ PathsOk sb p' := by
  obtain ⟨k, call⟩ := o
  have hinums : p.inums[k]? = p.held[k]?.map fun i => (p.inodes.itable i).inum := List.getElem?_map ..
  rw [pathStep, treeStep, hinums]
  cases hk : p.held[k]? with
  | none => exact Or.inr ⟨p, rfl, rfl, rfl, h⟩
  | some i =>
      have hi : i ∈ p.held := List.mem_of_getElem? hk
      have hl := h.linked i hi
      have hcwd : ∀ path, deref path ≠ slash → Linked sb p.inodes.disk (p.inodes.itable i).inum := fun _ _ => hl
      cases call with
      | namei path name =>
          rcases namei_walks h.walkable h.root (h.ref_pos hi) (hcwd path) name with
            ⟨hrun, hfull⟩ | ⟨res, s', hrun, hwalked, htree⟩
          · exact Or.inl ⟨by simp only [hrun, error_bind], h.crowded hfull⟩
          obtain ⟨hok, hnums⟩ := h.after hwalked.consistent hwalked.disk hwalked.table
            fun j hj => hwalked.linked j (Option.mem_toList.mp hj)
          refine Or.inr ⟨_, ?_, hnums.trans ?_, hwalked.disk, hok⟩
          · simp only [hrun, ok_bind, pure_eq_ok, Option.map_some, htree]
            cases res <;> rfl
          · simp only [Option.map_some, htree]
            cases res <;> rfl
      | nameiparent path name =>
          rcases nameiparent_walks h.walkable h.root (h.ref_pos hi) (hcwd path) name with
            ⟨hrun, hfull⟩ | ⟨res, name', s', hrun, hwalked, htree⟩
          · exact Or.inl ⟨by simp only [hrun, error_bind], h.crowded hfull⟩
          obtain ⟨hok, hnums⟩ := h.after hwalked.consistent hwalked.disk hwalked.table
            fun j hj => hwalked.linked j (Option.mem_toList.mp hj)
          have hpar := htree.parent_eq fun run hrun => not_mem_run hrun
          refine Or.inr ⟨_, ?_, hnums.trans ?_, hwalked.disk, hok⟩
          · simp only [hrun, ok_bind, pure_eq_ok, Option.map_some, hpar]
            cases res <;> rfl
          · simp only [Option.map_some, hpar]
            cases res <;> rfl
      | dup =>
          have hinum : ((idup p.inodes i).itable i).inum = (p.inodes.itable i).inum := inum_setInode (by rfl) i
          obtain ⟨hok, hnums⟩ := h.after (idup_consistent h.walkable.tidy.consistent (h.ref_pos hi)) rfl
            ((TableWith.refl p.inodes).idup i) (fun j hj => by rw [List.mem_singleton.mp hj, hinum]; exact hl)
          refine Or.inr ⟨_, rfl, hnums.trans ?_, rfl, hok⟩
          simp only [List.map_cons, List.map_nil, hinum, Option.map_some]
          rfl
      | lock =>
          obtain ⟨s', hrun, hlocked⟩ := ilock_spec h.walkable.tidy.consistent (h.ref_pos hi) hl.type
          obtain ⟨hok, hnums⟩ := h.after hlocked.consistent hlocked.disk
            ((TableWith.refl p.inodes).ilock hrun) fun j hj => nomatch hj
          exact Or.inr ⟨⟨s', p.held⟩, by simp only [hrun, ok_bind, pure_eq_ok, Option.map_some], hnums,
            hlocked.disk, hok⟩
      | put =>
          obtain ⟨s', hrun, hdisk, hok, hnums⟩ := h.put hk
          exact Or.inr ⟨_, by simp only [hrun, ok_bind, pure_eq_ok, Option.map_some], hnums, hdisk, hok⟩

/-- **Paths lead where the directories say**, whatever other lookups there are, and no reference is lost
or left over.  A run stops only in `iget`, with all but one of the `NINODE` references held. -/
theorem lookups_follow_tree (sb : Super) (ops : List PathOp) (p : PathSystem) (h : PathsOk sb p) :
    (run (pathStep sb) ops p = .error "iget: no inodes" ∧ ∃ pre, pre <+: ops ∧
      NINODE ≤ (runFn (treeStep (diskTree sb p.inodes.disk)) pre p.inums).2.length + 1) ∨
    ∃ p', run (pathStep sb) ops p =
        .ok ((runFn (treeStep (diskTree sb p.inodes.disk)) ops p.inums).1, p') ∧
      p'.inums = (runFn (treeStep (diskTree sb p.inodes.disk)) ops p.inums).2 ∧
      p'.inodes.disk = p.inodes.disk ∧ PathsOk sb p' := by
  induction ops generalizing p with
  | nil => exact Or.inr ⟨p, rfl, rfl, rfl, h⟩
  | cons o ops ih =>
      rcases pathStep_tree h o with ⟨herr, hfull⟩ | ⟨p₁, hrun, hnums, hdisk, hok⟩
      · refine Or.inl ⟨by rw [run, herr, error_bind], [], List.nil_prefix, ?_⟩
        rwa [runFn, PathSystem.inums, List.length_map]
      · have hrest := ih p₁ hok
        rw [hdisk, hnums] at hrest
        rcases hrest with ⟨herr, pre, hpre, hfull⟩ | ⟨p', hrun', hnums', hdisk', hok'⟩
        · exact Or.inl ⟨by simp only [run, hrun, ok_bind, herr, error_bind], o :: pre,
            List.cons_prefix_cons.mpr ⟨rfl, hpre⟩, hfull⟩
        · exact Or.inr ⟨p', run_cons hrun hrun', hnums', hdisk', hok'⟩

/-- The root has ".", "..", and "a" for the file 2. -/
def treeDisk : Disk := fun b w =>
  if b = 2 then
    if w = 16 then 1 else if w = 32 then 2 else if w = 17 ∨ w = 33 then 0x10000
    else if w = 18 then 48 else if w = 19 then 4 else 0
  else if b = 3 then if w = 0 then 0x1F else 0
  else if b = 4 then if w = 0 then 0x2E0001 else if w = 4 then 0x2E2E0001 else if w = 8 then 0x610002 else 0
  else 0

/-- One process, in the root. -/
def treeSystem : PathSystem :=
  ⟨⟨treeDisk, fun i => if i.val = 0 then ⟨1, 1, false, newDinode 0⟩ else ⟨0, 0, false, newDinode 0⟩⟩,
    [⟨0, zero_lt_ninode⟩]⟩

/-- "a" is looked up, then "/x" and "a/a", which are not there, then the parent of "/./b", and "a" is put.
The last call is made with a reference that nobody holds. -/
def treeOps : List PathOp :=
  [⟨0, .namei [97] []⟩, ⟨1, .namei [47, 120] []⟩, ⟨1, .namei [97, 47, 97] []⟩, ⟨0, .lock⟩,
    ⟨0, .nameiparent [47, 46, 47, 98] []⟩, ⟨1, .put⟩, ⟨5, .dup⟩]

theorem treeDisk_dir {i : Nat} (h : (dinodes smallSuper treeDisk i).type = T_DIR) : i = 1 := by
  have hall : ∀ i, i < smallSuper.ninodes → (dinodes smallSuper treeDisk i).type = T_DIR → i = 1 := by decide
  have htype : (dinodes smallSuper treeDisk i).type ≠ 0 := by
    rw [h]
    decide
  exact hall i (lt_ninodes htype) h

/-- The one block in use. -/
theorem treeDisk_entry {P : Place} (h : entry (dinodes smallSuper treeDisk) treeDisk P ≠ 0) :
    P = (1, .addr 0) := by
  have hall : ∀ k, k < smallSuper.ninodes → ∀ j : Fin (NDIRECT + 1),
      (dinodes smallSuper treeDisk k).addrs j ≠ 0 → k = 1 ∧ j = 0 := by decide
  obtain ⟨k, j | j⟩ := P
  · by_cases htype : (dinodes smallSuper treeDisk k).type = 0
    · rw [entry, if_pos htype] at h
      exact absurd rfl h
    · rw [entry, if_neg htype] at h
      obtain ⟨rfl, rfl⟩ := hall k (lt_ninodes htype) j h
      rfl
  · by_cases hnone : (dinodes smallSuper treeDisk k).type = 0 ∨
        (dinodes smallSuper treeDisk k).addrs indirectSlot = 0
    · rw [entry, if_pos hnone] at h
      exact absurd rfl h
    · obtain ⟨htype, haddr⟩ := not_or.mp hnone
      exact absurd (hall k (lt_ninodes htype) indirectSlot haddr).2 (by decide)

theorem treeDisk_owned : Owned smallSuper (dinodes smallSuper treeDisk) treeDisk := by
  refine ⟨fun P Q hP heq => ?_, fun P hP => ?_, fun P hP => ?_, by decide⟩
  · have hQ : entry (dinodes smallSuper treeDisk) treeDisk Q ≠ 0 := heq ▸ hP
    rw [treeDisk_entry hP, treeDisk_entry hQ]
  · rw [treeDisk_entry hP]
    decide
  · rw [treeDisk_entry hP]
    decide

theorem treeSystem_ok : PathsOk smallSuper treeSystem := by
  have hroot : ∀ i, 0 < (treeSystem.inodes.itable i).ref → i = ⟨0, zero_lt_ninode⟩ := by decide
  have hlinks : ∀ de ∈ dirents (dinodes smallSuper treeDisk) treeDisk 1,
      (dinodes smallSuper treeDisk de.inum.toNat).type ≠ 0 ∧
      (dinodes smallSuper treeDisk de.inum.toNat).nlink ≠ 0 := by decide
  refine ⟨⟨⟨⟨⟨by decide, by decide, by decide⟩, treeDisk_owned, ?_, ?_, ?_⟩, ?_, ?_⟩, ?_⟩,
    ⟨by decide, by decide⟩, ?_, by decide⟩
  · intro i hi
    rw [hroot i hi]
    decide
  · intro i j hi hj _
    rw [hroot i hi, hroot j hj]
  · intro i hi hv
    rw [hroot i hi] at hv
    cases hv
  · intro i hi
    rw [treeDisk_dir hi]
    refine ⟨fun x hx => ?_, by decide⟩
    have hx' : x < 48 := hx
    rw [Nat.div_eq_of_lt (by simp only [BSIZE]; omega), HasBlock]
    decide
  · intro i hi
    rw [treeDisk_dir hi]
    decide
  · intro i n j _ hi hfind
    rw [treeDisk_dir hi] at hfind
    obtain ⟨de, hde, rfl⟩ := Option.map_eq_some_iff.mp hfind
    obtain ⟨htype, hnlink⟩ := hlinks de (List.mem_of_find?_eq_some hde)
    exact ⟨htype, hnlink⟩
  · intro i hi
    rw [List.mem_singleton.mp hi]
    exact ⟨by decide, by decide⟩

theorem lookups_follow_tree_small : ∃ p', run (pathStep smallSuper) treeOps treeSystem =
      .ok ([.inode 2, .nothing, .nothing, .nothing, .parent 1 [98], .nothing, .nothing], p') ∧
    p'.inums = [1, 1] ∧ p'.inodes.disk = treeDisk ∧ PathsOk smallSuper p' := by
  have hrun : (runFn (treeStep (diskTree smallSuper treeDisk)) treeOps [1]) =
      ([.inode 2, .nothing, .nothing, .nothing, .parent 1 [98], .nothing, .nothing], [1, 1]) := by decide +kernel
  have hpre : ∀ pre ∈ treeOps.inits, ¬ NINODE ≤
      (runFn (treeStep (diskTree smallSuper treeDisk)) pre [1]).2.length + 1 := by decide +kernel
  rcases lookups_follow_tree smallSuper treeOps treeSystem treeSystem_ok with
    ⟨-, pre, hprefix, hfull⟩ | ⟨p', hret, hnums, hdisk, hok⟩
  · exact absurd hfull (hpre pre ((List.mem_inits ..).mpr hprefix))
  · exact ⟨p', hret.trans (congrArg (fun x => Except.ok (x.1, p')) hrun),
      hnums.trans (congrArg Prod.snd hrun), hdisk, hok⟩

end Xv6.Fs
