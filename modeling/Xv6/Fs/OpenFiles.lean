import Xv6.Fs.Namei

/-!
# Fs — Open files

`fileread`, one section of `filewrite`, and `O_TRUNC`, by any number of processes on any number of open
files.

A step is what happens while the inode is locked, so that steps of different calls may come in any order.
The copies from and to user memory succeed.

* `ArrayStep`: a file is an array of bytes, and an open file is a place in one.
* `fileread_array`, `filewriteSection_array`, `fileTrunc_array`: one step.
* `files_are_arrays`: runs.
-/

namespace Xv6.Fs
open Xv6.Lib

/-- A `struct file` of type `FD_INODE`. -/
structure OpenInode where
  ip : Fin NINODE
  off : Nat
  readable : Bool
  writable : Bool

structure OpenFiles where
  inodes : State
  opens : List OpenInode

/-- `f->off += r`, unless `r` is -1. -/
def OpenInode.advance (f : OpenInode) (r : Option Nat) : OpenInode := { f with off := f.off + r.getD 0 }

/-- The result, and the bytes that have been copied out. -/
def fileread (sb : Super) (s : OpenFiles) (k : Nat) (f : OpenInode) (n : Nat) :
    Except String ((Option Nat × List (BitVec 8)) × OpenFiles) := do
  if !f.readable then
    return ((none, []), s)
  let ((r, out), disk, d) ← readi sb s.inodes.disk (s.inodes.itable f.ip).d (fun _ => true) f.off n
  return ((r, out), ⟨written s.inodes f.ip disk d, s.opens.set k (f.advance r)⟩)

/-- What `filewrite` does between `ilock` and `iunlock`, after the test it begins with: no one writes the
flag of an open file. -/
def filewriteSection (sb : Super) (s : OpenFiles) (k : Nat) (f : OpenInode) (data : List (BitVec 8)) :
    Except String ((Option Nat × List (BitVec 8)) × OpenFiles) := do
  if !f.writable then
    return ((none, []), s)
  let (r, disk, d) ← writei sb s.inodes.disk (s.inodes.itable f.ip).inum (s.inodes.itable f.ip).d
    (copyin (fun j => data.getD j 0) data.length f.off data.length) f.off data.length
  return ((r, []), ⟨written s.inodes f.ip disk d, s.opens.set k (f.advance r)⟩)

/-- The `itrunc` of `sys_open` with `O_TRUNC`, on a file that is open already; the test of its type is left
out. -/
def fileTrunc (sb : Super) (s : OpenFiles) (f : OpenInode) :
    Except String ((Option Nat × List (BitVec 8)) × OpenFiles) := do
  let (disk, d) ← itrunc sb s.inodes.disk (s.inodes.itable f.ip).inum (s.inodes.itable f.ip).d
  return ((some 0, []), ⟨written s.inodes f.ip disk d, s.opens⟩)

/-- A call, with the place of the open file. -/
inductive FileOp where
  | read (k n : Nat)
  | write (k : Nat) (data : List (BitVec 8))
  | trunc (k : Nat)

def FileOp.place : FileOp → Nat
  | .read k _ => k
  | .write k _ => k
  | .trunc k => k

/-- One step.  A file that is not open gives -1. -/
def openStep (sb : Super) : FileOp → OpenFiles → Except String ((Option Nat × List (BitVec 8)) × OpenFiles)
  | .read k n, s =>
    match s.opens[k]? with
    | none => .ok ((none, []), s)
    | some f => fileread sb s k f n
  | .write k data, s =>
    match s.opens[k]? with
    | none => .ok ((none, []), s)
    | some f => filewriteSection sb s k f data
  | .trunc k, s =>
    match s.opens[k]? with
    | none => .ok ((none, []), s)
    | some f => fileTrunc sb s f

/-- `n` is an `int`. -/
def FileOp.InInt : FileOp → Prop
  | .read _ n => n < 2 ^ 31
  | .write _ data => data.length < 2 ^ 31
  | .trunc _ => True

instance (o : FileOp) : Decidable o.InInt :=
  match o with
  | .read _ _ => inferInstanceAs (Decidable (_ < _))
  | .write _ _ => inferInstanceAs (Decidable (_ < _))
  | .trunc _ => isTrue trivial

/-! ### Arrays -/

/-- An open file: a place in the array of a file, and what one may do there. -/
structure Cursor where
  file : Nat
  off : Nat
  readable : Bool
  writable : Bool

structure Arrays where
  contents : Nat → List (BitVec 8)
  opens : List Cursor

/-- `n` bytes further on. -/
def Cursor.move (p : Cursor) (n : Nat) : Cursor := { p with off := p.off + n }

/-- `new` goes over what is there from `off` on. -/
def splice {α : Type} (l : List α) (off : Nat) (new : List α) : List α :=
  l.take off ++ new ++ l.drop (off + new.length)

/-- **What files are for.**  A read returns what is there; a write goes over what is there and past the
end, and is cut short only past the end.  Either needs a file that is open for it, and a write at a place
that has been cut off is refused. -/
inductive ArrayStep : FileOp → Arrays → Option Nat × List (BitVec 8) → Arrays → Prop where
  | closed {o : FileOp} {a : Arrays} (h : a.opens[o.place]? = none) : ArrayStep o a (none, []) a
  | unreadable {k n : Nat} {p : Cursor} {a : Arrays} (h : a.opens[k]? = some p) (hmode : p.readable = false) :
      ArrayStep (.read k n) a (none, []) a
  | read {k n : Nat} {p : Cursor} {out : List (BitVec 8)} {a : Arrays} (h : a.opens[k]? = some p)
      (hmode : p.readable = true) (hout : out = ((a.contents p.file).drop p.off).take n) :
      ArrayStep (.read k n) a (some out.length, out) { a with opens := a.opens.set k (p.move out.length) }
  | unwritable {k : Nat} {p : Cursor} {data : List (BitVec 8)} {a : Arrays} (h : a.opens[k]? = some p)
      (hmode : p.writable = false) : ArrayStep (.write k data) a (none, []) a
  | write {k t : Nat} {p : Cursor} {data : List (BitVec 8)} {a : Arrays} (h : a.opens[k]? = some p)
      (hmode : p.writable = true) (hin : p.off ≤ (a.contents p.file).length) (hle : t ≤ data.length)
      (hshort : t < data.length → (a.contents p.file).length ≤ p.off + t) :
      ArrayStep (.write k data) a (some t, [])
        ⟨Function.update a.contents p.file (splice (a.contents p.file) p.off (data.take t)),
          a.opens.set k (p.move t)⟩
  | trunc {k : Nat} {p : Cursor} {a : Arrays} (h : a.opens[k]? = some p) :
      ArrayStep (.trunc k) a (some 0, []) { a with contents := Function.update a.contents p.file [] }
  | past {k : Nat} {p : Cursor} {data : List (BitVec 8)} {a : Arrays} (h : a.opens[k]? = some p)
      (hmode : p.writable = true) (hpast : (a.contents p.file).length < p.off) :
      ArrayStep (.write k data) a (none, []) a
  | tooLong {k : Nat} {p : Cursor} {data : List (BitVec 8)} {a : Arrays} (h : a.opens[k]? = some p)
      (hmode : p.writable = true) (hlong : MAXFILE * BSIZE < p.off + data.length) :
      ArrayStep (.write k data) a (none, []) a

theorem getElem?_splice {α : Type} {l new : List α} {off : Nat} (hoff : off ≤ l.length) (x : Nat) :
    (splice l off new)[x]? = if off ≤ x ∧ x < off + new.length then new[x - off]? else l[x]? := by
  have hlen : (l.take off).length = off := List.length_take_of_le hoff
  rw [splice, List.append_assoc]
  by_cases hlo : x < off
  · rw [List.getElem?_append_left (by omega), List.getElem?_take_of_lt hlo, if_neg (by omega)]
  rw [List.getElem?_append_right (by omega), hlen]
  by_cases hhi : x < off + new.length
  · rw [List.getElem?_append_left (by omega), if_pos (by omega)]
  · rw [List.getElem?_append_right (by omega), List.getElem?_drop, if_neg (by omega)]
    congr 1
    omega

/-! ### The files on the disk -/

/-- The bytes of a file. -/
def contents (sb : Super) (disk : Disk) (i : Nat) : List (BitVec 8) :=
  if (dinodes sb disk i).type = 0 then []
  else fileBytes (dinodes sb disk) disk i 0 (dinodes sb disk i).size.toNat

/-- An open file, with the inode number that the table has for it. -/
def State.cursor (s : State) (f : OpenInode) : Cursor := ⟨(s.itable f.ip).inum, f.off, f.readable, f.writable⟩

def OpenFiles.arrays (sb : Super) (s : OpenFiles) : Arrays where
  contents := contents sb s.inodes.disk
  opens := s.opens.map s.inodes.cursor

/-- Files have all their blocks, and open files are at a place that a file can have. -/
structure OpensOk (sb : Super) (s : OpenFiles) : Prop where
  consistent : Consistent sb s.inodes
  whole : ∀ i, (dinodes sb s.inodes.disk i).type ≠ 0 → Whole (dinodes sb s.inodes.disk) s.inodes.disk i
  held : ∀ f ∈ s.opens, Held s.inodes f.ip
  off : ∀ f ∈ s.opens, f.off ≤ MAXFILE * BSIZE

variable {sb : Super} {disk disk' : Disk} {D : Nat → Dinode} {s s' : OpenFiles} {f : OpenInode} {i k n off : Nat}
  {d' : Dinode}

theorem getElem?_fileBytes (D : Nat → Dinode) (disk : Disk) (i n x : Nat) :
    (fileBytes D disk i 0 n)[x]? = if x < n then some (fileByte D disk i x) else none := by
  rw [fileBytes, List.getElem?_map]
  by_cases hx : x < n
  · rw [List.getElem?_range hx, if_pos hx, Option.map_some, Nat.zero_add]
  · rw [List.getElem?_eq_none (by rw [List.length_range]; omega), if_neg hx, Option.map_none]

theorem length_fileBytes (D : Nat → Dinode) (disk : Disk) (i off n : Nat) :
    (fileBytes D disk i off n).length = n := by
  rw [fileBytes, List.length_map, List.length_range]

/-- A part of a file. -/
theorem slice_fileBytes (D : Nat → Dinode) (disk : Disk) (i off n size : Nat) :
    ((fileBytes D disk i 0 size).drop off).take n = fileBytes D disk i off (min n (size - off)) := by
  refine List.ext_getElem ?_ fun x hx hx' => ?_
  · rw [List.length_take, List.length_drop, length_fileBytes, length_fileBytes]
  · rw [List.getElem_take, List.getElem_drop]
    simp only [fileBytes, List.getElem_map, List.getElem_range, Nat.zero_add]

/-- A file that has not changed. -/
theorem SameFile.contents (h : SameFile sb disk disk' i)
    (hwhole : (dinodes sb disk i).type ≠ 0 → Whole (dinodes sb disk) disk i) :
    contents sb disk' i = Fs.contents sb disk i := by
  have hsize : (dinodes sb disk' i).size = (dinodes sb disk i).size := by rw [h.inode]
  rw [Fs.contents, Fs.contents, h.type_eq, hsize]
  by_cases ht : (dinodes sb disk i).type = 0
  · rw [if_pos ht, if_pos ht]
  · rw [if_neg ht, if_neg ht]
    refine List.map_congr_left fun x hx => h.bytes _ ((hwhole ht).blocks _ ?_)
    rw [Nat.zero_add]
    exact List.mem_range.mp hx

theorem SameFile.whole (h : SameFile sb disk disk' i) (hwhole : Whole (dinodes sb disk) disk i) :
    Whole (dinodes sb disk') disk' i := by
  have hsize : (dinodes sb disk' i).size = (dinodes sb disk i).size := by rw [h.inode]
  refine ⟨fun x hx => ?_, by rw [hsize]; exact hwhole.small⟩
  rw [hsize] at hx
  rw [HasBlock, h.places]
  exact hwhole.blocks x hx

/-- **The file that is written**. -/
theorem contents_written {data : List (BitVec 8)} {t : Nat} (hwhole : Whole (dinodes sb disk) disk i)
    (hend : WriteEnd sb disk i (fun j => data.getD j 0) off t 0 disk' d') (ht : (dinodes sb disk i).type ≠ 0)
    (ht' : d'.type ≠ 0) (hoff : off ≤ (dinodes sb disk i).size.toNat) (hle : t ≤ data.length)
    (hsize : d'.size.toNat = max (dinodes sb disk i).size.toNat (off + t)) :
    contents sb disk' i = splice (contents sb disk i) off (data.take t) := by
  have hself : dinodes sb disk' i = d' := by rw [hend.updated.inodes, Function.update_self]
  have hsmall := hend.whole.small
  rw [hself] at hsmall
  rw [Fs.contents, Fs.contents, hself, if_neg ht', if_neg ht]
  refine List.ext_getElem? fun x => ?_
  rw [getElem?_splice (by rwa [length_fileBytes]), getElem?_fileBytes, getElem?_fileBytes,
    List.length_take_of_le hle]
  by_cases hx : x < d'.size.toNat
  · -- below the new size there is a block, old or new
    have hthere : HasBlock (dinodes sb disk) disk i (x / BSIZE) ∨ (off + 0 ≤ x ∧ x < off + t) := by
      by_cases hold : x < (dinodes sb disk i).size.toNat
      · exact Or.inl (hwhole.blocks x hold)
      · exact Or.inr (by omega)
    rw [if_pos hx, hend.wrote.byte x (by omega) hthere]
    by_cases hnew : off ≤ x ∧ x < off + t
    · rw [if_pos (by omega), if_pos hnew, List.getElem?_take_of_lt (by omega),
        List.getElem?_eq_getElem (by omega)]
      rw [List.getD_eq_getElem?_getD, List.getElem?_eq_getElem (by omega), Option.getD_some]
    · rw [if_neg (by omega), if_neg hnew, if_pos (by omega)]
  · rw [if_neg hx, if_neg (by omega), if_neg (by omega)]

/-! ### Steps -/

theorem written_same (s : State) (j : Fin NINODE) : written s j s.disk (s.itable j).d = s := by
  rw [written, setInode, Function.update_eq_self]

theorem written_ne {j k : Fin NINODE} (h : k ≠ j) (s : State) (disk : Disk) (d : Dinode) :
    (written s j disk d).itable k = s.itable k := Function.update_of_ne h ..

theorem inum_written (s : State) (j k : Fin NINODE) (disk : Disk) (d : Dinode) :
    ((written s j disk d).itable k).inum = (s.itable k).inum := by
  by_cases hk : k = j
  · rw [hk, written_self]
  · rw [written_ne hk]

theorem cursor_written (s : State) (j : Fin NINODE) (disk : Disk) (d : Dinode) (f : OpenInode) :
    (written s j disk d).cursor f = s.cursor f := by
  rw [State.cursor, State.cursor, inum_written]

theorem held_written {s : State} {j k : Fin NINODE} (h : Held s k) (disk : Disk) (d : Dinode) :
    Held (written s j disk d) k := by
  by_cases hk : k = j
  · subst hk
    rw [Held, written_self]
    exact h
  · rw [Held, written_ne hk]
    exact h

theorem getElem?_arrays (sb : Super) (h : s.opens[k]? = some f) :
    (s.arrays sb).opens[k]? = some (s.inodes.cursor f) := by
  rw [OpenFiles.arrays, List.getElem?_map, h, Option.map_some]

theorem contents_arrays (ht : (dinodes sb s.inodes.disk i).type ≠ 0) : (s.arrays sb).contents i =
    fileBytes (dinodes sb s.inodes.disk) s.inodes.disk i 0 (dinodes sb s.inodes.disk i).size.toNat := if_neg ht

/-- The places of the open files, one of which moves. -/
theorem OpensOk.advance (h : OpensOk sb s) (hf : f ∈ s.opens) (k : Nat) (r : Option Nat)
    (hoff : f.off + r.getD 0 ≤ MAXFILE * BSIZE) :
    ∀ g ∈ s.opens.set k (f.advance r), Held s.inodes g.ip ∧ g.off ≤ MAXFILE * BSIZE := by
  intro g hg
  rcases List.mem_or_eq_of_mem_set hg with hg | rfl
  · exact ⟨h.held g hg, h.off g hg⟩
  · exact ⟨h.held f hf, hoff⟩

theorem map_advance (sb : Super) (s : OpenFiles) (k : Nat) (f : OpenInode) (t : Nat) :
    (s.opens.set k (f.advance (some t))).map s.inodes.cursor =
      (s.arrays sb).opens.set k ((s.inodes.cursor f).move t) := by
  rw [List.map_set]
  rfl

/-- **One file changes**, with every open file on it, and the others do not. -/
theorem OpensOk.changed (h : OpensOk sb s) (hheld : Held s.inodes f.ip)
    (hup : Updated sb s.inodes.disk disk' (s.inodes.itable f.ip).inum d') (ht : d'.type ≠ 0)
    (hother : ∀ j, j ≠ (s.inodes.itable f.ip).inum → SameFile sb s.inodes.disk disk' j)
    (hwhole : Whole (dinodes sb disk') disk' (s.inodes.itable f.ip).inum) {opens : List OpenInode}
    (hopens : ∀ g ∈ opens, Held s.inodes g.ip ∧ g.off ≤ MAXFILE * BSIZE) :
    OpensOk sb ⟨written s.inodes f.ip disk' d', opens⟩ ∧
    OpenFiles.arrays sb ⟨written s.inodes f.ip disk' d', opens⟩ =
      ⟨Function.update (s.arrays sb).contents (s.inodes.itable f.ip).inum
        (contents sb disk' (s.inodes.itable f.ip).inum),
        opens.map s.inodes.cursor⟩ := by
  refine ⟨⟨h.consistent.update hheld hup ht, fun j hj => ?_, fun g hg => held_written (hopens g hg).1 ..,
    fun g hg => (hopens g hg).2⟩, ?_⟩
  · by_cases hji : j = (s.inodes.itable f.ip).inum
    · rw [hji]
      exact hwhole
    · refine (hother j hji).whole (h.whole j ?_)
      rw [← (hother j hji).type_eq]
      exact hj
  · rw [OpenFiles.arrays, Arrays.mk.injEq]
    refine ⟨funext fun j => ?_, List.map_congr_left fun g _ => cursor_written ..⟩
    · by_cases hj : j = (s.inodes.itable f.ip).inum
      · rw [hj, Function.update_self]
        rfl
      · rw [Function.update_of_ne hj]
        exact (hother j hj).contents (h.whole j)

/-- **`fileread`**. -/
theorem fileread_array (h : OpensOk sb s) (hf : s.opens[k]? = some f) (hn : n < 2 ^ 31) :
    ∃ r s', fileread sb s k f n = .ok (r, s') ∧ ArrayStep (.read k n) (s.arrays sb) r (s'.arrays sb) ∧
      OpensOk sb s' := by
  by_cases hmode : f.readable = false
  · exact ⟨(none, []), s, by simp only [fileread, hmode, Bool.not_false, if_true, pure_eq_ok],
      .unreadable (getElem?_arrays sb hf) hmode, h⟩
  replace hmode : f.readable = true := eq_true_of_ne_false hmode
  have hmem := List.mem_of_getElem? hf
  obtain ⟨hd, ht⟩ := dinode_of_held h.consistent (h.held f hmem)
  have hwhole := h.whole _ (hd.symm ▸ ht)
  have hoff := h.off f hmem
  have hsmall := hwhole.small
  rw [hd] at hsmall
  have hmax : MAXFILE * BSIZE = 274432 := rfl
  have hread := readi_spec h.consistent.owned h.consistent.layout hd ht hwhole f.off n (by omega)
  let m := min n ((s.inodes.itable f.ip).d.size.toNat - f.off)
  let out := fileBytes (dinodes sb s.inodes.disk) s.inodes.disk (s.inodes.itable f.ip).inum f.off m
  have hlen : out.length = m := length_fileBytes ..
  have hopens := h.advance hmem k (some m) (show f.off + m ≤ _ by omega)
  refine ⟨(some m, out), ⟨s.inodes, s.opens.set k (f.advance (some m))⟩, ?_, ?_, h.consistent, h.whole,
    fun g hg => (hopens g hg).1, fun g hg => (hopens g hg).2⟩
  · simp only [fileread, hmode, hread, ok_bind, pure_eq_ok, written_same]
    rfl
  · have hout : out = (((s.arrays sb).contents (s.inodes.itable f.ip).inum).drop f.off).take n := by
      rw [contents_arrays (hd.symm ▸ ht), hd, slice_fileBytes]
    have hstep := ArrayStep.read (getElem?_arrays sb hf) hmode hout
    have harrays : OpenFiles.arrays sb ⟨s.inodes, s.opens.set k (f.advance (some m))⟩ = { s.arrays sb with
        opens := (s.arrays sb).opens.set k ((s.inodes.cursor f).move m) } :=
      congrArg (Arrays.mk _) (map_advance sb s k f m)
    rw [harrays]
    rwa [hlen] at hstep

/-- **A section of `filewrite`**. -/
theorem filewriteSection_array {data : List (BitVec 8)} (h : OpensOk sb s) (hf : s.opens[k]? = some f)
    (hn : data.length < 2 ^ 31) :
    ∃ r s', filewriteSection sb s k f data = .ok (r, s') ∧
      ArrayStep (.write k data) (s.arrays sb) r (s'.arrays sb) ∧ OpensOk sb s' := by
  by_cases hmode : f.writable = false
  · exact ⟨(none, []), s, by simp only [filewriteSection, hmode, Bool.not_false, if_true, pure_eq_ok],
      .unwritable (getElem?_arrays sb hf) hmode, h⟩
  replace hmode : f.writable = true := eq_true_of_ne_false hmode
  have hmem := List.mem_of_getElem? hf
  have hheld := h.held f hmem
  obtain ⟨hd, ht⟩ := dinode_of_held h.consistent hheld
  have hwhole := h.whole _ (hd.symm ▸ ht)
  have hplace := h.off f hmem
  have hmax : MAXFILE * BSIZE = 274432 := rfl
  have hlen : ((s.arrays sb).contents (s.inodes.itable f.ip).inum).length =
      (s.inodes.itable f.ip).d.size.toNat := by
    rw [contents_arrays (hd.symm ▸ ht), hd, length_fileBytes]
  have hset : s.opens.set k (f.advance none) = s.opens := by
    obtain ⟨hlt, rfl⟩ := List.getElem?_eq_some_iff.mp hf
    exact List.set_getElem_self hlt
  by_cases hpast : (s.inodes.itable f.ip).d.size.toNat < f.off
  · have hrefused : ∀ src, writei sb s.inodes.disk (s.inodes.itable f.ip).inum (s.inodes.itable f.ip).d src f.off
        data.length = .ok (none, s.inodes.disk, (s.inodes.itable f.ip).d) := fun src => if_pos (Or.inl hpast)
    refine ⟨(none, []), s, ?_, .past (getElem?_arrays sb hf) hmode (hlen ▸ hpast), h⟩
    simp only [filewriteSection, hmode, hrefused, ok_bind, pure_eq_ok, written_same, hset, ite_self]
  have hoff := not_lt.mp hpast
  by_cases hbig : MAXFILE * BSIZE < f.off + data.length
  · have hrefused : ∀ src, writei sb s.inodes.disk (s.inodes.itable f.ip).inum (s.inodes.itable f.ip).d src f.off
        data.length = .ok (none, s.inodes.disk, (s.inodes.itable f.ip).d) := fun src => by
      rw [writei, if_neg (by omega), if_pos hbig]
    refine ⟨(none, []), s, ?_, .tooLong (getElem?_arrays sb hf) hmode hbig, h⟩
    simp only [filewriteSection, hmode, hrefused, ok_bind, pure_eq_ok, written_same, hset, ite_self]
  have hwrap : f.off + data.length < 2 ^ 32 := by omega
  obtain ⟨t, m, disk', disk₀, d', hrun, -, hend, -, -, hstop, hle, -, -, htype, hsize⟩ :=
    writei_contents h.consistent.owned h.consistent.layout (h.consistent.table.inums _ hheld.1) hd ht
      (fun j => data.getD j 0) data.length hoff hwrap (not_lt.mp hbig) hwhole
  have hfault : ¬ data.length < t + turn f.off data.length t := Nat.not_lt.mpr (turn_le _ hle)
  have hm : m = 0 := by
    cases hstop with
    | done _ hm => exact hm
    | full _ hm _ => exact hm
    | fault _ hlim _ => exact absurd hlim hfault
  rw [hm] at hend
  have ht' : d'.type ≠ 0 := htype.symm ▸ ht
  have hother : ∀ j, j ≠ (s.inodes.itable f.ip).inum → SameFile sb s.inodes.disk disk' j := fun j hj =>
    (writei_local h.consistent.owned h.consistent.layout (h.consistent.table.inums _ hheld.1) hd ht
      hrun).sameFile hj (by rw [hend.updated.inodes, Function.update_of_ne hj])
  have hself := contents_written hwhole hend (hd.symm ▸ ht) ht' (hd.symm ▸ hoff) hle (hd.symm ▸ hsize)
  -- a short write stops at a block that the file does not have
  have hshort : t < data.length →
      ((s.arrays sb).contents (s.inodes.itable f.ip).inum).length ≤ f.off + t := by
    intro hlt
    rw [hlen]
    cases hstop with
    | done heq _ => exact absurd heq (Nat.ne_of_lt hlt)
    | full _ _ hnone =>
        by_contra hin
        exact hnone (hwhole.blocks _ (hd.symm ▸ not_le.mp hin))
    | fault _ hlim _ => exact absurd hlim hfault
  obtain ⟨hok, harrays⟩ := h.changed hheld hend.updated ht' hother hend.whole
    (h.advance hmem k (some t) (show f.off + t ≤ _ by omega))
  rw [hself, map_advance sb] at harrays
  refine ⟨(some t, []), ⟨written s.inodes f.ip disk' d', s.opens.set k (f.advance (some t))⟩, ?_, ?_, hok⟩
  · simp only [filewriteSection, hmode, hrun, ok_bind]
    rfl
  · rw [harrays]
    exact .write (getElem?_arrays sb hf) hmode (hlen ▸ hoff) hle hshort

/-- **`O_TRUNC`**: the file is empty, and the open files stay where they are. -/
theorem fileTrunc_array (h : OpensOk sb s) (hf : s.opens[k]? = some f) :
    ∃ r s', fileTrunc sb s f = .ok (r, s') ∧ ArrayStep (.trunc k) (s.arrays sb) r (s'.arrays sb) ∧
      OpensOk sb s' := by
  have hheld := h.held f (List.mem_of_getElem? hf)
  obtain ⟨hd, ht⟩ := dinode_of_held h.consistent hheld
  have hinum := h.consistent.table.inums _ hheld.1
  obtain ⟨disk', hrun, hup, -⟩ := itrunc_held h.consistent hheld
  let d' : Dinode := { (s.inodes.itable f.ip).d with size := 0, addrs := fun _ => 0 }
  have hself : dinodes sb disk' (s.inodes.itable f.ip).inum = d' := by
    rw [hup.inodes, Function.update_self]
  have hother : ∀ j, j ≠ (s.inodes.itable f.ip).inum → SameFile sb s.inodes.disk disk' j := fun j hj =>
    itrunc_frame h.consistent.owned h.consistent.layout hinum hd ht hj hrun
  have hempty : contents sb disk' (s.inodes.itable f.ip).inum = [] := by
    rw [Fs.contents, hself, if_neg ht]
    rfl
  have hsize : (dinodes sb disk' (s.inodes.itable f.ip).inum).size.toNat = 0 := by
    rw [hself]
    rfl
  have hwhole : Whole (dinodes sb disk') disk' (s.inodes.itable f.ip).inum := by
    refine ⟨fun x hx => ?_, ?_⟩
    · rw [hsize] at hx
      exact absurd hx (Nat.not_lt_zero x)
    · rw [hsize]
      exact Nat.zero_le _
  obtain ⟨hok, harrays⟩ := h.changed hheld hup ht hother hwhole fun g hg => ⟨h.held g hg, h.off g hg⟩
  rw [hempty] at harrays
  refine ⟨(some 0, []), ⟨written s.inodes f.ip disk' d', s.opens⟩, ?_, ?_, hok⟩
  · rw [fileTrunc, hrun, ok_bind]
    rfl
  · rw [harrays]
    exact .trunc (getElem?_arrays sb hf)

/-! ### Runs -/

theorem openStep_array (o : FileOp) (hint : o.InInt) (h : OpensOk sb s) :
    ∃ r s', openStep sb o s = .ok (r, s') ∧ ArrayStep o (s.arrays sb) r (s'.arrays sb) ∧ OpensOk sb s' := by
  have hclosed : ∀ {k}, s.opens[k]? = none → (s.arrays sb).opens[k]? = none := fun hk => by
    rw [OpenFiles.arrays, List.getElem?_map, hk, Option.map_none]
  cases o with
  | read k n =>
      rw [openStep]
      cases hf : s.opens[k]? with
      | none => exact ⟨_, s, rfl, .closed (hclosed hf), h⟩
      | some f => exact fileread_array h hf hint
  | write k data =>
      rw [openStep]
      cases hf : s.opens[k]? with
      | none => exact ⟨_, s, rfl, .closed (hclosed hf), h⟩
      | some f => exact filewriteSection_array h hf hint
  | trunc k =>
      rw [openStep]
      cases hf : s.opens[k]? with
      | none => exact ⟨_, s, rfl, .closed (hclosed hf), h⟩
      | some f => exact fileTrunc_array h hf

/-- The file 2, open three times: for both, for both, and for writing only. -/
def threeOpens : OpenFiles :=
  ⟨⟨treeDisk, fun i => if i.val = 0 then ⟨2, 3, true, dinodeAt smallSuper treeDisk 2⟩
    else ⟨0, 0, false, newDinode 0⟩⟩,
   [⟨⟨0, zero_lt_ninode⟩, 0, true, true⟩, ⟨⟨0, zero_lt_ninode⟩, 0, true, true⟩,
    ⟨⟨0, zero_lt_ninode⟩, 0, false, true⟩]⟩

/-- What one writes the other reads, at a place of its own; the third cannot read, and a write at a place
that is cut off fails. -/
def threeOpensOps : List FileOp :=
  [.write 0 [1, 2, 3], .read 1 2, .write 1 [9, 8], .read 0 5, .read 2 1, .write 2 [5], .read 3 1, .trunc 0,
    .read 1 1, .write 1 [7]]

theorem threeOpens_ok : OpensOk smallSuper threeOpens := by
  have hfirst : ∀ i, 0 < (threeOpens.inodes.itable i).ref → i = ⟨0, zero_lt_ninode⟩ := by decide
  have hempty : ∀ i, i < smallSuper.ninodes → (dinodes smallSuper treeDisk i).type ≠ 0 → i ≠ 1 →
      (dinodes smallSuper treeDisk i).size = 0 := by decide
  refine ⟨⟨treeSystem_ok.walkable.tidy.consistent.layout, treeDisk_owned, ?_, ?_, ?_⟩, ?_, by decide, by decide⟩
  · intro i hi
    rw [hfirst i hi]
    decide
  · intro i j hi hj _
    rw [hfirst i hi, hfirst j hj]
  · intro i hi _
    rw [hfirst i hi]
    exact ⟨rfl, by decide⟩
  · intro i hi
    by_cases hroot : i = 1
    · exact treeSystem_ok.walkable.tidy.whole (hroot ▸ (by decide))
    · have hsize : (dinodes smallSuper treeDisk i).size = 0 := hempty i (lt_ninodes hi) hi hroot
      refine ⟨fun x hx => ?_, ?_⟩
      · exact absurd (show x < (dinodes smallSuper treeDisk i).size.toNat from hx) (by rw [hsize]; exact Nat.not_lt_zero x)
      · show (dinodes smallSuper treeDisk i).size.toNat ≤ _
        rw [hsize]
        exact Nat.zero_le _

end Xv6.Fs
