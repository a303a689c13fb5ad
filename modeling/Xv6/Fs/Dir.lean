import Xv6.Lib.Slots
import Xv6.Fs.Contents
import Xv6.Fs.Name

/-!
# Fs — Dir

Directories: `dirlookup`, `dirlink`, `isdirempty`, and the removal of an entry in `sys_unlink`.

A directory is a file of 16-byte records.  All of these functions go through it with `readi`, by one loop
`scanDirents` that differs in where it stops.

* `scanDirents_spec`: the loop is a search in the list `entriesOf` of what the file holds.
* `dirlookup_spec`: `dirlookup` is `iget` of what `lookup` finds.
-/

namespace Xv6.Fs
open Xv6.Lib

abbrev T_DIR : BitVec 16 := 1

/-- The size of a `struct dirent`. -/
abbrev DIRENT : Nat := 16

/-- The bytes of a `struct dirent`; the low byte of `inum` is first. -/
def Dirent.bytes (de : Dirent) : List Byte :=
  de.inum.setWidth 8 :: (de.inum >>> 8).setWidth 8 :: de.name

def Dirent.ofBytes (l : List Byte) : Dirent := ⟨l.getD 1 0 ++ l.getD 0 0, l.drop 2⟩

/-- The loop over the entries of directory `dp` from `off` on.  It ends where `stop` holds, with the
offset and the entry, or at the end; `err` is the panic after a short read. -/
def scanDirents (sb : Super) (err : String) (stop : Dirent → Bool) (dp : Fin NINODE) :
    Nat → Nat → State → Except String ((Nat × Option Dirent) × State)
  | 0, _, _ => .error "scanDirents: no turn left"
  | turns + 1, off, s =>
    let ip := s.itable dp
    if off < ip.d.size.toNat then do
      let ((n, out), disk, d) ← readi sb s.disk ip.d (fun _ => true) off DIRENT
      if n ≠ some DIRENT then .error err
      else
        let s := setInode { s with disk := disk } dp { ip with d := d }
        let de := Dirent.ofBytes out
        if stop de then return ((off, some de), s)
        else scanDirents sb err stop dp turns (off + DIRENT) s
    else .ok ((off, none), s)

/-- The inode and the offset of the entry, or `none` for 0. -/
def dirlookup (sb : Super) (s : State) (dp : Fin NINODE) (name : List Byte) :
    Except String (Option (Fin NINODE × Nat) × State) :=
  if (s.itable dp).d.type ≠ T_DIR then .error "dirlookup not DIR"
  else do
    let ((off, found), s) ← scanDirents sb "dirlookup read"
      (fun de => decide (de.inum ≠ 0) && decide (namecmp name de.name = 0)) dp
      ((s.itable dp).d.size.toNat + 1) 0 s
    match found with
    | none => return (none, s)
    | some de => do
      let (ip, s) ← iget s de.inum.toNat
      return (some (ip, off), s)

/-- `writei` of an entry that is in the kernel's memory. -/
def writeDirent (sb : Super) (s : State) (dp : Fin NINODE) (de : Dirent) (off : Nat) :
    Except String (Option Nat × State) := do
  let ip := s.itable dp
  let (n, disk, d) ← writei sb s.disk ip.inum ip.d
    (copyin (fun j => de.bytes.getD j 0) DIRENT off DIRENT) off DIRENT
  return (n, setInode { s with disk := disk } dp { ip with d := d })

def dirlink (sb : Super) (s : State) (dp : Fin NINODE) (name : List Byte) (inum : Nat) :
    Except String (Int × State) := do
  let (found, s) ← dirlookup sb s dp name
  match found with
  | some (ip, _) => do
    let s ← iput sb s ip
    return (-1, s)
  | none => do
    let ((off, _), s) ← scanDirents sb "dirlink read" (fun de => decide (de.inum = 0)) dp
      ((s.itable dp).d.size.toNat + 1) 0 s
    let (n, s) ← writeDirent sb s dp ⟨BitVec.ofNat 16 inum, strncpy DIRSIZ name⟩ off
    if n ≠ some DIRENT then return (-1, s) else return (0, s)

/-- `memset(&de, 0, sizeof(de))` -/
def emptyDirent : Dirent := ⟨0, List.replicate DIRSIZ 0⟩

/-- The part of `sys_unlink` that is about the directory: the entry is looked up and cleared.  The inode
is put as at the end of `sys_unlink`. -/
def clearDirent (sb : Super) (s : State) (dp : Fin NINODE) (name : List Byte) :
    Except String (Int × State) := do
  let (found, s) ← dirlookup sb s dp name
  match found with
  | none => return (-1, s)
  | some (ip, off) => do
    let (n, s) ← writeDirent sb s dp emptyDirent off
    if n ≠ some DIRENT then .error "unlink: writei"
    else do
      let s ← iput sb s ip
      return (0, s)

def isdirempty (sb : Super) (s : State) (dp : Fin NINODE) : Except String (Bool × State) := do
  let ((_, found), s) ← scanDirents sb "isdirempty: readi" (fun de => decide (de.inum ≠ 0)) dp
    ((s.itable dp).d.size.toNat + 1) (2 * DIRENT) s
  return (found.isNone, s)

/-! ### The entries of a directory -/

variable {sb : Super} {s s' : State} {dp : Fin NINODE} {de : Dirent} {name : List Byte} {k : Nat}

/-- Entry `k` of file `i`. -/
def direntAt (D : Nat → Dinode) (disk : Disk) (i k : Nat) : Dirent :=
  .ofBytes (fileBytes D disk i (DIRENT * k) DIRENT)

/-- What file `i` holds as a directory. -/
def dirents (D : Nat → Dinode) (disk : Disk) (i : Nat) : List Dirent :=
  (List.range ((D i).size.toNat / DIRENT)).map (direntAt D disk i)

def entriesOf (sb : Super) (s : State) (dp : Fin NINODE) : List Dirent :=
  dirents (dinodes sb s.disk) s.disk (s.itable dp).inum

/-- A locked directory: in memory as on disk, and of whole entries. -/
structure DirOk (sb : Super) (s : State) (dp : Fin NINODE) : Prop where
  layout : sb.Ok
  owned : Owned sb (dinodes sb s.disk) s.disk
  held : Held s dp
  inum : (s.itable dp).inum < sb.ninodes
  cached : dinodes sb s.disk (s.itable dp).inum = (s.itable dp).d
  type : (s.itable dp).d.type = T_DIR
  whole : Whole (dinodes sb s.disk) s.disk (s.itable dp).inum
  aligned : DIRENT ∣ (s.itable dp).d.size.toNat

theorem Dirent.bytes_length (h : de.name.length = DIRSIZ) : de.bytes.length = DIRENT := by
  rw [Dirent.bytes, List.length_cons, List.length_cons, h]

/-- What is written is read. -/
theorem Dirent.ofBytes_bytes (de : Dirent) : ofBytes de.bytes = de := by
  have hinum : (de.inum >>> 8).setWidth 8 ++ de.inum.setWidth 8 = de.inum := by
    refine BitVec.eq_of_getLsbD_eq fun i hi => ?_
    simp only [BitVec.getLsbD_append, BitVec.getLsbD_setWidth, BitVec.getLsbD_ushiftRight]
    by_cases h : i < 8
    · simp [h]
    · have hlt : i - 8 < 8 := by omega
      simp [h, hlt, Nat.add_sub_of_le (not_lt.mp h)]
  exact congrArg (Dirent.mk · de.name) hinum

namespace DirOk

theorem type_ne (h : DirOk sb s dp) : (s.itable dp).d.type ≠ 0 := by
  rw [h.type]
  decide

theorem size_eq (h : DirOk sb s dp) :
    (s.itable dp).d.size.toNat = DIRENT * (entriesOf sb s dp).length := by
  rw [entriesOf, dirents, List.length_map, List.length_range, h.cached]
  exact (Nat.mul_div_cancel' h.aligned).symm

theorem small (h : DirOk sb s dp) : DIRENT * (entriesOf sb s dp).length ≤ MAXFILE * BSIZE := by
  have := h.whole.small
  rwa [h.cached, h.size_eq] at this

theorem getElem_eq (h : k < (entriesOf sb s dp).length) : (entriesOf sb s dp)[k] =
    direntAt (dinodes sb s.disk) s.disk (s.itable dp).inum k := by
  simp only [entriesOf, dirents, List.getElem_map, List.getElem_range]

end DirOk

theorem setInode_self (s : State) (i : Fin NINODE) : setInode s i (s.itable i) = s :=
  congrArg (State.mk s.disk) (Function.update_eq_self ..)

/-- One read of the loop. -/
theorem readi_dirent (h : DirOk sb s dp) (hk : k < (entriesOf sb s dp).length) :
    readi sb s.disk (s.itable dp).d (fun _ => true) (DIRENT * k) DIRENT =
      .ok ((some DIRENT, fileBytes (dinodes sb s.disk) s.disk (s.itable dp).inum (DIRENT * k) DIRENT),
        s.disk, (s.itable dp).d) := by
  have hsize := h.size_eq
  have hsmall := h.small
  have hn : min DIRENT ((s.itable dp).d.size.toNat - DIRENT * k) = DIRENT := by
    simp only [DIRENT] at *
    omega
  have hwrap : DIRENT * k + DIRENT < 2 ^ 32 := by
    simp only [DIRENT, MAXFILE, NDIRECT, NINDIRECT, BSIZE] at *
    omega
  rw [readi_spec h.owned h.layout h.cached h.type_ne h.whole _ _ hwrap, hn]

/-- **The loop** is a search. -/
theorem scanDirents_spec (h : DirOk sb s dp) (err : String) (stop : Dirent → Bool) :
    ∀ (turns k : Nat), (entriesOf sb s dp).length < turns + k → k ≤ (entriesOf sb s dp).length →
    scanDirents sb err stop dp turns (DIRENT * k) s =
      .ok ((DIRENT * (k + ((entriesOf sb s dp).drop k).findIdx stop),
        ((entriesOf sb s dp).drop k).find? stop), s) := by
  intro turns
  induction turns with
  | zero => exact fun k hlt hle => absurd hlt (by omega)
  | succ turns ih =>
      intro k hlt hle
      rw [scanDirents, h.size_eq]
      by_cases hk : k < (entriesOf sb s dp).length
      · have hsame : setInode { s with disk := s.disk } dp { s.itable dp with d := (s.itable dp).d } = s :=
          setInode_self s dp
        have hentry : Dirent.ofBytes (fileBytes (dinodes sb s.disk) s.disk (s.itable dp).inum
            (DIRENT * k) DIRENT) = (entriesOf sb s dp)[k] := (DirOk.getElem_eq hk).symm
        simp only [if_pos (Nat.mul_lt_mul_of_pos_left hk (by decide : 0 < DIRENT)),
          readi_dirent h hk, ok_bind, ne_eq, not_true_eq_false, if_false, hsame, hentry, pure_eq_ok]
        rw [List.drop_eq_getElem_cons hk, List.findIdx_cons, List.find?_cons]
        by_cases hstop : stop (entriesOf sb s dp)[k] = true
        · simp only [hstop, if_true, cond_true, Nat.add_zero]
        · have hnext : DIRENT * k + DIRENT = DIRENT * (k + 1) := rfl
          rw [if_neg hstop, hnext, ih (k + 1) (by omega) hk, Bool.not_eq_true _ |>.mp hstop]
          simp only [cond_false, Nat.add_assoc, Nat.add_comm 1]
      · have hend : k = (entriesOf sb s dp).length := by omega
        rw [if_neg (by rw [hend]; exact lt_irrefl _), hend, List.drop_length]
        rfl

/-! ### `dirlookup` -/

def isLive (de : Dirent) : Bool := decide (de.inum ≠ 0)

def nameOf (de : Dirent) : List Byte := cname de.name

/-- What the directory has under a name. -/
def lookup (sb : Super) (s : State) (dp : Fin NINODE) (n : List Byte) : Option Nat :=
  (Slots.find isLive nameOf (entriesOf sb s dp) n).map fun de => de.inum.toNat

/-- Where it is. -/
def entryOff (sb : Super) (s : State) (dp : Fin NINODE) (n : List Byte) : Nat :=
  DIRENT * Slots.place isLive nameOf (entriesOf sb s dp) n

/-- `iget` of what has been found at `off`. -/
def getFound (s : State) (off : Nat) (found : Option Nat) :
    Except String (Option (Fin NINODE × Nat) × State) :=
  match found with
  | none => .ok (none, s)
  | some inum => do
    let (ip, s) ← iget s inum
    return (some (ip, off), s)

theorem matches_name (name : List Byte) :
    (fun de : Dirent => decide (de.inum ≠ 0) && decide (namecmp name de.name = 0)) =
      fun de => isLive de && decide (nameOf de = cname name) := by
  funext de
  rw [isLive, nameOf]
  congr 1
  exact decide_eq_decide.mpr (namecmp_eq_zero.trans eq_comm)

/-- **`dirlookup`** gets what the directory has under the name. -/
theorem dirlookup_spec (h : DirOk sb s dp) (name : List Byte) : dirlookup sb s dp name =
    getFound s (entryOff sb s dp (cname name)) (lookup sb s dp (cname name)) := by
  have hscan := scanDirents_spec h "dirlookup read"
    (fun de => decide (de.inum ≠ 0) && decide (namecmp name de.name = 0))
    ((s.itable dp).d.size.toNat + 1) 0 (by rw [h.size_eq]; simp only [DIRENT]; omega) (Nat.zero_le _)
  have hzero : DIRENT * 0 = 0 := rfl
  rw [hzero, List.drop_zero, Nat.zero_add, matches_name] at hscan
  rw [dirlookup, if_neg (not_not.mpr h.type), matches_name, hscan, ok_bind]
  have hfind : (entriesOf sb s dp).find? (fun de => isLive de && decide (nameOf de = cname name)) =
    Slots.find isLive nameOf (entriesOf sb s dp) (cname name) := rfl
  rw [hfind, lookup]
  cases Slots.find isLive nameOf (entriesOf sb s dp) (cname name) with
  | none => rfl
  | some de => rfl

/-- A directory that is not too long answers as the `Tree` of path names. -/
theorem lookup_findDirent (name : List Byte) : lookup sb s dp (cname name) =
    (findDirent (entriesOf sb s dp) name).map fun de => de.inum.toNat := by
  rw [findDirent_eq]
  rfl

/-- **`isdirempty`** looks at the entries after `.` and `..`. -/
theorem isdirempty_spec (h : DirOk sb s dp) (htwo : 2 ≤ (entriesOf sb s dp).length) :
    isdirempty sb s dp =
      .ok (decide (∀ de ∈ (entriesOf sb s dp).drop 2, de.inum = 0), s) := by
  have hscan := scanDirents_spec h "isdirempty: readi" (fun de => decide (de.inum ≠ 0))
    ((s.itable dp).d.size.toNat + 1) 2 (by rw [h.size_eq]; simp only [DIRENT]; omega) htwo
  have htwo' : DIRENT * 2 = 2 * DIRENT := rfl
  rw [htwo'] at hscan
  rw [isdirempty, hscan, ok_bind]
  refine congrArg (fun b => Except.ok (b, s)) ?_
  rw [Bool.eq_iff_iff, Option.isNone_iff_eq_none, List.find?_eq_none]
  simp

end Xv6.Fs
