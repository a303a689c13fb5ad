import Xv6.Lib.Cstring
import Xv6.Lib.Split
import Xv6.Fs.Defs

/-!
# Fs — Name

Names of directory entries: `strncmp`, `strncpy`, `namecmp`.

A string is the list of its bytes from a pointer on; what follows the list is a NUL.  A name is held
in `DIRSIZ` bytes, and a name of that length has no NUL.

* `cname`: the name that a buffer holds.
* `namecmp_eq_zero`: `namecmp` compares names.
-/

namespace Xv6.Fs
open Xv6.Lib

abbrev DIRSIZ : Nat := 14

def strncmp : Nat → List Byte → List Byte → Int
  | 0, _, _ => 0
  | n + 1, p, q =>
    if deref p ≠ 0 ∧ deref p = deref q then strncmp n p.tail q.tail
    else (deref p).toNat - (deref q).toNat

/-- The `n` bytes that `strncpy` writes. -/
def strncpy : Nat → List Byte → List Byte
  | 0, _ => []
  | n + 1, t => if deref t = 0 then List.replicate (n + 1) 0 else deref t :: strncpy n t.tail

def namecmp (s t : List Byte) : Int := strncmp DIRSIZ s t

/-- `struct dirent`; the name has `DIRSIZ` bytes. -/
structure Dirent where
  inum : BitVec 16
  name : List Byte
  deriving DecidableEq

/-- The first live entry with a name. -/
def findDirent (dents : List Dirent) (name : List Byte) : Option Dirent :=
  dents.find? fun de => decide (de.inum ≠ 0) && decide (namecmp name de.name = 0)

/-! ### The name in a buffer -/

variable {s t : List Byte} {n : Nat}

def cname (s : List Byte) : List Byte := (cstr s).take DIRSIZ

theorem strncmp_eq_zero : ∀ (n : Nat) (s t : List Byte),
    strncmp n s t = 0 ↔ (cstr s).take n = (cstr t).take n := by
  intro n
  induction n with
  | zero => exact fun s t => by simp [strncmp]
  | succ n ih =>
      intro s t
      by_cases hs : deref s = 0
      · rw [strncmp, if_neg fun h => h.1 hs, cstr_of_end hs]
        by_cases ht : deref t = 0
        · simp [hs, ht, cstr_of_end ht]
        · have : (deref t).toNat ≠ 0 := fun h0 => ht (BitVec.eq_of_toNat_eq h0)
          simp [hs, cstr_of_ne ht, this]
      · rw [cstr_of_ne hs]
        by_cases hst : deref s = deref t
        · have ht : deref t ≠ 0 := hst ▸ hs
          rw [strncmp, if_pos ⟨hs, hst⟩, ih, cstr_of_ne ht, hst]
          simp
        · have hne : ((deref s).toNat : Int) - (deref t).toNat ≠ 0 := by
            have : (deref s).toNat ≠ (deref t).toNat := fun h => hst (BitVec.eq_of_toNat_eq h)
            omega
          rw [strncmp, if_neg fun h => hst h.2]
          by_cases ht : deref t = 0
          · simp [cstr_of_end ht, hne]
          · simp [cstr_of_ne ht, hne, hst]

/-- **`namecmp`** compares the names that two buffers hold. -/
theorem namecmp_eq_zero : namecmp s t = 0 ↔ cname s = cname t := strncmp_eq_zero DIRSIZ s t

theorem strncpy_length : ∀ (n : Nat) (t : List Byte), (strncpy n t).length = n := by
  intro n
  induction n with
  | zero => exact fun _ => rfl
  | succ n ih =>
      intro t
      rw [strncpy]
      by_cases ht : deref t = 0
      · rw [if_pos ht, List.length_replicate]
      · rw [if_neg ht, List.length_cons, ih]

theorem cstr_strncpy : ∀ (n : Nat) (t : List Byte), cstr (strncpy n t) = (cstr t).take n := by
  intro n
  induction n with
  | zero => exact fun t => by simp [strncpy, cstr]
  | succ n ih =>
      intro t
      rw [strncpy]
      by_cases ht : deref t = 0
      · rw [if_pos ht, cstr_of_end ht, List.replicate_succ]
        exact cstr_of_end rfl
      · rw [if_neg ht, cstr_of_ne ht, List.take_succ_cons, ← ih]
        exact cstr_of_ne ht

/-- `strncpy` stores the name. -/
theorem cname_strncpy (t : List Byte) : cname (strncpy DIRSIZ t) = cname t := by
  rw [cname, cstr_strncpy, List.take_take, Nat.min_self, cname]

/-- The first live entry that holds a name. -/
theorem findDirent_eq (dents : List Dirent) (name : List Byte) : findDirent dents name =
    dents.find? fun de => decide (de.inum ≠ 0) && decide (cname de.name = cname name) := by
  refine congrArg (fun p => dents.find? p) (funext fun de => ?_)
  congr 1
  exact decide_eq_decide.mpr (namecmp_eq_zero.trans eq_comm)

end Xv6.Fs
