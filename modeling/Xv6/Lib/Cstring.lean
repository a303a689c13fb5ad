import Mathlib.Data.List.TakeWhile
import Mathlib.Tactic

/-!
# Lib — Cstring

Strings of C: the bytes from a pointer on, up to the first NUL.

What follows the list of the bytes is a NUL too.

* `deref`, `cstr`: the byte at the pointer, and the string there.
* `cstr_of_end`, `cstr_of_ne`: the string by its first byte.
-/

namespace Xv6.Lib

abbrev Byte := BitVec 8

def chr (c : Char) : Byte := BitVec.ofNat 8 c.toNat

/-- `*s` -/
def deref (s : List Byte) : Byte := s.headD 0

/-- The bytes of a string. -/
def cstr (s : List Byte) : List Byte := s.takeWhile fun c => decide (c ≠ 0)

variable {s : List Byte}

theorem cstr_of_end (h : deref s = 0) : cstr s = [] := by
  cases s with
  | nil => rfl
  | cons c s =>
      have hc : c = 0 := h
      exact List.takeWhile_cons_of_neg (by simpa using hc)

theorem cstr_of_ne (h : deref s ≠ 0) : cstr s = deref s :: cstr s.tail := by
  cases s with
  | nil => exact absurd rfl h
  | cons c s => exact List.takeWhile_cons_of_pos (decide_eq_true h)

theorem cstr_eq_nil_iff : cstr s = [] ↔ deref s = 0 := by
  refine ⟨fun h => ?_, cstr_of_end⟩
  by_contra hne
  rw [cstr_of_ne hne] at h
  cases h

end Xv6.Lib
