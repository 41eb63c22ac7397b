/-
Fixed-width arithmetic over `Nat` and `Int`.

The kernel computes in `unsigned long`, `unsigned int` and `int`.  Sums of block
numbers never come near the word size, so the models add in `Nat`; what does
matter is a subtraction that may go below zero and a narrowing that may drop bits,
and those are the functions here.  Each comes with the two facts a proof needs:
what it is when nothing wraps, and what it is when something does.
-/
import Mathlib.Tactic.Ring

namespace Parfs.Lib

/-- `a - b` in 64-bit unsigned arithmetic. -/
def subU64 (a b : Nat) : Nat := (a + 2 ^ 64 - b) % 2 ^ 64

theorem subU64_of_le {a b : Nat} (hba : b ≤ a) (ha : a < 2 ^ 64) : subU64 a b = a - b := by
  unfold subU64
  omega

theorem subU64_of_lt {a b : Nat} (hab : a < b) (hb : b ≤ 2 ^ 64) :
    subU64 a b = 2 ^ 64 - (b - a) := by
  unfold subU64
  omega

/-- Narrowing to `unsigned int`. -/
def toU32 (a : Nat) : Nat := a % 2 ^ 32

theorem toU32_of_lt {a : Nat} (h : a < 2 ^ 32) : toU32 a = a := Nat.mod_eq_of_lt h

/-- Narrowing to `int`, two's complement. -/
def toS32 (a : Int) : Int := Int.bmod a (2 ^ 32)

theorem toS32_of_lt {a : Nat} (h : a < 2 ^ 31) : toS32 (a : Int) = (a : Int) := by
  have hmod : (a : Int) % ((2 ^ 32 : Nat) : Int) = a := Int.emod_eq_of_lt (by omega) (by omega)
  unfold toS32 Int.bmod
  simp only [hmod]
  rw [if_pos (by omega)]

/-- A signed value converted to `unsigned long`. -/
def intToU64 (a : Int) : Nat := (a % 2 ^ 64).toNat

/-! ### Error codes -/

/-- The `errno` values the modelled functions return, negated by the caller. -/
inductive Errno where
  | eio | eagain | enomem | eacces | efault | einval | enospc | enxio
  deriving DecidableEq, Repr

/-- The number the kernel gives each of them. -/
def Errno.code : Errno → Int
  | .eio => 5
  | .eagain => 11
  | .enomem => 12
  | .eacces => 13
  | .efault => 14
  | .einval => 22
  | .enospc => 28
  | .enxio => 6

theorem Errno.code_pos (e : Errno) : 0 < e.code := by
  cases e <;> decide

end Parfs.Lib
