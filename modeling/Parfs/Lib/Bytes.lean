/-
Bytes, little-endian words and CRC-32C.

`leBytes` and `leValue` are how a packed struct lays an integer out; `crc32c` is
the update the x86 `crc32` instruction performs, byte by byte and without the
customary inversions.
-/
import Mathlib.Data.List.Basic
import Mathlib.Tactic.Ring

namespace Parfs.Lib

/-- The `k` low bytes of `n`, least significant first. -/
def leBytes : Nat → Nat → List UInt8
  | 0, _ => []
  | k + 1, n => n.toUInt8 :: leBytes k (n / 256)

@[simp] theorem leBytes_length (k n : Nat) : (leBytes k n).length = k := by
  induction k generalizing n with
  | zero => rfl
  | succ k ih => simp [leBytes, ih]

/-- The number a little-endian byte string denotes. -/
def leValue : List UInt8 → Nat
  | [] => 0
  | b :: bs => b.toNat + 256 * leValue bs

/-- Reading back what was laid out keeps the low bytes. -/
theorem leValue_leBytes (k n : Nat) : leValue (leBytes k n) = n % 256 ^ k := by
  induction k generalizing n with
  | zero => simp [leBytes, leValue, Nat.mod_one]
  | succ k ih =>
      have hbyte : n.toUInt8.toNat = n % 256 := by simp [Nat.toUInt8]
      rw [leBytes, leValue, ih, hbyte, pow_succ', Nat.mod_mul]

/-- One bit of the reflected Castagnoli polynomial division. -/
def crc32cBit (crc : UInt32) : UInt32 :=
  if crc &&& 1 = 1 then (crc >>> 1) ^^^ 0x82F63B78 else crc >>> 1

/-- Eight bits. -/
def crc32cByte (crc : UInt32) (b : UInt8) : UInt32 :=
  (List.range 8).foldl (fun c _ => crc32cBit c) (crc ^^^ b.toUInt32)

/-- The checksum of a byte string, continuing from `crc`. -/
def crc32c (crc : UInt32) (data : List UInt8) : UInt32 := data.foldl crc32cByte crc

end Parfs.Lib
