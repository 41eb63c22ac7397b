/-
CRC-32C shows every change of a single byte.

A step of the division can be undone: the polynomial has its highest bit, so the highest bit of
the result tells which bit was shifted out.  Hence neither a byte nor the checksum before it is
lost in the checksum after it.
-/
import Mathlib.Data.UInt
import Parfs.Lib.Bytes

namespace Parfs.Lib

theorem crc32cBit_toNat (c : UInt32) :
    (crc32cBit c).toNat = if c.toNat % 2 = 1 then c.toNat / 2 ^^^ 0x82F63B78 else c.toNat / 2 := by
  have hodd : (c &&& 1 = 1) ↔ c.toNat % 2 = 1 := by
    rw [← UInt32.toNat_inj, UInt32.toNat_and]
    exact (congrArg (· = 1) (Nat.and_one_is_mod _)).to_iff
  unfold crc32cBit
  by_cases h : c.toNat % 2 = 1
  · rw [if_pos (hodd.2 h), if_pos h, UInt32.toNat_xor, UInt32.toNat_shiftRight]
    simp [Nat.shiftRight_eq_div_pow]
  · rw [if_neg (fun hc => h (hodd.1 hc)), if_neg h, UInt32.toNat_shiftRight]
    simp [Nat.shiftRight_eq_div_pow]

/-- The highest bit of the polynomial is set, so the bit shifted out shows there. -/
theorem crc32cBit_injective : Function.Injective crc32cBit := by
  intro x y h
  have hx := x.toNat_lt
  have hy := y.toNat_lt
  have htop : ∀ n < 2 ^ 31, (n ^^^ 0x82F63B78) ≥ 2 ^ 31 := by
    intro n hn
    refine Nat.ge_two_pow_of_testBit ?_
    rw [Nat.testBit_xor, Nat.testBit_lt_two_pow hn]
    decide
  have hnat := congrArg UInt32.toNat h
  rw [crc32cBit_toNat, crc32cBit_toNat] at hnat
  have hx' := htop (x.toNat / 2) (by omega)
  have hy' := htop (y.toNat / 2) (by omega)
  refine UInt32.toNat_inj.1 ?_
  split at hnat <;> split at hnat
  · have hhalf := congrArg (· ^^^ 0x82F63B78) hnat
    simp only [Nat.xor_assoc, Nat.xor_self, Nat.xor_zero] at hhalf
    omega
  · omega
  · omega
  · omega

theorem foldl_injective {α β : Type} {f : α → β → α} (h : ∀ b, Function.Injective fun a => f a b) :
    ∀ l : List β, Function.Injective fun a => l.foldl f a
  | [] => fun _ _ => id
  | b :: l => fun _ _ hab => h b (foldl_injective h l hab)

/-- Another byte, another checksum. -/
theorem crc32cByte_injective (c : UInt32) : Function.Injective (crc32cByte c) := by
  intro a b h
  have hxor := foldl_injective (fun _ => crc32cBit_injective) (List.range 8) h
  have hbyte : a.toUInt32 = b.toUInt32 := by
    have := congrArg (c ^^^ ·) hxor
    simpa [← UInt32.xor_assoc] using this
  have := congrArg UInt32.toNat hbyte
  simpa [UInt8.toNat_inj] using this

theorem crc32cByte_left_injective (b : UInt8) : Function.Injective fun c => crc32cByte c b := by
  intro c d h
  have hxor := foldl_injective (fun _ => crc32cBit_injective) (List.range 8) h
  have := congrArg (· ^^^ b.toUInt32) hxor
  simpa [UInt32.xor_assoc] using this

/-- **A checksum shows every change of a single byte.** -/
theorem crc32c_ne_of_byte (crc : UInt32) (l l' : List UInt8) {a b : UInt8} (hab : a ≠ b) :
    crc32c crc (l ++ a :: l') ≠ crc32c crc (l ++ b :: l') := by
  intro h
  simp only [crc32c, List.foldl_append, List.foldl_cons] at h
  exact hab (crc32cByte_injective _ (foldl_injective crc32cByte_left_injective l' h))
end Parfs.Lib
