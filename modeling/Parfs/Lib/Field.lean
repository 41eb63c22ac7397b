/-
Fields of a machine word.

A word is a number; byte `o` of it is digit `o` to the base 256.  `getField` takes `k` bytes
out of it and `putField` replaces them.  What a proof needs is that a replaced field reads
back and that bytes beside it do not change.
-/
import Mathlib.Tactic.Ring
import Mathlib.Algebra.Order.Ring.Nat

namespace Parfs.Lib

variable {w w' o k v x : Nat}

/-- The number in `k` bytes from byte `o` of the word `w` on. -/
def getField (w o k : Nat) : Nat := w / 256 ^ o % 256 ^ k

/-- The number's low `k` bytes put in their place. -/
def putField (w o k v : Nat) : Nat :=
  w % 256 ^ o + v % 256 ^ k * 256 ^ o + w / 256 ^ (o + k) * 256 ^ (o + k)

theorem getField_lt : getField w o k < 256 ^ k := Nat.mod_lt _ (Nat.pow_pos (by omega))

theorem getField_mod : getField w o k = w % 256 ^ (o + k) / 256 ^ o := by
  unfold getField
  rw [pow_add, Nat.mod_mul_right_div_self]

theorem putField_split : putField w o k v =
    w % 256 ^ o + 256 ^ o * (v % 256 ^ k + 256 ^ k * (w / 256 ^ (o + k))) := by
  unfold putField
  rw [pow_add]
  ring

theorem putField_mod (h : x ≤ o) : putField w o k v % 256 ^ x = w % 256 ^ x := by
  obtain ⟨d, rfl⟩ : ∃ d, o = x + d := ⟨o - x, by omega⟩
  rw [putField_split, pow_add, Nat.mul_assoc, Nat.add_mul_mod_self_left,
    Nat.mod_mod_of_dvd _ (Dvd.intro _ rfl)]

theorem putField_div : putField w o k v / 256 ^ o = v % 256 ^ k + 256 ^ k * (w / 256 ^ (o + k)) := by
  have hpos : 0 < 256 ^ o := Nat.pow_pos (by omega)
  rw [putField_split, Nat.add_mul_div_left _ _ hpos, Nat.div_eq_of_lt (Nat.mod_lt _ hpos), Nat.zero_add]

/-- **Reading back.** -/
theorem getField_putField : getField (putField w o k v) o k = v % 256 ^ k := by
  unfold getField
  rw [putField_div, Nat.add_mul_mod_self_left, Nat.mod_mod]

/-- **Reading beside.** -/
theorem getField_putField_other {n : Nat} (h : x + n ≤ o ∨ o + k ≤ x) :
    getField (putField w o k v) x n = getField w x n := by
  rcases h with h | h
  · rw [getField_mod, putField_mod h, ← getField_mod]
  · obtain ⟨d, rfl⟩ : ∃ d, x = o + k + d := ⟨x - (o + k), by omega⟩
    have hpos : 0 < 256 ^ k := Nat.pow_pos (by omega)
    have hdiv : putField w o k v / 256 ^ (o + k) = w / 256 ^ (o + k) := by
      rw [pow_add, ← Nat.div_div_eq_div_mul, putField_div, Nat.add_mul_div_left _ _ hpos,
        Nat.div_eq_of_lt (Nat.mod_lt _ hpos), Nat.zero_add, pow_add]
    unfold getField
    rw [pow_add 256 (o + k) d, ← Nat.div_div_eq_div_mul, ← Nat.div_div_eq_div_mul, hdiv]

/-- **Putting back what is there.** -/
theorem putField_same (h : v % 256 ^ k = getField w o k) : putField w o k v = w := by
  have hdiv : w / 256 ^ o % 256 ^ k + 256 ^ k * (w / 256 ^ (o + k)) = w / 256 ^ o := by
    rw [pow_add, ← Nat.div_div_eq_div_mul, Nat.mod_add_div]
  rw [putField_split, h]
  unfold getField
  rw [hdiv, Nat.mod_add_div]

/-- A field inside another depends on no more. -/
theorem getField_inside {n i : Nat} (h : getField w o n = getField w' o n) (hi : i + k ≤ n) :
    getField w (o + i) k = getField w' (o + i) k := by
  have hpart : ∀ w, getField w (o + i) k = getField w o n / 256 ^ i % 256 ^ k := by
    intro w
    have hn : n = i + (n - i) := by omega
    unfold getField
    rw [hn, pow_add 256 i, Nat.mod_mul_right_div_self, Nat.div_div_eq_div_mul, ← pow_add,
      Nat.mod_mod_of_dvd _ (pow_dvd_pow 256 (by omega))]
  rw [hpart, hpart, h]

/-- A field is its bytes. -/
theorem getField_congr (h : ∀ i < k, getField w (o + i) 1 = getField w' (o + i) 1) :
    getField w o k = getField w' o k := by
  induction k generalizing o with
  | zero => simp [getField, Nat.mod_one]
  | succ k ih =>
      have hfirst := h 0 (Nat.succ_pos k)
      have hrest : getField w (o + 1) k = getField w' (o + 1) k := by
        refine ih fun i hi => ?_
        rw [Nat.add_assoc, Nat.add_comm 1 i]
        exact h (i + 1) (Nat.succ_lt_succ hi)
      have hsplit : ∀ w, getField w o (k + 1) = getField w o 1 + 256 * getField w (o + 1) k := by
        intro w
        unfold getField
        rw [pow_succ' 256 k, Nat.mod_mul, pow_one, pow_succ 256 o, Nat.div_div_eq_div_mul]
      rw [Nat.add_zero] at hfirst
      rw [hsplit, hsplit, hfirst, hrest]

end Parfs.Lib
