/-
Bytes under exclusive or.

A word is xored byte by byte, so it makes no difference how wide the words are in which memory
is xored.  And a family of bytes can be told from its xor: put in the place of a member, the xor
of all gives that member back.
-/
import Mathlib.Data.Nat.Bitwise
import Parfs.Lib.Memory

namespace Parfs.Lib

/-- Byte `j` of a little-endian number. -/
def byteAt (n j : Nat) : UInt8 := (n / 256 ^ j).toUInt8

/-- The xor of the first `n` members. -/
def xorAll (f : Nat → UInt8) (n : Nat) : UInt8 := (List.range n).foldl (fun x i => x ^^^ f i) 0

variable {f : Nat → UInt8} {a b j k n w : Nat}

theorem byteAt_xor (a b j : Nat) : byteAt (a ^^^ b) j = byteAt a j ^^^ byteAt b j := by
  have hpow : 256 ^ j = 2 ^ (8 * j) := by
    rw [pow_mul]
    norm_num
  refine UInt8.toNat_inj.1 ?_
  rw [UInt8.toNat_xor]
  unfold byteAt
  simp only [hpow, Nat.xor_div_two_pow, Nat.toUInt8_eq, UInt8.toNat_ofNat']
  exact Nat.xor_mod_two_pow

theorem byteAt_foldl_xor (v : Nat → Nat) (j : Nat) (l : List Nat) : ∀ x,
    byteAt (l.foldl (fun x i => x ^^^ v i) x) j = l.foldl (fun x i => x ^^^ byteAt (v i) j) (byteAt x j) := by
  induction l with
  | nil => intro x; rfl
  | cons i l ih =>
      intro x
      rw [List.foldl_cons, List.foldl_cons, ih, byteAt_xor]

/-! ### Words in memory -/

theorem leBytes_getD : ∀ {k j : Nat}, j < k → ∀ n, (leBytes k n).getD j 0 = byteAt n j
  | k + 1, 0, _, n => by simp [leBytes, byteAt]
  | k + 1, j + 1, hj, n => by
      rw [leBytes, List.getD_cons_succ, leBytes_getD (Nat.lt_of_succ_lt_succ hj)]
      unfold byteAt
      rw [Nat.div_div_eq_div_mul, pow_succ']

theorem byteAt_leValue : ∀ (bs : List UInt8) (j : Nat), j < bs.length → byteAt (leValue bs) j = bs.getD j 0
  | b :: bs, 0, _ => by
      have hb := b.toNat_lt
      refine UInt8.toNat_inj.1 ?_
      unfold byteAt leValue
      simp only [pow_zero, Nat.div_one, Nat.toUInt8_eq, UInt8.toNat_ofNat', List.getD_cons_zero]
      omega
  | b :: bs, j + 1, hj => by
      have hb := b.toNat_lt
      have hrest : leValue (b :: bs) / 256 = leValue bs := by
        rw [leValue]
        omega
      rw [List.getD_cons_succ, ← byteAt_leValue bs j (Nat.lt_of_succ_lt_succ hj)]
      unfold byteAt
      rw [pow_succ', ← Nat.div_div_eq_div_mul, hrest]

/-- A word's bytes are the memory's. -/
theorem byteAt_word {m : ByteMem} (hj : j < k) : byteAt (m.word a k) j = m (a + j) := by
  unfold ByteMem.word
  rw [byteAt_leValue _ _ (by simpa using hj), List.getD_eq_getElem _ _ (by simpa using hj)]
  simp [ByteMem.read]

/-- A word as it lies in memory. -/
theorem leBytes_word {m : ByteMem} : leBytes k (m.word a k) = m.read a k := by
  refine List.ext_getElem (by simp) fun j hj hj' => ?_
  rw [leBytes_length] at hj
  rw [← List.getD_eq_getElem _ 0, leBytes_getD hj, byteAt_word hj]
  simp [ByteMem.read]

/-- Words of `w` bytes, one behind the other. -/
theorem flatMap_leBytes (hw : 0 < w) (v : Nat → Nat) (n : Nat) :
    (List.range n).flatMap (fun i => leBytes w (v i)) =
      (List.range (w * n)).map fun j => byteAt (v (j / w)) (j % w) := by
  induction n with
  | zero => rfl
  | succ n ih =>
      have hlast : leBytes w (v n) = (List.range w).map fun j => byteAt (v n) j := by
        refine List.ext_getElem (by simp) fun j hj hj' => ?_
        rw [leBytes_length] at hj
        rw [← List.getD_eq_getElem _ 0, leBytes_getD hj]
        simp
      rw [List.range_succ, List.flatMap_append, ih, List.flatMap_singleton, Nat.mul_succ, List.range_add,
        List.map_append, List.map_map, hlast]
      refine congrArg _ (List.map_congr_left fun j hj => ?_)
      rw [List.mem_range] at hj
      show _ = byteAt (v ((w * n + j) / w)) ((w * n + j) % w)
      rw [Nat.mul_add_div hw, Nat.div_eq_of_lt hj, Nat.add_zero, Nat.mul_add_mod, Nat.mod_eq_of_lt hj]

/-! ### Recovering a member -/

theorem xorAll_succ (f : Nat → UInt8) (n : Nat) : xorAll f (n + 1) = xorAll f n ^^^ f n := by
  simp [xorAll, List.range_succ]

theorem xorAll_congr {g : Nat → UInt8} (h : ∀ i < n, f i = g i) : xorAll f n = xorAll g n := by
  induction n with
  | zero => rfl
  | succ n ih => rw [xorAll_succ, xorAll_succ, ih fun i hi => h i (Nat.lt_succ_of_lt hi), h n (Nat.lt_succ_self n)]

/-- Another member in the place of `a` changes the xor by the two of them. -/
theorem xorAll_set (h : a < n) (x : UInt8) :
    xorAll (fun i => if i = a then x else f i) n = xorAll f n ^^^ f a ^^^ x := by
  induction n with
  | zero => omega
  | succ n ih =>
      rw [xorAll_succ, xorAll_succ]
      by_cases hlast : a = n
      · subst hlast
        rw [if_pos rfl, xorAll_congr (g := f) fun i hi => if_neg (by omega), UInt8.xor_assoc (xorAll f a), UInt8.xor_self,
          UInt8.xor_zero]
      · rw [ih (by omega), if_neg (Ne.symm hlast), UInt8.xor_assoc _ (f a), UInt8.xor_assoc _ (f a),
          UInt8.xor_assoc _ _ (f n), UInt8.xor_comm _ (f n), UInt8.xor_assoc]

/-- **The xor of all in the place of one gives that one back.** -/
theorem xorAll_recover (h : a < n) : xorAll (fun i => if i = a then xorAll f n else f i) n = f a := by
  rw [xorAll_set h, UInt8.xor_comm (xorAll f n), UInt8.xor_assoc, UInt8.xor_self, UInt8.xor_zero]

end Parfs.Lib
