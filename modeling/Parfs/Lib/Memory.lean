/-
Byte memory.

A memory is a function from addresses to bytes.  `write` stores a byte string and `read`
fetches one; `word` and `setWord` do the same with a little-endian number of `k` bytes.
Everything a proof needs is what a read gives after a write to the same place and after a
write somewhere else.
-/
import Mathlib.Data.List.GetD
import Parfs.Lib.Bytes

namespace Parfs.Lib

/-- Addresses to bytes. -/
abbrev ByteMem : Type := Nat → UInt8

namespace ByteMem

variable {m m' : ByteMem} {a b k n v x : Nat} {bs : List UInt8}

/-- The bytes from `a` on replaced. -/
def write (m : ByteMem) (a : Nat) (bs : List UInt8) : ByteMem :=
  fun x => if a ≤ x ∧ x < a + bs.length then bs.getD (x - a) 0 else m x

/-- `n` bytes from `a` on. -/
def read (m : ByteMem) (a n : Nat) : List UInt8 := (List.range n).map fun i => m (a + i)

/-- The number in `k` bytes from `a` on. -/
def word (m : ByteMem) (a k : Nat) : Nat := leValue (m.read a k)

/-- The number's low `k` bytes stored from `a` on. -/
def setWord (m : ByteMem) (a k v : Nat) : ByteMem := m.write a (leBytes k v)

/-- Outside the bytes written nothing changes. -/
theorem write_of_outside (h : x < a ∨ a + bs.length ≤ x) : m.write a bs x = m x := by
  refine if_neg ?_
  omega

theorem write_of_inside (h : x < bs.length) : m.write a bs (a + x) = bs.getD x 0 := by
  unfold write
  rw [if_pos (by omega), Nat.add_sub_cancel_left]

@[simp] theorem read_length : (m.read a n).length = n := by simp [read]

theorem read_congr (h : ∀ x, a ≤ x → x < a + n → m x = m' x) : m.read a n = m'.read a n := by
  unfold read
  refine List.map_congr_left fun i hi => ?_
  rw [List.mem_range] at hi
  exact h _ (by omega) (by omega)

theorem read_append : m.read a (n + k) = m.read a n ++ m.read (a + n) k := by
  unfold read
  rw [List.range_add, List.map_append, List.map_map]
  exact congrArg _ (List.map_congr_left fun i _ => congrArg m (Nat.add_assoc a n i).symm)

/-- **Reading what was written.** -/
theorem read_write : (m.write a bs).read a bs.length = bs := by
  refine List.ext_getElem (by simp) fun i hi hi' => ?_
  simp only [read, List.getElem_map, List.getElem_range]
  rw [write_of_inside hi', List.getD_eq_getElem _ _ hi']

/-- **Reading beside what was written.** -/
theorem read_write_of_disjoint (h : a + n ≤ b ∨ b + bs.length ≤ a) :
    (m.write b bs).read a n = m.read a n :=
  read_congr fun x h1 h2 => write_of_outside (by omega)

theorem word_congr (h : ∀ x, a ≤ x → x < a + k → m x = m' x) : m.word a k = m'.word a k := by
  unfold word
  rw [read_congr h]

/-- Part of what was read. -/
theorem read_part {o : Nat} (h : o + k ≤ n) : m.read (a + o) k = ((m.read a n).drop o).take k := by
  refine List.ext_getElem (by simp; omega) fun i hi hi' => ?_
  simp [read, Nat.add_assoc]

theorem word_of_read {o : Nat} (h : o + k ≤ n) (hread : m.read a n = bs) :
    m.word (a + o) k = leValue ((bs.drop o).take k) := by
  unfold word
  rw [read_part h, hread]

/-- A field of a structure that was read as a whole. -/
theorem word_field {pre post : List UInt8} (h : m.read a n = pre ++ (leBytes k v ++ post)) :
    m.word (a + pre.length) k = v % 256 ^ k := by
  have hlen : n = pre.length + (k + post.length) := by
    have hlength := congrArg List.length h
    simpa using hlength
  rw [word_of_read (by omega) h, List.drop_append_of_le_length (le_refl _),
    List.drop_of_length_le (le_refl _), List.nil_append, List.take_append_of_le_length (by rw [leBytes_length]),
    List.take_of_length_le (by rw [leBytes_length]), leValue_leBytes]

theorem word_setWord (hv : v < 256 ^ k) : (m.setWord a k v).word a k = v := by
  have hread : (m.write a (leBytes k v)).read a k = leBytes k v := by
    simpa using @read_write m a (leBytes k v)
  unfold word setWord
  rw [hread, leValue_leBytes, Nat.mod_eq_of_lt hv]

theorem setWord_of_outside (h : x < a ∨ a + k ≤ x) : m.setWord a k v x = m x :=
  write_of_outside (by rw [leBytes_length]; exact h)

theorem word_setWord_of_disjoint (h : a + n ≤ b ∨ b + k ≤ a) :
    (m.setWord b k v).word a n = m.word a n :=
  word_congr fun _ h1 h2 => setWord_of_outside (by omega)

theorem word_write_of_disjoint (h : a + n ≤ b ∨ b + bs.length ≤ a) :
    (m.write b bs).word a n = m.word a n :=
  word_congr fun _ h1 h2 => write_of_outside (by omega)

theorem leValue_lt (bs : List UInt8) : leValue bs < 256 ^ bs.length := by
  induction bs with
  | nil => simp [leValue]
  | cons b bs ih =>
      have hb := b.toNat_lt
      rw [leValue, List.length_cons, pow_succ]
      omega

theorem word_lt : m.word a k < 256 ^ k := by
  have h := leValue_lt (m.read a k)
  rwa [read_length] at h

/-! ### Two writes -/

/-- Writes beside each other. -/
theorem write_comm {cs : List UInt8} (h : a + bs.length ≤ b ∨ b + cs.length ≤ a) :
    (m.write a bs).write b cs = (m.write b cs).write a bs := by
  funext x
  unfold write
  by_cases ha : a ≤ x ∧ x < a + bs.length
  · rw [if_neg (by omega), if_pos ha, if_pos ha]
  · rw [if_neg ha, if_neg ha]

/-- A write over an earlier one. -/
theorem write_covered {cs : List UInt8} (hlo : b ≤ a) (hhi : a + bs.length ≤ b + cs.length) :
    (m.write a bs).write b cs = m.write b cs := by
  funext x
  unfold write
  by_cases hb : b ≤ x ∧ x < b + cs.length
  · rw [if_pos hb, if_pos hb]
  · rw [if_neg hb, if_neg hb, if_neg (by omega)]

/-- Writing what is there. -/
theorem write_read_self (h : m.read a bs.length = bs) : m.write a bs = m := by
  funext x
  by_cases hx : a ≤ x ∧ x < a + bs.length
  · obtain ⟨i, rfl⟩ := Nat.exists_eq_add_of_le hx.1
    have hi : i < bs.length := by omega
    have hat : bs.getD i 0 = (m.read a bs.length).getD i 0 := by rw [h]
    rw [write_of_inside hi, hat, List.getD_eq_getElem _ _ (by simpa using hi)]
    simp [read]
  · exact write_of_outside (by omega)

/-- A part of what was written. -/
theorem read_write_part {o : Nat} (h : o + k ≤ bs.length) : (m.write a bs).read (a + o) k = (bs.drop o).take k := by
  rw [read_part h, read_write]

end ByteMem

end Parfs.Lib
