/-
Tiles on a circle.

Tiles follow each other without a gap from one position to another.  Positions only grow; the
place of a tile is its position modulo the length of the circle.  As long as all of them together
are no longer than the circle, a place tells a position, and tiles that do not go over the end
of the circle do not meet.
-/
import Mathlib.Data.List.Pairwise
import Mathlib.Data.Nat.ModEq
import Mathlib.Tactic.Ring

namespace Parfs.Lib

/-! ### Places -/

section Places

variable {N p q n m : Nat}

/-- Less than a circle apart, two positions have different places. -/
theorem mod_unique (hle : p ≤ q) (hlt : q < p + N) (h : p % N = q % N) : p = q := by
  obtain ⟨d, rfl⟩ := Nat.exists_eq_add_of_le hle
  have hd : (p + d - p) % N = 0 := Nat.sub_mod_eq_zero_of_mod_eq h.symm
  rw [Nat.add_sub_cancel_left, Nat.mod_eq_of_lt (by omega)] at hd
  omega

/-- What does not meet on the line does not meet on the circle. -/
theorem mod_apart (hn : p + n ≤ q) (hm : q + m ≤ p + N) (hpos : 0 < N) :
    p % N + n ≤ q % N ∨ q % N + m ≤ p % N := by
  have hpdiv := Nat.div_add_mod p N
  have hqdiv := Nat.div_add_mod q N
  have hplt := Nat.mod_lt p hpos
  have hqlt := Nat.mod_lt q hpos
  have hdiv : p / N ≤ q / N := Nat.div_le_div_right (by omega)
  obtain ⟨k, hk⟩ := Nat.exists_eq_add_of_le hdiv
  rw [hk, Nat.mul_add] at hqdiv
  rcases k with _ | _ | k
  · left
    rw [Nat.mul_zero] at hqdiv
    omega
  · right
    rw [Nat.mul_one] at hqdiv
    omega
  · exfalso
    have hbig : N * 2 ≤ N * (k + 1 + 1) := Nat.mul_le_mul_left N (by omega)
    omega

/-- How far apart places are. -/
theorem mod_dist (hle : p ≤ q) (hlt : q < p + N) : q % N = p % N + (q - p) ∨ q % N + N = p % N + (q - p) := by
  have hpdiv := Nat.div_add_mod p N
  have hqdiv := Nat.div_add_mod q N
  have hplt := Nat.mod_lt p (show 0 < N by omega)
  have hqlt := Nat.mod_lt q (show 0 < N by omega)
  obtain ⟨k, hk⟩ := Nat.exists_eq_add_of_le (Nat.div_le_div_right (c := N) hle)
  rw [hk, Nat.mul_add] at hqdiv
  rcases k with _ | _ | k
  · left
    rw [Nat.mul_zero] at hqdiv
    omega
  · right
    rw [Nat.mul_one] at hqdiv
    omega
  · exfalso
    have hbig : N * 2 ≤ N * (k + 1 + 1) := Nat.mul_le_mul_left N (by omega)
    omega

end Places

/-! ### Tiles -/

section Tiles

variable {S : Type} {pos len : S → Nat} {a b c t : Nat} {l A B : List S} {s x y : S}

/-- Tiles from `a` to `b`. -/
def Tiles (pos len : S → Nat) : Nat → List S → Nat → Prop
  | a, [], b => a = b
  | a, s :: l, b => pos s = a ∧ 0 < len s ∧ Tiles pos len (a + len s) l b

/-- No tile lies across the position. -/
def Between (pos len : S → Nat) (l : List S) (t : Nat) : Prop := ∀ s ∈ l, pos s + len s ≤ t ∨ t ≤ pos s

theorem tiles_append : Tiles pos len a (A ++ B) c ↔ ∃ b, Tiles pos len a A b ∧ Tiles pos len b B c := by
  induction A generalizing a with
  | nil => simp [Tiles]
  | cons s A ih =>
      simp only [List.cons_append, Tiles, ih]
      constructor
      · intro ⟨hpos, hlen, b, hA, hB⟩
        exact ⟨b, ⟨hpos, hlen, hA⟩, hB⟩
      · intro ⟨b, ⟨hpos, hlen, hA⟩, hB⟩
        exact ⟨hpos, hlen, b, hA, hB⟩

theorem Tiles.le (h : Tiles pos len a l b) : a ≤ b := by
  induction l generalizing a with
  | nil => exact Nat.le_of_eq h
  | cons s l ih => exact Nat.le_trans (Nat.le_add_right _ _) (ih h.2.2)

theorem Tiles.mem (h : Tiles pos len a l b) (hs : s ∈ l) : a ≤ pos s ∧ pos s + len s ≤ b ∧ 0 < len s := by
  induction l generalizing a with
  | nil => simp at hs
  | cons x l ih =>
      obtain ⟨hpos, hlen, hrest⟩ := h
      rcases List.mem_cons.mp hs with rfl | hs
      · exact ⟨Nat.le_of_eq hpos.symm, hpos ▸ hrest.le, hlen⟩
      · obtain ⟨hlo, hhi⟩ := ih hrest hs
        exact ⟨by omega, hhi⟩

/-- One after another. -/
theorem Tiles.pairwise (h : Tiles pos len a l b) : l.Pairwise fun x y => pos x + len x ≤ pos y := by
  induction l generalizing a with
  | nil => exact List.Pairwise.nil
  | cons x l ih =>
      obtain ⟨hpos, -, hrest⟩ := h
      refine List.pairwise_cons.mpr ⟨fun y hy => ?_, ih hrest⟩
      rw [hpos]
      exact (hrest.mem hy).1

/-- Two of them that are not one. -/
theorem Tiles.apart (h : Tiles pos len a l b) (hx : x ∈ l) (hy : y ∈ l) (hne : x ≠ y) :
    pos x + len x ≤ pos y ∨ pos y + len y ≤ pos x := by
  have hsymm : Std.Symm fun x y => pos x + len x ≤ pos y ∨ pos y + len y ≤ pos x := ⟨fun _ _ hxy => hxy.symm⟩
  have hpair : l.Pairwise fun x y => pos x + len x ≤ pos y ∨ pos y + len y ≤ pos x := h.pairwise.imp Or.inl
  exact hpair.forall hx hy hne

/-- A position has one tile. -/
theorem Tiles.pos_inj (h : Tiles pos len a l b) (hx : x ∈ l) (hy : y ∈ l) (heq : pos x = pos y) : x = y := by
  by_contra hne
  have hxlen := (h.mem hx).2.2
  have hylen := (h.mem hy).2.2
  rcases h.apart hx hy hne with hle | hle <;> omega

theorem Tiles.cut_end (h : Tiles pos len a l b) : Between pos len l b := fun _ hs => Or.inl (h.mem hs).2.1

theorem Tiles.cut_start (h : Tiles pos len a l b) : Between pos len l a := fun _ hs => Or.inr (h.mem hs).1

/-- Between two tiles, those before and those after. -/
theorem Tiles.split (h : Tiles pos len a l b) (hcut : Between pos len l t) (hlo : a ≤ t) (hhi : t ≤ b) :
    ∃ A B, l = A ++ B ∧ Tiles pos len a A t ∧ Tiles pos len t B b := by
  induction l generalizing a with
  | nil =>
      have hab : a = b := h
      have hat : a = t := by omega
      exact ⟨[], [], rfl, hat, by rw [← hat]; exact h⟩
  | cons s l ih =>
      obtain ⟨hpos, hlen, hrest⟩ := h
      rcases hcut s List.mem_cons_self with hle | hle
      · obtain ⟨A, B, rfl, hA, hB⟩ := ih hrest (fun x hx => hcut x (List.mem_cons_of_mem _ hx)) (by omega)
        exact ⟨s :: A, B, rfl, ⟨hpos, hlen, hA⟩, hB⟩
      · have hat : a = t := by omega
        exact ⟨[], s :: l, rfl, hat, by rw [← hat]; exact ⟨hpos, hlen, hrest⟩⟩

/-- The tile that starts where another one ends. -/
theorem Tiles.tile (h : Tiles pos len a l b) (hcut : Between pos len l t) (hlo : a ≤ t) (hhi : t < b) : ∃ s ∈ l, pos s = t := by
  obtain ⟨A, B, rfl, -, hB⟩ := h.split hcut hlo (Nat.le_of_lt hhi)
  cases B with
  | nil => exact absurd hB (Nat.ne_of_lt hhi)
  | cons s B => exact ⟨s, by simp, hB.1⟩

/-- The position behind a tile is between two tiles. -/
theorem Tiles.cut_next (h : Tiles pos len a l b) (hs : s ∈ l) : Between pos len l (pos s + len s) := by
  intro x hx
  by_cases hne : x = s
  · exact Or.inl (Nat.le_of_eq (by rw [hne]))
  · rcases h.apart hx hs hne with hle | hle
    · exact Or.inl (Nat.le_trans hle (Nat.le_add_right _ _))
    · exact Or.inr hle

theorem Between.next_le (h : Between pos len l t) (hs : s ∈ l) (hlt : pos s < t) : pos s + len s ≤ t :=
  (h s hs).resolve_right (Nat.not_le.mpr hlt)

end Tiles

end Parfs.Lib
