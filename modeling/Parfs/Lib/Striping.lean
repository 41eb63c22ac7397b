/-
Round-robin striping.

Blocks come in groups of `g`; the groups are dealt to `n` places in turn.  Block `b`
goes to place `b / g % n`, where it is block number `b / g / n * g + b % g`.  The pair
determines the block, and the first `d` blocks fill at each place exactly an initial
segment, whose length `share` gives.
-/
import Mathlib.Tactic.Ring

namespace Parfs.Lib.Striping

variable {n g d r o b : Nat}

/-- Where a block goes. -/
def place (n g b : Nat) : Nat := b / g % n

/-- Which block it is there. -/
def offset (n g b : Nat) : Nat := b / g / n * g + b % g

/-- The block that is number `o` at place `r`. -/
def block (n g r o : Nat) : Nat := (o / g * n + r) * g + o % g

/-- How many of the first `d` blocks go to place `r`. -/
def share (n g d r : Nat) : Nat := d / (n * g) * g + min g (d % (n * g) - r * g)

/-- Two numbers written in mixed radix compare digit by digit. -/
theorem mul_add_lt_iff {p k q s m : Nat} (hs : s < p) (hm : m ≤ p) :
    k * p + s < q * p + m ↔ k < q ∨ (k = q ∧ s < m) := by
  rcases lt_trichotomy k q with hlt | rfl | hgt
  · have hmul : (k + 1) * p ≤ q * p := Nat.mul_le_mul_right p hlt
    rw [Nat.add_mul, Nat.one_mul] at hmul
    constructor
    · intro _
      exact Or.inl hlt
    · intro _
      omega
  · constructor
    · intro h
      exact Or.inr ⟨rfl, by omega⟩
    · rintro (h | ⟨-, h⟩)
      · exact absurd h (lt_irrefl k)
      · omega
  · have hmul : (q + 1) * p ≤ k * p := Nat.mul_le_mul_right p hgt
    rw [Nat.add_mul, Nat.one_mul] at hmul
    constructor
    · intro h
      omega
    · rintro (h | ⟨h, -⟩) <;> omega

theorem place_lt (hn : 0 < n) : place n g b < n := Nat.mod_lt _ hn

/-- A block is the block at its own place and offset. -/
theorem block_place_offset (hg : 0 < g) : block n g (place n g b) (offset n g b) = b := by
  unfold block place offset
  have hmod : (b / g / n * g + b % g) % g = b % g := by
    rw [Nat.mul_add_mod_self_right, Nat.mod_mod]
  have hdiv : (b / g / n * g + b % g) / g = b / g / n := by
    rw [Nat.mul_comm, Nat.mul_add_div hg, Nat.div_eq_of_lt (Nat.mod_lt _ hg), Nat.add_zero]
  have hidx : b / g / n * n + b / g % n = b / g := by
    rw [Nat.mul_comm]
    exact Nat.div_add_mod _ _
  rw [hdiv, hmod, hidx, Nat.mul_comm]
  exact Nat.div_add_mod _ _

theorem place_block (hg : 0 < g) (hr : r < n) : place n g (block n g r o) = r := by
  unfold place block
  have hdiv : ((o / g * n + r) * g + o % g) / g = o / g * n + r := by
    rw [Nat.mul_comm, Nat.mul_add_div hg, Nat.div_eq_of_lt (Nat.mod_lt _ hg), Nat.add_zero]
  rw [hdiv, Nat.mul_add_mod_self_right, Nat.mod_eq_of_lt hr]

theorem offset_block (hg : 0 < g) (hr : r < n) : offset n g (block n g r o) = o := by
  unfold offset block
  have hdiv : ((o / g * n + r) * g + o % g) / g = o / g * n + r := by
    rw [Nat.mul_comm, Nat.mul_add_div hg, Nat.div_eq_of_lt (Nat.mod_lt _ hg), Nat.add_zero]
  have hmod : ((o / g * n + r) * g + o % g) % g = o % g := by
    rw [Nat.mul_add_mod_self_right, Nat.mod_mod]
  have hidx : (o / g * n + r) / n = o / g := by
    rw [Nat.mul_comm, Nat.mul_add_div (by omega), Nat.div_eq_of_lt hr, Nat.add_zero]
  rw [hdiv, hmod, hidx, Nat.mul_comm]
  exact Nat.div_add_mod _ _

/-- **Place and offset determine the block.** -/
theorem place_offset_inj {b' : Nat} (hg : 0 < g) (hplace : place n g b = place n g b')
    (hoffset : offset n g b = offset n g b') : b = b' := by
  rw [← block_place_offset (n := n) (b := b) hg, hplace, hoffset, block_place_offset hg]

/-- **The first `d` blocks fill an initial segment of each place.** -/
theorem block_lt_iff (hg : 0 < g) (hr : r < n) : block n g r o < d ↔ o < share n g d r := by
  have hpos : 0 < n * g := Nat.mul_pos (by omega) hg
  have hj : o % g < g := Nat.mod_lt _ hg
  have hs : r * g + o % g < n * g := by
    have hmul : (r + 1) * g ≤ n * g := Nat.mul_le_mul_right g hr
    rw [Nat.add_mul, Nat.one_mul] at hmul
    omega
  have hblock : block n g r o = o / g * (n * g) + (r * g + o % g) := by
    unfold block
    ring
  have hd : d = d / (n * g) * (n * g) + d % (n * g) := by
    rw [Nat.mul_comm]
    exact (Nat.div_add_mod _ _).symm
  have ho : o = o / g * g + o % g := by
    rw [Nat.mul_comm]
    exact (Nat.div_add_mod _ _).symm
  have hleft : block n g r o < d ↔
      o / g < d / (n * g) ∨ (o / g = d / (n * g) ∧ r * g + o % g < d % (n * g)) := by
    rw [hblock]
    conv_lhs => rw [hd]
    exact mul_add_lt_iff hs (Nat.le_of_lt (Nat.mod_lt _ hpos))
  have hright : o < share n g d r ↔
      o / g < d / (n * g) ∨ (o / g = d / (n * g) ∧ o % g < min g (d % (n * g) - r * g)) := by
    unfold share
    conv_lhs => rw [ho]
    exact mul_add_lt_iff hj (Nat.min_le_left _ _)
  rw [hleft, hright]
  refine or_congr_right (and_congr_right fun _ => ?_)
  omega

/-- A property of all pairs the first `d` blocks take is one of all places and shares. -/
theorem forall_lt_iff (hn : 0 < n) (hg : 0 < g) {P : Nat → Nat → Prop} :
    (∀ b < d, P (place n g b) (offset n g b)) ↔ ∀ r < n, ∀ o < share n g d r, P r o := by
  constructor
  · intro h r hr o ho
    have := h (block n g r o) ((block_lt_iff hg hr).mpr ho)
    rwa [place_block hg hr, offset_block hg hr] at this
  · intro h b hb
    refine h _ (place_lt hn) _ ?_
    rw [← block_lt_iff hg (place_lt hn), block_place_offset hg]
    exact hb

end Parfs.Lib.Striping
