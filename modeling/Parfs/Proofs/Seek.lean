/-
What a seek finds.

The search counts the pages in front of the first one of the kind it looks for, and says whether
it came by a hole and by a mapped page.  It includes the page of the size, which is behind the
end when the size is a whole number of pages, and a hole that goes on to the end is taken for the
end itself.  These are the two places where a seek of a file with blocks goes wrong; a file without
blocks has its whole size returned as an error code.
-/
import Mathlib.Order.Bounds.Basic
import Parfs.Proofs.FileHoles
import Parfs.Seek

namespace Parfs

open Lib

/-- An entry does not start behind the pages mapped to it. -/
def FileTree.Covered (f : FileTree) : Prop := ∀ q x, f.tree.slot q = some x → (f.entries x).pgoff ≤ q

theorem FileTree.NoHole.covered {f : FileTree} (h : f.NoHole) : f.Covered := fun q x hq => (h q x hq).1

/-! ### The search -/

section Search

variable {f : FileTree} {lo hi last fuel : Nat}

/-- Where the search goes on behind a page that is not mapped. -/
def pastHole (f : FileTree) (last pgoff : Nat) : Nat :=
  match novaFindNextEntry f pgoff with
  | some entry => if max (pgoff + 1) (f.entries entry).pgoff > last then last + 1 else max (pgoff + 1) (f.entries entry).pgoff
  | none => pgoff + 1

theorem lookupHoleLoop_hole {hole : Bool} {r : HoleLookup} (hend : hi ≤ last) (hslot : f.tree.slot hi = none) :
    lookupHoleLoop f last hole (fuel + 1) hi r = lookupHoleLoop f last hole fuel (pastHole f last hi)
      { r with holeFound := true, blocks := if hole then r.blocks else r.blocks + (pastHole f last hi - hi) } := by
  have hmax : ∀ a b : Nat, (if a > b then a else b) = max a b := by
    intro a b
    split <;> omega
  rw [lookupHoleLoop, if_pos hend]
  simp only [hslot, hmax]
  unfold pastHole
  cases novaFindNextEntry f hi <;> cases hole <;> simp

theorem FileTree.Covered.behind (h : f.Covered) (hslot : f.tree.slot hi = none) (hle : hi ≤ last) :
    hi < pastHole f last hi ∧ pastHole f last hi ≤ last + 1 ∧
      ∀ q, hi ≤ q → q < pastHole f last hi → f.tree.slot q = none := by
  unfold pastHole
  cases hfind : novaFindNextEntry f hi with
  | none =>
      dsimp only
      refine ⟨Nat.lt_succ_self _, by omega, fun q hlo hhi => ?_⟩
      obtain rfl : q = hi := by omega
      exact hslot
  | some entry =>
      obtain ⟨r, hr, hentry, hbefore⟩ := Radix.next_some hfind
      have hpgoff := h r entry hentry
      have hne : r ≠ hi := fun heq => by simp [heq, hslot] at hentry
      dsimp only
      refine ⟨by split <;> omega, by split <;> omega, fun q hlo hhi => ?_⟩
      refine hbefore q hlo ?_
      split at hhi <;> omega

/-- Looking for data: up to the first mapped page. -/
theorem FileTree.Covered.lookupData (h : f.Covered) (lo hi last fuel : Nat) (hlo : lo ≤ hi) (hle : hi ≤ last + 1) (hfuel : last + 1 ≤ hi + fuel)
    (hnone : ∀ q, lo ≤ q → q < hi → f.tree.slot q = none) :
    ∃ k, lo ≤ k ∧ k ≤ last + 1 ∧ (∀ q, lo ≤ q → q < k → f.tree.slot q = none) ∧ (k ≤ last → f.tree.slot k ≠ none) ∧
      lookupHoleLoop f last false fuel hi ⟨hi - lo, false, decide (lo < hi)⟩ = ⟨k - lo, decide (k ≤ last), decide (lo < k)⟩ := by
  induction fuel generalizing hi with
  | zero =>
      refine ⟨hi, hlo, hle, hnone, fun hlast => absurd hfuel (by omega), ?_⟩
      rw [lookupHoleLoop, decide_eq_false (by omega : ¬hi ≤ last)]
  | succ fuel ih =>
      by_cases hend : hi ≤ last
      · cases hslot : f.tree.slot hi with
        | some entry =>
            refine ⟨hi, hlo, hle, hnone, fun _ => by simp [hslot], ?_⟩
            rw [lookupHoleLoop, if_pos hend, decide_eq_true hend]
            simp [hslot]
        | none =>
            obtain ⟨hlt, hle', hgap⟩ := h.behind hslot hend
            rw [lookupHoleLoop_hole hend hslot]
            generalize pastHole f last hi = next at hlt hle' hgap ⊢
            obtain ⟨k, h1, h2, h3, h4, h5⟩ := ih next (by omega) hle' (by omega) fun q hq hq' => by
              by_cases hbefore : q < hi
              · exact hnone q hq hbefore
              · exact hgap q (by omega) hq'
            refine ⟨k, h1, h2, h3, h4, ?_⟩
            rw [← h5]
            simp [show lo < next by omega, show hi - lo + (next - hi) = next - lo by omega]
      · refine ⟨hi, hlo, hle, hnone, fun hlast => absurd hlast hend, ?_⟩
        rw [lookupHoleLoop, if_neg hend, decide_eq_false hend]

/-- Behind a hole only the flag for data can change. -/
theorem FileTree.Covered.lookupRest (h : f.Covered) (hi last fuel : Nat) (hle : hi ≤ last + 1) (hfuel : last + 1 ≤ hi + fuel)
    (blocks : Nat) (d : Bool) :
    ∃ d', (d' = true ↔ d = true ∨ ∃ q, hi ≤ q ∧ q ≤ last ∧ f.tree.slot q ≠ none) ∧
      lookupHoleLoop f last true fuel hi ⟨blocks, d, true⟩ = ⟨blocks, d', true⟩ := by
  have hover : ∀ hi, last < hi → ¬∃ q, hi ≤ q ∧ q ≤ last ∧ f.tree.slot q ≠ none := by
    rintro hi hlt ⟨q, hq, hq', -⟩
    omega
  induction fuel generalizing hi d with
  | zero => exact ⟨d, (or_iff_left (hover hi (by omega))).symm, rfl⟩
  | succ fuel ih =>
      by_cases hend : hi ≤ last
      · cases hslot : f.tree.slot hi with
        | some entry =>
            obtain ⟨d', hd', hloop⟩ := ih (hi + 1) (by omega) (by omega) true
            refine ⟨d', ?_, ?_⟩
            · rw [hd']
              exact iff_of_true (Or.inl rfl) (Or.inr ⟨hi, le_rfl, hend, by simp [hslot]⟩)
            · rw [lookupHoleLoop, if_pos hend]
              simpa [hslot] using hloop
        | none =>
            obtain ⟨hlt, hle', hgap⟩ := h.behind hslot hend
            rw [lookupHoleLoop_hole hend hslot]
            generalize pastHole f last hi = next at hlt hle' hgap ⊢
            obtain ⟨d', hd', hloop⟩ := ih next hle' (by omega) d
            refine ⟨d', ?_, by simpa using hloop⟩
            rw [hd']
            refine or_congr_right ⟨?_, ?_⟩
            · rintro ⟨q, hq, hq', hmapped⟩
              exact ⟨q, by omega, hq', hmapped⟩
            · rintro ⟨q, hq, hq', hmapped⟩
              refine ⟨q, ?_, hq', hmapped⟩
              by_contra hbefore
              exact hmapped (hgap q hq (by omega))
      · rw [lookupHoleLoop, if_neg hend]
        exact ⟨d, (or_iff_left (hover hi (by omega))).symm, rfl⟩

/-- Page `k` is the first one that is not mapped, or the one behind the last. -/
structure HoleAt (f : FileTree) (lo last k : Nat) (r : HoleLookup) : Prop where
  le : lo ≤ k
  le_last : k ≤ last + 1
  before : ∀ q, lo ≤ q → q < k → f.tree.slot q ≠ none
  here : k ≤ last → f.tree.slot k = none
  blocks : r.blocks = k - lo
  hole : r.holeFound = true ↔ k ≤ last
  data : r.dataFound = true ↔ ∃ q, lo ≤ q ∧ q ≤ last ∧ f.tree.slot q ≠ none

/-- All pages are mapped. -/
theorem HoleAt.none_left (hlo : lo ≤ last + 1) (hmapped : ∀ q, lo ≤ q → q < last + 1 → f.tree.slot q ≠ none) :
    HoleAt f lo last (last + 1) ⟨last + 1 - lo, decide (lo < last + 1), false⟩ where
  le := hlo
  le_last := le_rfl
  before := hmapped
  here := fun h => absurd h (by omega)
  blocks := rfl
  hole := iff_of_false nofun (by omega)
  data := by
    rw [decide_eq_true_iff]
    constructor
    · exact fun hlt => ⟨lo, le_rfl, by omega, hmapped lo le_rfl hlt⟩
    · rintro ⟨q, hq, hq', -⟩
      omega

/-- Looking for a hole: the mapped pages in front of it are counted. -/
theorem FileTree.Covered.lookupHole (h : f.Covered) (lo hi last fuel : Nat) (hlo : lo ≤ hi) (hle : hi ≤ last + 1) (hfuel : last + 1 ≤ hi + fuel)
    (hmapped : ∀ q, lo ≤ q → q < hi → f.tree.slot q ≠ none) :
    ∃ k, HoleAt f lo last k (lookupHoleLoop f last true fuel hi ⟨hi - lo, decide (lo < hi), false⟩) := by
  induction fuel generalizing hi with
  | zero =>
      obtain rfl : hi = last + 1 := by omega
      exact ⟨_, HoleAt.none_left hlo hmapped⟩
  | succ fuel ih =>
      by_cases hend : hi ≤ last
      · cases hslot : f.tree.slot hi with
        | some entry =>
            obtain ⟨k, hk⟩ := ih (hi + 1) (by omega) (by omega) (by omega) fun q hq hq' => by
              rcases Nat.lt_or_eq_of_le (Nat.le_of_lt_succ hq') with hlt | rfl
              · exact hmapped q hq hlt
              · simp [hslot]
            refine ⟨k, ?_⟩
            rw [lookupHoleLoop, if_pos hend]
            simpa [hslot, show lo < hi + 1 by omega, show hi - lo + 1 = hi + 1 - lo by omega] using hk
        | none =>
            obtain ⟨hlt, hle', hgap⟩ := h.behind hslot hend
            rw [lookupHoleLoop_hole hend hslot]
            generalize pastHole f last hi = next at hlt hle' hgap ⊢
            obtain ⟨d, hd, hloop⟩ := h.lookupRest next last fuel hle' (by omega) (hi - lo) (decide (lo < hi))
            refine ⟨hi, hlo, hle, hmapped, fun _ => hslot, ?_, ?_, ?_⟩ <;> simp only [if_true, hloop]
            · exact iff_of_true trivial hend
            · rw [hd, decide_eq_true_iff]
              constructor
              · rintro (hlt' | ⟨q, hq, hq', hne⟩)
                · exact ⟨lo, le_rfl, by omega, hmapped lo le_rfl hlt'⟩
                · exact ⟨q, by omega, hq', hne⟩
              · rintro ⟨q, hq, hq', hne⟩
                by_cases hbefore : q < hi
                · exact Or.inl (by omega)
                · refine Or.inr ⟨q, ?_, hq', hne⟩
                  by_contra hin
                  exact hne (hgap q (by omega) (by omega))
      · rw [lookupHoleLoop, if_neg hend]
        obtain rfl : hi = last + 1 := by omega
        exact ⟨_, HoleAt.none_left hlo hmapped⟩

end Search

/-! ### What a seek is to return -/

/-- The positions in holes, and the size. -/
def holePositions (i : SeekInode) (offset : Nat) : Set Nat :=
  {p | offset ≤ p ∧ (i.file.tree.slot (p / 4096) = none ∨ p = i.isize)}

/-- The positions in mapped pages. -/
def dataPositions (i : SeekInode) (offset : Nat) : Set Nat :=
  {p | offset ≤ p ∧ p < i.isize ∧ i.file.tree.slot (p / 4096) ≠ none}

/-- **The nearest region.** -/
def NearestRegion (i : SeekInode) (offset : Nat) (hole : Bool) (ret : Int) : Prop :=
  if hole then ∃ p : Nat, ret = p ∧ IsLeast (holePositions i offset) p
  else (∃ p : Nat, ret = p ∧ IsLeast (dataPositions i offset) p) ∨
    (ret = -Errno.enxio.code ∧ dataPositions i offset = ∅)

/-- When a seek finds it.  Of a file with blocks: a hole, when a page from the one of the offset to
the one of the size is mapped; data, unless only the page behind a size of whole pages is mapped.  Of
a file that counts no blocks: data, when there is none; a hole, when the size without its high half is
zero and the offset is in a hole, or happens to be the position of the hole. -/
def SeekFinds (i : SeekInode) (offset : Nat) (hole : Bool) : Prop :=
  if i.iblocks = 0 ∨ i.sihSize = 0 then
    if hole then
      if toS32 i.isize = 0 then i.file.tree.slot (offset / 4096) = none
      else ∃ p : Nat, toS32 i.isize = p ∧ IsLeast (holePositions i offset) p
    else ∀ q, offset / 4096 ≤ q → 4096 * q < i.isize → i.file.tree.slot q = none
  else if hole then ∃ q, offset / 4096 ≤ q ∧ q ≤ i.isize / 4096 ∧ i.file.tree.slot q ≠ none
  else ¬(i.isize % 4096 = 0 ∧ i.file.tree.slot (i.isize / 4096) ≠ none ∧
    ∀ q, offset / 4096 ≤ q → q < i.isize / 4096 → i.file.tree.slot q = none)

section Region

variable {i : SeekInode} {offset p k : Nat} {r : HoleLookup} {ret : Int}

theorem nearest_hole_iff (hp : IsLeast (holePositions i offset) p) : NearestRegion i offset true ret ↔ ret = p := by
  unfold NearestRegion
  rw [if_pos rfl]
  constructor
  · rintro ⟨p', rfl, hp'⟩
    rw [hp'.unique hp]
  · exact fun hret => ⟨p, hret, hp⟩

theorem nearest_data_iff (hp : IsLeast (dataPositions i offset) p) : NearestRegion i offset false ret ↔ ret = p := by
  unfold NearestRegion
  rw [if_neg (by decide)]
  constructor
  · rintro (⟨p', rfl, hp'⟩ | ⟨-, hempty⟩)
    · rw [hp'.unique hp]
    · exact absurd (hempty ▸ hp.1) (Set.notMem_empty p)
  · exact fun hret => Or.inl ⟨p, hret, hp⟩

theorem nearest_none_iff (hempty : dataPositions i offset = ∅) :
    NearestRegion i offset false ret ↔ ret = -Errno.enxio.code := by
  unfold NearestRegion
  rw [if_neg (by decide)]
  constructor
  · rintro (⟨p, -, hp⟩ | ⟨hret, -⟩)
    · exact absurd (hempty ▸ hp.1) (Set.notMem_empty p)
    · exact hret
  · exact fun hret => Or.inr ⟨hret, hempty⟩

/-- The offset itself. -/
theorem isLeast_hole_offset (hslot : i.file.tree.slot (offset / 4096) = none) : IsLeast (holePositions i offset) offset :=
  ⟨⟨le_rfl, Or.inl hslot⟩, fun _ hp => hp.1⟩

theorem isLeast_data_offset (hoff : offset < i.isize) (hslot : i.file.tree.slot (offset / 4096) ≠ none) :
    IsLeast (dataPositions i offset) offset :=
  ⟨⟨le_rfl, hoff, hslot⟩, fun _ hp => hp.1⟩

theorem dataPositions_empty_iff (hoff : offset < i.isize) :
    dataPositions i offset = ∅ ↔ ∀ q, offset / 4096 ≤ q → 4096 * q < i.isize → i.file.tree.slot q = none := by
  rw [Set.eq_empty_iff_forall_notMem]
  constructor
  · intro h q hq hq'
    by_contra hmapped
    have hpage : max offset (4096 * q) / 4096 = q := by omega
    exact h (max offset (4096 * q)) ⟨le_max_left _ _, by omega, by rwa [hpage]⟩
  · rintro h p ⟨hlo, hhi, hmapped⟩
    exact hmapped (h (p / 4096) (by omega) (by omega))

/-! ### The region -/

section Llseek

variable {sMaxbytes fPos o code : Nat} {hole : Bool}

theorem novaLlseek_error (h : novaFindRegion i offset hole = (code, o)) (hcode : toS32 code ≠ 0) :
    (novaLlseek sMaxbytes i fPos offset hole).1 = toS32 code := by
  simp only [novaLlseek, h, if_pos hcode]

theorem novaLlseek_ok (h : novaFindRegion i offset hole = (code, o)) (hcode : toS32 code = 0) (ho : o ≤ sMaxbytes) :
    (novaLlseek sMaxbytes i fPos offset hole).1 = o := by
  have hmax : ¬o > sMaxbytes := by omega
  simp only [novaLlseek, h, hcode, ne_eq, not_true_eq_false, if_false, hmax]

end Llseek

/-- A file that counts no blocks. -/
theorem nearest_noBlocks (hoff : offset < i.isize) (hblocks : i.iblocks = 0 ∨ i.sihSize = 0) (hole : Bool)
    {sMaxbytes : Nat} (fPos : Nat) (hmax : i.isize ≤ sMaxbytes) :
    NearestRegion i offset hole (novaLlseek sMaxbytes i fPos offset hole).1 ↔ SeekFinds i offset hole := by
  have hregion : novaFindRegion i offset hole =
      if hole then (i.isize, offset) else (intToU64 (-Errno.enxio.code), offset) := by
    unfold novaFindRegion
    rw [if_neg (by omega), if_pos hblocks]
  unfold SeekFinds
  rw [if_pos hblocks]
  cases hole with
  | false =>
      rw [novaLlseek_error hregion (by decide), if_neg (by decide), ← dataPositions_empty_iff hoff]
      constructor
      · rintro (⟨p, hp, -⟩ | ⟨-, hempty⟩)
        · have hneg : (-6 : Int) = p := hp
          omega
        · exact hempty
      · exact fun hempty => Or.inr ⟨rfl, hempty⟩
  | true =>
      simp only [if_true] at hregion ⊢
      by_cases hzero : toS32 i.isize = 0
      · rw [novaLlseek_ok hregion hzero (by omega), if_pos hzero]
        constructor
        · rintro ⟨p, hp, hleast⟩
          obtain rfl : offset = p := by exact_mod_cast hp
          rcases hleast.1.2 with hslot | hend
          · exact hslot
          · omega
        · exact fun hslot => (nearest_hole_iff (isLeast_hole_offset hslot)).2 rfl
      · rw [novaLlseek_error hregion hzero, if_neg hzero]
        rfl

/-- Looking for data in a file with blocks. -/
theorem nearest_data (hcov : i.file.Covered) (hoff : offset < i.isize) (hblocks : ¬(i.iblocks = 0 ∨ i.sihSize = 0))
    {sMaxbytes : Nat} (fPos : Nat) (hmax : i.isize ≤ sMaxbytes) :
    NearestRegion i offset false (novaLlseek sMaxbytes i fPos offset false).1 ↔ SeekFinds i offset false := by
  obtain ⟨k, hle, hlast, hbefore, hhere, hlookup⟩ := hcov.lookupData (offset / 4096) (offset / 4096)
    (i.isize / 4096) (i.isize / 4096 + 1 - offset / 4096) le_rfl (by omega) (by omega) fun q hq hq' => absurd hq' (by omega)
  rw [Nat.sub_self, decide_eq_false (lt_irrefl _)] at hlookup
  have hregion : novaFindRegion i offset false =
      if k ≤ i.isize / 4096 then (0, if offset / 4096 < k then 4096 * k else offset)
      else (intToU64 (-Errno.enxio.code), offset) := by
    unfold novaFindRegion novaLookupHoleInRange
    rw [if_neg (by omega), if_neg hblocks]
    simp only [hlookup]
    by_cases hk : k ≤ i.isize / 4096
    · by_cases hlt : offset / 4096 < k
      · simp only [hk, hlt, decide_true, Bool.not_true, Bool.and_false, Bool.false_and, Bool.false_eq_true, if_false,
          if_true, Bool.not_false, Bool.true_and]
        split <;> exact congrArg (Prod.mk 0) (by omega)
      · simp [hk, hlt]
    · have hlt : offset / 4096 < k := by omega
      simp [hk, hlt]
  unfold SeekFinds
  rw [if_neg hblocks, if_neg (by decide)]
  by_cases hk : k ≤ i.isize / 4096
  · rw [if_pos hk] at hregion
    by_cases hlt : offset / 4096 < k
    · rw [if_pos hlt] at hregion
      rw [novaLlseek_ok hregion (by decide) (by omega)]
      by_cases hsize : 4096 * k < i.isize
      · refine iff_of_true ((nearest_data_iff ⟨⟨by omega, hsize, ?_⟩, ?_⟩).2 rfl) ?_
        · rw [Nat.mul_div_cancel_left _ (by decide)]
          exact hhere hk
        · rintro p ⟨hlo, hhi, hmapped⟩
          by_contra hp
          exact hmapped (hbefore (p / 4096) (by omega) (by omega))
        · rintro ⟨haligned, -, hnone⟩
          exact hhere hk (hnone k hle (by omega))
      · -- the page is the one behind the end
        have hend : k = i.isize / 4096 := by omega
        have hempty : dataPositions i offset = ∅ := by
          rw [dataPositions_empty_iff hoff]
          exact fun q hq hq' => hbefore q hq (by omega)
        refine iff_of_false ?_ ?_
        · rw [nearest_none_iff hempty]
          intro hret
          have hneg : ((4096 * k : Nat) : Int) = -6 := hret
          omega
        · exact not_not.2 ⟨by omega, hend ▸ hhere hk, fun q hq hq' => hbefore q hq (by omega)⟩
    · rw [if_neg hlt] at hregion
      obtain rfl : k = offset / 4096 := by omega
      rw [novaLlseek_ok hregion (by decide) (by omega)]
      refine iff_of_true ((nearest_data_iff (isLeast_data_offset hoff (hhere hk))).2 rfl) ?_
      rintro ⟨haligned, -, hnone⟩
      exact hhere hk (hnone _ le_rfl (by omega))
  · rw [if_neg hk] at hregion
    rw [novaLlseek_error hregion (by decide)]
    refine iff_of_true ((nearest_none_iff ?_).2 rfl) ?_
    · rw [dataPositions_empty_iff hoff]
      exact fun q hq hq' => hbefore q hq (by omega)
    · exact fun h => h.2.1 (hbefore _ (by omega) (by omega))

/-- Looking for a hole in a file with blocks. -/
theorem nearest_hole (hcov : i.file.Covered) (hoff : offset < i.isize) (hblocks : ¬(i.iblocks = 0 ∨ i.sihSize = 0))
    {sMaxbytes : Nat} (fPos : Nat) (hmax : i.isize ≤ sMaxbytes) :
    NearestRegion i offset true (novaLlseek sMaxbytes i fPos offset true).1 ↔ SeekFinds i offset true := by
  obtain ⟨k, hk⟩ := hcov.lookupHole (offset / 4096) (offset / 4096) (i.isize / 4096)
    (i.isize / 4096 + 1 - offset / 4096) le_rfl (by omega) (by omega) fun q hq hq' => absurd hq' (by omega)
  rw [Nat.sub_self, decide_eq_false (lt_irrefl _)] at hk
  unfold SeekFinds
  rw [if_neg hblocks, if_pos rfl, ← hk.data]
  have hlookup : novaLookupHoleInRange i.file (offset / 4096) (i.isize / 4096) true = lookupHoleLoop i.file (i.isize / 4096) true
      (i.isize / 4096 + 1 - offset / 4096) (offset / 4096) ⟨0, false, false⟩ := rfl
  rw [← hlookup] at hk ⊢
  generalize hr : novaLookupHoleInRange i.file (offset / 4096) (i.isize / 4096) true = r at hk ⊢
  obtain ⟨blocks, dataFound, holeFound⟩ := r
  have hle := hk.le
  have hblocksEq : blocks = k - offset / 4096 := hk.blocks
  have hregion : novaFindRegion i offset true =
      if dataFound && !holeFound then (0, i.isize)
      else if holeFound && decide (blocks = 0) then (0, if !dataFound then i.isize else offset)
      else (0, if offset % 4096 ≠ 0 then offset + (blocks - 1) * 4096 + (4096 - offset % 4096) else offset + blocks * 4096) := by
    unfold novaFindRegion
    rw [if_neg (by omega), if_neg hblocks, hr]
    simp only [Bool.not_true, Bool.false_and, Bool.false_eq_true, if_false, if_true, Bool.true_and]
    split
    · rfl
    · split
      · rfl
      · split <;> rfl
  by_cases hlast : k ≤ i.isize / 4096
  · obtain rfl : holeFound = true := hk.hole.2 hlast
    rcases Nat.eq_or_lt_of_le hle with rfl | hlt
    · -- inside a hole
      obtain rfl : blocks = 0 := by omega
      have hoffset := isLeast_hole_offset (hk.here hlast)
      cases dataFound with
      | true =>
          rw [novaLlseek_ok (o := offset) hregion (by decide) (by omega)]
          exact iff_of_true ((nearest_hole_iff hoffset).2 rfl) rfl
      | false =>
          rw [novaLlseek_ok (o := i.isize) hregion (by decide) hmax, nearest_hole_iff hoffset]
          refine iff_of_false (fun heq => ?_) nofun
          have heq : i.isize = offset := by exact_mod_cast heq
          omega
    · have hdata : dataFound = true := hk.data.2 ⟨_, le_rfl, by omega, hk.before _ le_rfl hlt⟩
      have hregion : novaFindRegion i offset true = (0, 4096 * k) := by
        rw [hregion, hdata, decide_eq_false (by omega)]
        simp only [Bool.not_true, Bool.and_false, Bool.false_eq_true, if_false]
        split <;> exact congrArg (Prod.mk 0) (by omega)
      rw [novaLlseek_ok hregion (by decide) (by omega)]
      refine iff_of_true ((nearest_hole_iff ⟨⟨by omega, Or.inl ?_⟩, ?_⟩).2 rfl) hdata
      · rw [Nat.mul_div_cancel_left _ (by decide)]
        exact hk.here hlast
      · rintro p ⟨hlo, hslot | hsize⟩
        · by_contra hp
          exact hk.before (p / 4096) (by omega) (by omega) hslot
        · omega
  · have hdata : dataFound = true := hk.data.2 ⟨_, le_rfl, by omega, hk.before _ le_rfl (by omega)⟩
    have hhole : holeFound = false := Bool.eq_false_iff.2 fun hfound => hlast (hk.hole.1 hfound)
    rw [hdata, hhole] at hregion
    rw [novaLlseek_ok (o := i.isize) hregion (by decide) hmax]
    refine iff_of_true ((nearest_hole_iff ⟨⟨by omega, Or.inr rfl⟩, ?_⟩).2 rfl) hdata
    rintro p ⟨hlo, hslot | rfl⟩
    · by_contra hp
      exact hk.before (p / 4096) (by omega) (by omega) hslot
    · exact le_rfl

end Region

/-- The file with only its third page mapped, four pages long. -/
def thirdOfFour : SeekInode := ⟨thirdPage, 16384, 1, 16384⟩

theorem thirdPage_covered : thirdPage.Covered := by
  have hunused : newFile.file.Unused 128 := ⟨fun _ => nofun, nofun⟩
  have hfits : (oneBlock 20 128).Fits (thirdPageWrite.start newFile.file) := by
    refine ⟨by decide, ?_⟩
    rintro currP (hp | hp)
    · cases hp
    · cases hp
      exact ⟨hunused, by decide⟩
  have hempty : (thirdPageWrite.start newFile.file).file.NoHole := nofun
  have hfit : TurnsFit .cow thirdPageWrite (thirdPageWrite.start newFile.file) [oneBlock 20 128] := ⟨hfits, trivial⟩
  exact (hempty.writeTurns hfit rfl).covered

end Parfs
