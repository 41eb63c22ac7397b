/-
What a free checks of its range.

The bounds are compared with one block too many, so a range may end in the block behind the list.
The tree is searched for the first block of the range only: where the search ends at the range's
lower neighbour, nothing compares the range with the upper one.  Everything else is caught, and
what is not caught is freed.
-/
import Parfs.Proofs.BallocRun

namespace Parfs

open Lib

variable {env : BallocEnv}

/-- The range is in the list's bounds. -/
def SubFreeList.Spans (s : SubFreeList) (low n : Nat) : Prop := s.blockStart ≤ low ∧ low + n ≤ s.blockEnd + 1

/-- No block of the range is free. -/
def SubFreeList.HasNone (s : SubFreeList) (low n : Nat) : Prop := ∀ b, low ≤ b → b < low + n → ¬s.Has b

/-- The search for the first block ends below the range, and the next node starts inside it. -/
def SubFreeList.Overlooks (env : BallocEnv) (s : SubFreeList) (low n : Nat) : Prop :=
  ∃ p q, novaFindRangeNode env s.blockFreeTree low = (false, some p) ∧ p.rangeHigh < low ∧
    s.rbNext p.addr = some q ∧ q.rangeLow < low + n

section List

variable {s : SubFreeList} {low n addr : Nat} {A B : List RangeNode}

/-- How the search for the first block of a range that is not free ends: between two parts of the
list, at one of the nodes beside the gap. -/
theorem findRangeNode_gap (h : s.Wf env) (hlow : ¬s.Has low) :
    ∃ A B res, s.nodes = A ++ B ∧ (∀ a ∈ A, a.rangeHigh < low) ∧ (∀ b ∈ B, low < b.rangeLow) ∧
      novaFindRangeNode env s.blockFreeTree low = (false, res) ∧
      ((s.nodes = [] ∧ res = none) ∨ ∃ a, res = some a ∧ (A.getLast? = some a ∨ B.head? = some a)) := by
  rcases hrun : RbTree.descend (novaRbtreeCompareRangenode low) none s.blockFreeTree with ⟨_ | _, res⟩
  · obtain ⟨A, B, hAB, hA, hB, hres⟩ := RbTree.descend_miss _ (h.ok.cut low) hrun
    refine ⟨A, B, res, hAB, fun a ha => (novaRbtreeCompareRangenode_eq_gt.mp (hA a ha)).2,
      fun b hb => novaRbtreeCompareRangenode_eq_lt.mp (hB b hb), ?_, hres⟩
    unfold novaFindRangeNode
    rw [hrun]
    rcases hres with ⟨-, rfl⟩ | ⟨a, rfl, ha⟩
    · rfl
    · have hmem : a ∈ s.nodes := by
        show a ∈ s.blockFreeTree.toList
        rw [hAB, List.mem_append]
        rcases ha with ha | ha
        · exact Or.inl (List.mem_of_getLast? ha)
        · exact Or.inr (List.mem_of_head? ha)
      simp [h.ok.checksum a hmem]
  · obtain ⟨a, -, hmem, heq⟩ := RbTree.descend_hit _ hrun
    exact absurd ⟨a, hmem, novaRbtreeCompareRangenode_eq_eq.mp heq⟩ hlow

/-- The first block of a range is free: the search finds it. -/
theorem findRangeNode_stop (h : s.Wf env) (hlow : s.Has low) :
    ∃ a, novaFindRangeNode env s.blockFreeTree low = (true, some a) := by
  obtain ⟨a, ha, hholds⟩ := hlow
  rcases hrun : RbTree.descend (novaRbtreeCompareRangenode low) none s.blockFreeTree with ⟨_ | _, res⟩
  · obtain ⟨A, B, hAB, hA, hB, -⟩ := RbTree.descend_miss _ (h.ok.cut low) hrun
    have hmem : a ∈ A ++ B := hAB ▸ ha
    unfold RangeNode.Holds at hholds
    rcases List.mem_append.mp hmem with hin | hin
    · have hgt := (novaRbtreeCompareRangenode_eq_gt.mp (hA a hin)).2
      omega
    · have hlt := novaRbtreeCompareRangenode_eq_lt.mp (hB a hin)
      omega
  · obtain ⟨b, rfl, hmem, -⟩ := RbTree.descend_hit _ hrun
    refine ⟨b, ?_⟩
    unfold novaFindRangeNode
    rw [hrun]
    simp [h.ok.checksum b hmem]

/-- A free that gets past the checks succeeds. -/
theorem novaFreeBlocksIn_accepts {prev next : Option RangeNode} {tree : RbTree RangeNode}
    (hbounds : ¬(low < s.blockStart ∨ low + n - 1 > s.blockEnd + 1))
    (hslot : novaFindFreeSlot env s low (low + n - 1) = .ok (prev, next))
    (hinsert : novaInsertBlocktree env s.blockFreeTree (novaFreshNode env addr low (low + n - 1)) = .ok tree) :
    ∃ s', novaFreeBlocksIn env s low n addr = (s', .ok ()) := by
  unfold novaFreeBlocksIn
  simp only [hbounds, if_false, hslot, hinsert]
  split <;> exact ⟨_, rfl⟩

theorem novaInsertBlocktree_gap (n addr : Nat) (h : s.Wf env) (hs : s.nodes = A ++ B) (hA : ∀ a ∈ A, a.rangeHigh < low)
    (hB : ∀ b ∈ B, low < b.rangeLow) :
    ∃ tree, novaInsertBlocktree env s.blockFreeTree (novaFreshNode env addr low (low + n - 1)) = .ok tree := by
  have hlow : (novaFreshNode env addr low (low + n - 1)).rangeLow = low := novaUpdateRangeNodeChecksum_rangeLow _
  obtain ⟨tree, htree, -⟩ := novaInsertBlocktree_ok (novaFreshNode env addr low (low + n - 1)) h.ok hs
    (fun a ha => by rw [hlow]; exact hA a ha) fun b hb => by rw [hlow]; exact hB b hb
  exact ⟨tree, htree⟩

/-- What a free is to check, and to leave. -/
structure FreeChecked (env : BallocEnv) (s : SubFreeList) (low n : Nat) (r : SubFreeList × Except Errno Unit) : Prop where
  accepted : r.2 = .ok () → s.Spans low n ∧ s.HasNone low n
  union : r.2 = .ok () → r.1.Wf env ∧ ∀ b, r.1.Has b ↔ s.Has b ∨ (low ≤ b ∧ b < low + n)
  refused : ∀ e, r.2 = .error e → r.1 = s

/-- What gets past the checks: a range that ends in the block behind the list, and one whose upper
neighbour is not looked at. -/
def SubFreeList.Slips (env : BallocEnv) (s : SubFreeList) (low n : Nat) : Prop :=
  s.blockStart ≤ low ∧ low + n ≤ s.blockEnd + 2 ∧
    (low + n = s.blockEnd + 2 ∧ s.HasNone low n ∨ s.Overlooks env low n)

theorem FreeChecked.of_error {r : SubFreeList × Except Errno Unit} {e : Errno} (hr : r = (s, .error e)) :
    FreeChecked env s low n r where
  accepted := fun h => by rw [hr] at h; cases h
  union := fun h => by rw [hr] at h; cases h
  refused := fun _ _ => by rw [hr]

/-- The overlooked node starts inside the range. -/
theorem SubFreeList.Overlooks.inside {res : Option RangeNode} (hover : s.Overlooks env low n) (h : s.Wf env)
    (hs : s.nodes = A ++ B) (hB : ∀ b ∈ B, low < b.rangeLow) (hfind : novaFindRangeNode env s.blockFreeTree low = (false, res))
    (hres : (s.nodes = [] ∧ res = none) ∨ ∃ a, res = some a ∧ (A.getLast? = some a ∨ B.head? = some a)) :
    ∃ q ∈ s.nodes, low < q.rangeLow ∧ q.rangeLow < low + n := by
  obtain ⟨p, q, hp, hbelow, hq, hlt⟩ := hover
  rw [hfind] at hp
  obtain rfl : res = some p := (Prod.mk.inj hp).2
  rcases hres with ⟨-, hnone⟩ | ⟨a, ha, hlast | hhead⟩
  · cases hnone
  · cases ha
    obtain ⟨A', rfl⟩ := List.getLast?_eq_some_iff.mp hlast
    have hnodes : s.nodes = A' ++ p :: B := by simpa using hs
    rw [SubFreeList.rbNext_eq hnodes h.ok] at hq
    have hmem := List.mem_of_head? hq
    exact ⟨q, by simp [hnodes, hmem], hB q hmem, hlt⟩
  · cases ha
    have hmem := List.mem_of_head? hhead
    have hne := h.ok.nonempty p (by simp [hs, hmem])
    have hlow := hB p hmem
    omega

/-- When a block of the range is free and the first one is not, the range reaches its upper
neighbour. -/
theorem exists_head_inside (h : s.Wf env) (hs : s.nodes = A ++ B) (hA : ∀ a ∈ A, a.rangeHigh < low)
    (hnone : ¬s.HasNone low n) : ∃ q B', B = q :: B' ∧ q.rangeLow < low + n := by
  unfold SubFreeList.HasNone at hnone
  push Not at hnone
  obtain ⟨b, hlo, hhi, m, hm, hholds⟩ := hnone
  unfold RangeNode.Holds at hholds
  rw [hs, List.mem_append] at hm
  have hmB : m ∈ B := by
    rcases hm with hm | hm
    · have := hA m hm
      omega
    · exact hm
  cases B with
  | nil => cases hmB
  | cons q B' =>
      refine ⟨q, B', rfl, ?_⟩
      rcases List.mem_cons.mp hmB with rfl | hm'
      · omega
      · have hsort := h.ok.sorted
        rw [hs, List.pairwise_append, List.pairwise_cons] at hsort
        have hbelow : q.rangeHigh + 1 < m.rangeLow := hsort.2.1.1 m hm'
        have hqne := h.ok.nonempty q (by simp [hs])
        omega

/-- **One list**: a free is as it should be unless its range slips past the checks. -/
theorem novaFreeBlocksIn_checked_iff (low : Nat) (h : s.Wf env) (hn : 0 < n) (hfresh : addr ∉ s.nodes.map RangeNode.addr) :
    FreeChecked env s low n (novaFreeBlocksIn env s low n addr) ↔ ¬s.Slips env low n := by
  by_cases hbounds : low < s.blockStart ∨ low + n - 1 > s.blockEnd + 1
  · refine iff_of_true (FreeChecked.of_error (e := .eio) ?_) fun hslips => ?_
    · unfold novaFreeBlocksIn
      exact if_pos hbounds
    · obtain ⟨hlo, hhi, -⟩ := hslips
      omega
  by_cases hlow : s.Has low
  · -- the first block is found
    obtain ⟨a, ha⟩ := findRangeNode_stop h hlow
    refine iff_of_true (FreeChecked.of_error (e := .einval) ?_) ?_
    · unfold novaFreeBlocksIn
      simp [hbounds, novaFindFreeSlot, ha]
    · rintro ⟨-, -, ⟨-, hnone⟩ | ⟨p, q, hp, -⟩⟩
      · exact hnone low le_rfl (by omega) hlow
      · rw [ha] at hp
        cases hp
  obtain ⟨A, B, res, hs, hA, hB, hfind, hres⟩ := findRangeNode_gap h hlow
  by_cases hnone : s.HasNone low n
  · -- nothing overlaps: the range is put into the list, wherever it ends
    have hkeep : ¬s.Overlooks env low n := by
      intro hover
      obtain ⟨q, hq, hlo, hhi⟩ := hover.inside h hs hB hfind hres
      exact hnone q.rangeLow (by omega) hhi ⟨q, hq, le_rfl, h.ok.nonempty q hq⟩
    by_cases hend : low + n ≤ s.blockEnd + 1
    · obtain ⟨s', hrun, hwf, hrem⟩ := novaFreeBlocksIn_spec h hn (by omega) hend hnone hfresh
      refine iff_of_true ?_ ?_
      · rw [hrun]
        exact ⟨fun _ => ⟨⟨by omega, hend⟩, hnone⟩, fun _ => ⟨hwf, fun b => hrem.has b⟩, fun e he => by cases he⟩
      · rintro ⟨-, -, ⟨hpast, -⟩ | hover⟩
        · omega
        · exact hkeep hover
    · obtain ⟨A', B', hs', hA', hB', hslot⟩ := novaFindFreeSlot_spec h hn hnone
      obtain ⟨tree, htree⟩ := novaInsertBlocktree_gap n addr h hs' hA' fun b hb => by
        have := hB' b hb
        omega
      obtain ⟨s', hrun⟩ := novaFreeBlocksIn_accepts hbounds hslot htree
      refine iff_of_false ?_ (not_not.2 ⟨by omega, by omega, Or.inl ⟨by omega, hnone⟩⟩)
      intro hchecked
      rw [hrun] at hchecked
      exact hend (hchecked.accepted rfl).1.2
  · obtain ⟨q, B', rfl, hq⟩ := exists_head_inside h hs hA hnone
    have hqlow := hB q (by simp)
    have hqne := h.ok.nonempty q (by simp [hs])
    have hqcsum := h.ok.checksum q (by simp [hs])
    rcases hres with ⟨hempty, -⟩ | ⟨a, rfl, hlast | hhead⟩
    · simp [hs] at hempty
    · -- the search ends below the range, and the upper neighbour is not looked at
      obtain ⟨A', rfl⟩ := List.getLast?_eq_some_iff.mp hlast
      have hnodes : s.nodes = A' ++ a :: q :: B' := by simpa using hs
      have hbelow := hA a (by simp)
      have hnext : s.rbNext a.addr = some q := SubFreeList.rbNext_eq hnodes h.ok
      have hslot : novaFindFreeSlot env s low (low + n - 1) = .ok (some a, some q) := by
        simp [novaFindFreeSlot, hfind, hbelow, hnext, hqcsum]
      obtain ⟨tree, htree⟩ := novaInsertBlocktree_gap n addr h hs hA hB
      obtain ⟨s', hrun⟩ := novaFreeBlocksIn_accepts hbounds hslot htree
      refine iff_of_false ?_ (not_not.2 ⟨by omega, by omega, Or.inr ⟨a, q, hfind, hbelow, hnext, hq⟩⟩)
      intro hchecked
      rw [hrun] at hchecked
      exact hnone (hchecked.accepted rfl).2
    · -- it ends at the upper neighbour, which is compared
      obtain rfl : q = a := by simpa using hhead
      refine iff_of_true (FreeChecked.of_error (e := .einval) ?_) ?_
      · have hhigh : ¬q.rangeHigh < low := by omega
        have hover : ¬q.rangeLow > low + n - 1 := by omega
        unfold novaFreeBlocksIn
        simp [hbounds, novaFindFreeSlot, hfind, hhigh, hover]
      · rintro ⟨-, -, ⟨-, hnone'⟩ | ⟨p, q', hp, hplow, -⟩⟩
        · exact hnone hnone'
        · rw [hfind] at hp
          cases hp
          omega

end List

/-! ### The list a free selects -/

section Call

variable {sbi : NovaSbInfo} {t : AllocType} {btype : BlockType} {blocknr : Nat} {num : Int} {blocknode : Option Nat}

/-- `num_blocks` -/
def freeNumBlocks (btype : BlockType) (num : Int) : Nat := novaGetNumblocks btype * num.toNat

/-- **A free validates its range**: on the list of the block's CPU it does what it should, and no
other list changes. -/
structure FreeValidated (env : BallocEnv) (sbi : NovaSbInfo) (t : AllocType) (btype : BlockType) (blocknr : Nat)
    (num : Int) (r : NovaSbInfo × Except Errno Unit) : Prop where
  list : FreeChecked env (sbi.sub t (blocknr / sbi.geo.perListBlocks t)) blocknr (freeNumBlocks btype num)
    (r.1.sub t (blocknr / sbi.geo.perListBlocks t), r.2)
  others : ∀ t' cpu, (t' ≠ t ∨ cpu ≠ blocknr / sbi.geo.perListBlocks t) → r.1.sub t' cpu = sbi.sub t' cpu

/-- A data list of a hundred blocks with two free ranges; the upper one is the root. -/
def twoRanges : SubFreeList := { SubFreeList.zero with
  blockFreeTree := .node (.node .nil ⟨1, 10, 20, 0⟩ .nil) ⟨2, 30, 40, 0⟩ .nil
  firstNode := some 1
  lastNode := some 2
  blockEnd := 99
  numFreeBlocks := 22
  numBlocknode := 2 }

theorem twoRanges_wf : twoRanges.Wf plainEnv where
  ok := ⟨by simp [twoRanges, SubFreeList.nodes, RangeNode.Below], by decide, by decide, by decide, by decide⟩
  first := rfl
  last := rfl
  count := rfl
  free := rfl
  span := by decide

/-- One CPU with that list. -/
def twoRangesInfo : NovaSbInfo where
  geo := ⟨1, Nat.one_pos, 2 ^ 23, 1024, 100, smallGeometry.initsize_lt, smallGeometry.metaNumBlocks_lt, by decide⟩
  freeLists := fun _ => ⟨SubFreeList.zero, twoRanges⟩

end Call

end Parfs
