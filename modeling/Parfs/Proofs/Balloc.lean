/-
What one free list means.

`SubFreeList.Wf` is the invariant every path of `balloc.c` maintains by hand: the
ranges are non-empty, sorted and never adjacent, the two cached ends are the ends,
and the two counters count.  A list then stands for the set of blocks `Has` names,
and each operation is shown to change that set by exactly the range it was asked for.

Every path replaces a few neighbouring ranges by others.  So the work is done once,
in `NodesOk.splice`: the in-order sequence is `A ++ M ++ B`, the path rewrites `M`,
and what it writes still fits between `A` and `B`.
-/
import Mathlib.Data.List.Induction
import Parfs.Balloc

namespace Parfs

open Lib

/-- All of `a` lies below all of `b`, with at least one block in between. -/
def RangeNode.Below (a b : RangeNode) : Prop := a.rangeHigh + 1 < b.rangeLow

/-- The node holds the block. -/
def RangeNode.Holds (n : RangeNode) (b : Nat) : Prop := n.rangeLow ≤ b ∧ b ≤ n.rangeHigh

/-- The block is free in this list. -/
def SubFreeList.Has (s : SubFreeList) (b : Nat) : Prop := ∃ n ∈ s.nodes, n.Holds b

variable {env : BallocEnv}

/-- What a sequence of ranges has to satisfy between two bounds. -/
structure NodesOk (env : BallocEnv) (lo hi : Nat) (l : List RangeNode) : Prop where
  sorted : l.Pairwise RangeNode.Below
  nonempty : ∀ n ∈ l, n.rangeLow ≤ n.rangeHigh
  inside : ∀ n ∈ l, lo ≤ n.rangeLow ∧ n.rangeHigh ≤ hi
  checksum : ∀ n ∈ l, novaRangeNodeChecksumOk env n = true
  nodup : (l.map RangeNode.addr).Nodup

/-- The invariant of one free list. -/
structure SubFreeList.Wf (env : BallocEnv) (s : SubFreeList) : Prop where
  ok : NodesOk env s.blockStart s.blockEnd s.nodes
  /-- `first_node` is the lowest range, `NULL` when there is none. -/
  first : s.firstNode = s.nodes.head?.map RangeNode.addr
  /-- `last_node` is the highest range. -/
  last : s.lastNode = s.nodes.getLast?.map RangeNode.addr
  count : s.numBlocknode = s.nodes.length
  free : s.numFreeBlocks = (s.nodes.map RangeNode.size).sum
  span : s.blockEnd + 1 - s.blockStart < 2 ^ 32

@[simp] theorem novaUpdateRangeNodeChecksum_rangeLow (n : RangeNode) :
    (novaUpdateRangeNodeChecksum env n).rangeLow = n.rangeLow := by
  unfold novaUpdateRangeNodeChecksum
  split <;> rfl

@[simp] theorem novaUpdateRangeNodeChecksum_rangeHigh (n : RangeNode) :
    (novaUpdateRangeNodeChecksum env n).rangeHigh = n.rangeHigh := by
  unfold novaUpdateRangeNodeChecksum
  split <;> rfl

@[simp] theorem novaUpdateRangeNodeChecksum_addr (n : RangeNode) :
    (novaUpdateRangeNodeChecksum env n).addr = n.addr := by
  unfold novaUpdateRangeNodeChecksum
  split <;> rfl

/-- A node that was just checksummed passes the check. -/
@[simp] theorem novaRangeNodeChecksumOk_update (n : RangeNode) :
    novaRangeNodeChecksumOk env (novaUpdateRangeNodeChecksum env n) = true := by
  unfold novaRangeNodeChecksumOk novaUpdateRangeNodeChecksum
  cases env.dramStructCsum
  · rfl
  · simp [novaCalculateRangeNodeCsum]

/-! ### Sequences of ranges -/

namespace NodesOk

variable {lo hi : Nat} {A B M M' : List RangeNode} {c : RangeNode}

/-- Rewrite a stretch of the sequence: only what meets the neighbours matters. -/
theorem splice (h : NodesOk env lo hi (A ++ (M ++ B)))
    (hM : NodesOk env lo hi M')
    (hA : ∀ a ∈ A, ∀ m ∈ M', a.Below m) (hB : ∀ m ∈ M', ∀ b ∈ B, m.Below b)
    (haddr : ∀ m ∈ M', m.addr ∉ A.map RangeNode.addr ∧ m.addr ∉ B.map RangeNode.addr) :
    NodesOk env lo hi (A ++ (M' ++ B)) := by
  have hsort := h.sorted
  rw [List.pairwise_append, List.pairwise_append] at hsort
  obtain ⟨hsA, ⟨-, hsB, -⟩, hcross⟩ := hsort
  have hnodup := h.nodup
  simp only [List.map_append, List.nodup_append] at hnodup
  obtain ⟨hnA, ⟨-, hnB, -⟩, hncross⟩ := hnodup
  refine ⟨?_, ?_, ?_, ?_, ?_⟩
  · rw [List.pairwise_append, List.pairwise_append]
    refine ⟨hsA, ⟨hM.sorted, hsB, hB⟩, ?_⟩
    intro a ha b hb
    rcases List.mem_append.mp hb with hb | hb
    · exact hA a ha b hb
    · exact hcross a ha b (by simp [hb])
  · intro n hn
    rcases List.mem_append.mp hn with hn | hn
    · exact h.nonempty n (by simp [hn])
    · rcases List.mem_append.mp hn with hn | hn
      · exact hM.nonempty n hn
      · exact h.nonempty n (by simp [hn])
  · intro n hn
    rcases List.mem_append.mp hn with hn | hn
    · exact h.inside n (by simp [hn])
    · rcases List.mem_append.mp hn with hn | hn
      · exact hM.inside n hn
      · exact h.inside n (by simp [hn])
  · intro n hn
    rcases List.mem_append.mp hn with hn | hn
    · exact h.checksum n (by simp [hn])
    · rcases List.mem_append.mp hn with hn | hn
      · exact hM.checksum n hn
      · exact h.checksum n (by simp [hn])
  · simp only [List.map_append, List.nodup_append]
    refine ⟨hnA, ⟨hM.nodup, hnB, ?_⟩, ?_⟩
    · rintro x hx y hy rfl
      obtain ⟨m, hm, rfl⟩ := List.mem_map.mp hx
      exact (haddr m hm).2 hy
    · intro x hx y hy
      rcases List.mem_append.mp hy with hy | hy
      · rintro rfl
        obtain ⟨m, hm, hmx⟩ := List.mem_map.mp hy
        exact (haddr m hm).1 (hmx ▸ hx)
      · exact hncross x hx y (by simp [hy])

/-- Cut a node down to pieces of itself. -/
theorem shrink (h : NodesOk env lo hi (A ++ c :: B))
    (hM : NodesOk env lo hi M')
    (hsub : ∀ m ∈ M', c.rangeLow ≤ m.rangeLow ∧ m.rangeHigh ≤ c.rangeHigh)
    (haddr : ∀ m ∈ M', m.addr ∉ A.map RangeNode.addr ∧ m.addr ∉ B.map RangeNode.addr) :
    NodesOk env lo hi (A ++ (M' ++ B)) := by
  have hsort := h.sorted
  rw [List.pairwise_append, List.pairwise_cons] at hsort
  obtain ⟨-, ⟨hc, -⟩, hcross⟩ := hsort
  refine splice (M := [c]) (by simpa using h) hM ?_ ?_ haddr
  · intro a ha m hm
    have hac : a.Below c := hcross a ha c (by simp)
    have hm' := hsub m hm
    unfold RangeNode.Below at *
    omega
  · intro m hm b hb
    have hcb : c.Below b := hc b hb
    have hm' := hsub m hm
    unfold RangeNode.Below at *
    omega

theorem middle (h : NodesOk env lo hi (A ++ c :: B)) :
    c.rangeLow ≤ c.rangeHigh ∧ lo ≤ c.rangeLow ∧ c.rangeHigh ≤ hi ∧
      c.addr ∉ A.map RangeNode.addr ∧ c.addr ∉ B.map RangeNode.addr := by
  have hnodup := h.nodup
  simp only [List.map_append, List.map_cons, List.nodup_append, List.nodup_cons] at hnodup
  obtain ⟨-, ⟨hcB, -⟩, hcross⟩ := hnodup
  have hin := h.inside c (by simp)
  refine ⟨h.nonempty c (by simp), hin.1, hin.2, ?_, hcB⟩
  intro hmem
  exact hcross _ hmem c.addr (by simp) rfl

/-- The blocks of the sequence fit between its bounds. -/
theorem sum_size_le {l : List RangeNode} (h : NodesOk env lo hi l) :
    (l.map RangeNode.size).sum ≤ hi + 1 - lo := by
  induction l generalizing lo with
  | nil => simp
  | cons c l ih =>
      have hsort := List.pairwise_cons.mp h.sorted
      obtain ⟨hne, hlo, hhi, -, -⟩ := middle (A := []) h
      have hrest : NodesOk env (c.rangeHigh + 1) hi l := by
        refine ⟨hsort.2, fun n hn => h.nonempty n (by simp [hn]), ?_,
          fun n hn => h.checksum n (by simp [hn]), (List.nodup_cons.mp h.nodup).2⟩
        intro n hn
        have hbelow := hsort.1 n hn
        unfold RangeNode.Below at hbelow
        exact ⟨by omega, (h.inside n (by simp [hn])).2⟩
      have := ih hrest
      simp only [List.map_cons, List.sum_cons, RangeNode.size]
      omega

/-- The comparison with any key splits the sequence. -/
theorem cut {l : List RangeNode} (h : NodesOk env lo hi l) (key : Nat) :
    RbTree.Cut (novaRbtreeCompareRangenode key) l := by
  refine h.sorted.imp_of_mem ?_
  intro a b ha hb hbelow
  have hna := h.nonempty a ha
  unfold RangeNode.Below at hbelow
  unfold novaRbtreeCompareRangenode
  by_cases hkey : a.rangeHigh < key
  · left
    rw [if_neg (by omega), if_pos hkey]
  · right
    rw [if_pos (by omega)]

end NodesOk

theorem novaRbtreeCompareRangenode_eq_gt {key : Nat} {n : RangeNode} :
    novaRbtreeCompareRangenode key n = .gt ↔ n.rangeLow ≤ key ∧ n.rangeHigh < key := by
  unfold novaRbtreeCompareRangenode
  split
  · simp; omega
  · split <;> simp <;> omega

theorem novaRbtreeCompareRangenode_eq_lt {key : Nat} {n : RangeNode} :
    novaRbtreeCompareRangenode key n = .lt ↔ key < n.rangeLow := by
  unfold novaRbtreeCompareRangenode
  split
  · simpa
  · split <;> simp <;> omega

theorem novaRbtreeCompareRangenode_eq_eq {key : Nat} {n : RangeNode} :
    novaRbtreeCompareRangenode key n = .eq ↔ n.Holds key := by
  unfold novaRbtreeCompareRangenode RangeNode.Holds
  split
  · simp; omega
  · split <;> simp <;> omega

/-! ### Pointers into the tree -/

section Pointers

variable {s : SubFreeList} {lo hi : Nat} {A B : List RangeNode} {c : RangeNode}

theorem map_ite_of_notMem {l : List RangeNode} {addr : Nat} {f : RangeNode → RangeNode}
    (h : addr ∉ l.map RangeNode.addr) :
    (l.map fun n => if n.addr = addr then f n else n) = l := by
  induction l with
  | nil => rfl
  | cons x xs ih =>
      simp only [List.map_cons, List.mem_cons, not_or] at h
      rw [List.map_cons, if_neg (fun heq => h.1 heq.symm), ih h.2]

/-- A store through a pointer changes one node. -/
theorem SubFreeList.modify_nodes (hs : s.nodes = A ++ c :: B)
    (ok : NodesOk env lo hi s.nodes) (f : RangeNode → RangeNode) :
    (s.modify c.addr f).nodes = A ++ f c :: B := by
  rw [hs] at ok
  obtain ⟨-, -, -, hA, hB⟩ := ok.middle
  have hmap : (s.modify c.addr f).nodes = s.nodes.map fun n => if n.addr = c.addr then f n else n :=
    RbTree.toList_map _ _
  rw [hmap, hs, List.map_append, List.map_cons, map_ite_of_notMem hA, map_ite_of_notMem hB,
    if_pos rfl]

theorem filter_of_notMem {l : List RangeNode} {addr : Nat} (h : addr ∉ l.map RangeNode.addr) :
    (l.filter fun n => !(n.addr == addr)) = l := by
  rw [List.filter_eq_self]
  intro n hn
  have : n.addr ≠ addr := fun heq => h (heq ▸ List.mem_map_of_mem hn)
  simpa using this

theorem SubFreeList.rbErase_nodes (hs : s.nodes = A ++ c :: B)
    (ok : NodesOk env lo hi s.nodes) : (s.rbErase env c.addr).nodes = A ++ B := by
  rw [hs] at ok
  obtain ⟨-, -, -, hA, hB⟩ := ok.middle
  have herase : (s.rbErase env c.addr).nodes = s.nodes.filter fun n => !(n.addr == c.addr) :=
    env.rb.erase_toList _ _
  rw [herase, hs, List.filter_append, List.filter_cons, filter_of_notMem hA, filter_of_notMem hB]
  simp

theorem dropWhile_to {l r : List RangeNode} (h : c.addr ∉ l.map RangeNode.addr) :
    (l ++ c :: r).dropWhile (fun n => n.addr ≠ c.addr) = c :: r := by
  rw [List.dropWhile_append_of_pos]
  · simp
  · intro n hn
    have : n.addr ≠ c.addr := fun heq => h (heq ▸ List.mem_map_of_mem hn)
    simpa using this

theorem SubFreeList.rbNext_eq (hs : s.nodes = A ++ c :: B) (ok : NodesOk env lo hi s.nodes) :
    s.rbNext c.addr = B.head? := by
  rw [hs] at ok
  unfold SubFreeList.rbNext
  rw [hs, dropWhile_to ok.middle.2.2.2.1]
  rfl

theorem SubFreeList.rbPrev_eq (hs : s.nodes = A ++ c :: B) (ok : NodesOk env lo hi s.nodes) :
    s.rbPrev c.addr = A.getLast? := by
  rw [hs] at ok
  have hB : c.addr ∉ B.reverse.map RangeNode.addr := by simpa using ok.middle.2.2.2.2
  have hrev : s.nodes.reverse = B.reverse ++ c :: A.reverse := by simp [hs]
  unfold SubFreeList.rbPrev
  rw [hrev, dropWhile_to hB]
  simp

/-- The loops start at an end, so they visit every node. -/
theorem SubFreeList.Wf.walk_eq (h : s.Wf env) (dir : AllocDirection) :
    s.walk dir = match dir with
      | .allocFromHead => s.nodes
      | .allocFromTail => s.nodes.reverse := by
  cases dir with
  | allocFromHead =>
      have hfirst := h.first
      unfold SubFreeList.walk
      cases hn : s.nodes with
      | nil => rfl
      | cons x xs =>
          rw [hn] at hfirst
          simp [hfirst]
  | allocFromTail =>
      have hlast := h.last
      rw [← List.head?_reverse] at hlast
      unfold SubFreeList.walk
      cases hn : s.nodes.reverse with
      | nil => rfl
      | cons x xs =>
          rw [hn] at hlast
          simp [hlast]

theorem SubFreeList.Wf.mem_walk (h : s.Wf env) {dir : AllocDirection} {n : RangeNode} :
    n ∈ s.walk dir ↔ n ∈ s.nodes := by
  rw [h.walk_eq]
  cases dir <;> simp

end Pointers

/-! ### Moving a range in and out -/

/-- `s'` is `s` without the `n` blocks from `low` on, all of which `s` had. -/
structure Removes (s s' : SubFreeList) (low n : Nat) : Prop where
  blockStart : s'.blockStart = s.blockStart
  blockEnd : s'.blockEnd = s.blockEnd
  has : ∀ b, s.Has b ↔ s'.Has b ∨ (low ≤ b ∧ b < low + n)
  off : ∀ b, low ≤ b → b < low + n → ¬ s'.Has b

section Moving

variable {s s' : SubFreeList} {A B M : List RangeNode} {c : RangeNode} {low n : Nat}

/-- Two ranges of a list never share a block. -/
theorem NodesOk.holds_unique {lo hi b : Nat} {l : List RangeNode} (h : NodesOk env lo hi l)
    {x y : RangeNode} (hx : x ∈ l) (hy : y ∈ l) (hbx : x.Holds b) (hby : y.Holds b) : x = y := by
  by_contra hne
  have hsym : Std.Symm fun a b : RangeNode => a.Below b ∨ b.Below a := ⟨fun _ _ => Or.symm⟩
  have hpw : l.Pairwise fun a b => a.Below b ∨ b.Below a := h.sorted.imp Or.inl
  have hbelow := hpw.forall hx hy hne
  unfold RangeNode.Below at hbelow
  unfold RangeNode.Holds at hbx hby
  omega

/-- One range against the pieces that are left of it: the taken blocks are the rest. -/
theorem removes_of_splice (hs : s.nodes = A ++ c :: B) (hs' : s'.nodes = A ++ (M ++ B))
    (ok : NodesOk env s.blockStart s.blockEnd s.nodes)
    (hstart : s'.blockStart = s.blockStart) (hend : s'.blockEnd = s.blockEnd)
    (hhas : ∀ b, c.Holds b ↔ (∃ m ∈ M, m.Holds b) ∨ (low ≤ b ∧ b < low + n))
    (hoff : ∀ m ∈ M, ∀ b, m.Holds b → ¬ (low ≤ b ∧ b < low + n)) :
    Removes s s' low n := by
  refine ⟨hstart, hend, ?_, ?_⟩
  · intro b
    unfold SubFreeList.Has
    rw [hs, hs']
    simp only [List.mem_append, List.mem_cons, or_and_right, exists_or, exists_eq_left, hhas b]
    grind
  · rintro b hlow hhigh ⟨m, hm, hmb⟩
    have hc : c.Holds b := (hhas b).mpr (Or.inr ⟨hlow, hhigh⟩)
    have hok := ok
    rw [hs] at hok
    obtain ⟨-, -, -, hA, hB⟩ := hok.middle
    rw [hs', List.mem_append, List.mem_append] at hm
    rcases hm with hm | hm | hm
    · have heq : m = c := ok.holds_unique (by simp [hs, hm]) (by simp [hs]) hmb hc
      exact hA (heq ▸ List.mem_map_of_mem hm)
    · exact hoff m hm b hmb ⟨hlow, hhigh⟩
    · have heq : m = c := ok.holds_unique (by simp [hs, hm]) (by simp [hs]) hmb hc
      exact hB (heq ▸ List.mem_map_of_mem hm)

/-- A single range is a good sequence. -/
theorem NodesOk.singleton {lo hi : Nat} (hne : c.rangeLow ≤ c.rangeHigh) (hlo : lo ≤ c.rangeLow)
    (hhi : c.rangeHigh ≤ hi) (hcsum : novaRangeNodeChecksumOk env c = true) :
    NodesOk env lo hi [c] := by
  refine ⟨by simp, ?_, ?_, ?_, by simp⟩
  · simpa using hne
  · simpa using ⟨hlo, hhi⟩
  · simpa using hcsum

/-- Cutting a node at one end: it stays where it is, so the ends and the count stay. -/
theorem SubFreeList.Wf.cut_node (h : s.Wf env) (hs : s.nodes = A ++ c :: B)
    (f : RangeNode → RangeNode) (low n : Nat) (haddr : (f c).addr = c.addr)
    (hcsum : novaRangeNodeChecksumOk env (f c) = true)
    (hne : (f c).rangeLow ≤ (f c).rangeHigh) (hsize : (f c).size + n = c.size)
    (hlow : c.rangeLow ≤ (f c).rangeLow) (hhigh : (f c).rangeHigh ≤ c.rangeHigh)
    (hrange : ∀ b, low ≤ b ∧ b < low + n ↔ c.Holds b ∧ ¬ (f c).Holds b) :
    SubFreeList.Wf env { s.modify c.addr f with numFreeBlocks := s.numFreeBlocks - n } ∧
      Removes s (s.modify c.addr f) low n := by
  have hmod := SubFreeList.modify_nodes hs h.ok f
  have hok := h.ok
  rw [hs] at hok
  obtain ⟨-, hlo, hhi, hA, hB⟩ := hok.middle
  have hsingle : NodesOk env s.blockStart s.blockEnd [f c] :=
    NodesOk.singleton hne (by omega) (by omega) hcsum
  have hnew : NodesOk env s.blockStart s.blockEnd (A ++ ([f c] ++ B)) := by
    refine hok.shrink hsingle ?_ ?_
    · simpa using ⟨hlow, hhigh⟩
    · simpa [haddr] using And.intro hA hB
  refine ⟨⟨?_, ?_, ?_, ?_, ?_, h.span⟩, ?_⟩
  · exact hmod ▸ hnew
  · show s.firstNode = ((s.modify c.addr f).nodes.head?).map RangeNode.addr
    rw [hmod, h.first, hs]
    cases A <;> simp [haddr]
  · show s.lastNode = ((s.modify c.addr f).nodes.getLast?).map RangeNode.addr
    rw [hmod, h.last, hs]
    cases B using List.reverseRecOn <;> simp [List.getLast?_cons, haddr]
  · show s.numBlocknode = (s.modify c.addr f).nodes.length
    rw [hmod, h.count, hs]
    simp
  · show s.numFreeBlocks - n = ((s.modify c.addr f).nodes.map RangeNode.size).sum
    rw [hmod, h.free, hs]
    simp only [List.map_append, List.map_cons, List.sum_append, List.sum_cons]
    omega
  · refine removes_of_splice (M := [f c]) hs hmod h.ok rfl rfl ?_ ?_
    · intro b
      have hsub : (f c).Holds b → c.Holds b := fun hb => ⟨by have := hb.1; omega, by have := hb.2; omega⟩
      rw [hrange b]
      simp only [List.mem_singleton, exists_eq_left]
      tauto
    · intro m hm b hmb hb
      rw [List.mem_singleton.mp hm] at hmb
      exact ((hrange b).mp hb).2 hmb

/-- Unlinking a used-up node: the cached ends move to its neighbours. -/
theorem SubFreeList.Wf.unlink (h : s.Wf env) (hs : s.nodes = A ++ c :: B) :
    SubFreeList.Wf env
        { s.unlink env c ((s.rbNext c.addr).map RangeNode.addr)
            ((s.rbPrev c.addr).map RangeNode.addr) with
          numFreeBlocks := s.numFreeBlocks - c.size } ∧
      (s.unlink env c ((s.rbNext c.addr).map RangeNode.addr)
          ((s.rbPrev c.addr).map RangeNode.addr)).nodes = A ++ B := by
  have hok := h.ok
  rw [hs] at hok
  obtain ⟨-, -, -, hA, hB⟩ := hok.middle
  have hnodes : (s.unlink env c ((s.rbNext c.addr).map RangeNode.addr)
      ((s.rbPrev c.addr).map RangeNode.addr)).nodes = A ++ B :=
    SubFreeList.rbErase_nodes hs h.ok
  have hempty : NodesOk env s.blockStart s.blockEnd [] := ⟨by simp, by simp, by simp, by simp, by simp⟩
  have hnew : NodesOk env s.blockStart s.blockEnd (A ++ ([] ++ B)) :=
    hok.shrink hempty (by simp) (by simp)
  refine ⟨⟨?_, ?_, ?_, ?_, ?_, h.span⟩, hnodes⟩
  · exact hnodes ▸ hnew
  · show (if s.firstNode = some c.addr then (s.rbNext c.addr).map RangeNode.addr
      else s.firstNode) = _
    refine Eq.trans ?_ (congrArg (fun l => (List.head? l).map RangeNode.addr) hnodes.symm)
    rw [SubFreeList.rbNext_eq hs h.ok, h.first, hs]
    cases A with
    | nil => simp
    | cons a A =>
        have hne : a.addr ≠ c.addr := fun heq => hA (by simp [← heq])
        simp [hne]
  · show (if s.lastNode = some c.addr then (s.rbPrev c.addr).map RangeNode.addr
      else s.lastNode) = _
    refine Eq.trans ?_ (congrArg (fun l => (List.getLast? l).map RangeNode.addr) hnodes.symm)
    rw [SubFreeList.rbPrev_eq hs h.ok, h.last, hs]
    cases B using List.reverseRecOn with
    | nil => simp
    | append_singleton B b =>
        have hne : b.addr ≠ c.addr := fun heq => hB (by simp [← heq])
        simp [List.getLast?_append, List.getLast?_cons, hne]
  · show s.numBlocknode - 1 = _
    refine Eq.trans ?_ (congrArg List.length hnodes.symm)
    rw [h.count, hs]
    simp
  · show s.numFreeBlocks - c.size = _
    refine Eq.trans ?_ (congrArg (fun l => (List.map RangeNode.size l).sum) hnodes.symm)
    rw [h.free, hs]
    simp only [List.map_append, List.map_cons, List.sum_append, List.sum_cons]
    omega

end Moving

/-! ### Linking a new node -/

/-- A node goes between what lies below it and what lies above it. -/
theorem novaInsertBlocktree_ok {lo hi : Nat} {tree : RbTree RangeNode} {A B : List RangeNode}
    (node : RangeNode) (ok : NodesOk env lo hi tree.toList) (htree : tree.toList = A ++ B)
    (hA : ∀ a ∈ A, a.rangeHigh < node.rangeLow) (hB : ∀ b ∈ B, node.rangeLow < b.rangeLow) :
    ∃ tree', novaInsertBlocktree env tree node = .ok tree' ∧ tree'.toList = A ++ node :: B := by
  have hAgt : ∀ a ∈ A, novaRbtreeCompareRangenode node.rangeLow a = .gt := by
    intro a ha
    have hne := ok.nonempty a (by simp [htree, ha])
    have := hA a ha
    exact novaRbtreeCompareRangenode_eq_gt.mpr ⟨by omega, this⟩
  have hBlt : ∀ b ∈ B, novaRbtreeCompareRangenode node.rangeLow b = .lt :=
    fun b hb => novaRbtreeCompareRangenode_eq_lt.mpr (hB b hb)
  unfold novaInsertBlocktree
  cases hlink : RbTree.link (novaRbtreeCompareRangenode node.rangeLow) node tree with
  | none =>
      obtain ⟨a, ha, heq⟩ := RbTree.link_none _ _ hlink
      rw [htree, List.mem_append] at ha
      rcases ha with ha | ha
      · simp [hAgt a ha] at heq
      · simp [hBlt a ha] at heq
  | some t =>
      obtain ⟨A', B', hAB, hA', hB', ht⟩ := RbTree.link_some _ _ (ok.cut _) hlink
      obtain ⟨rfl, rfl⟩ := RbTree.split_unique (htree ▸ hAB) hAgt hBlt hA' hB'
      exact ⟨env.rb.insertColor t, rfl, by simp [ht]⟩

/-! ### Allocating -/

section Alloc

variable {s s' : SubFreeList} {c : RangeNode} {num n low addr : Nat} {dir : AllocDirection}

/-- No list of this size can count past 32 bits. -/
theorem SubFreeList.Wf.numFreeBlocks_lt (h : s.Wf env) : s.numFreeBlocks < 2 ^ 32 := by
  have := h.ok.sum_size_le
  have := h.span
  rw [h.free]
  omega

theorem SubFreeList.Wf.size_le (h : s.Wf env) (hc : c ∈ s.nodes) : c.size ≤ s.numFreeBlocks := by
  obtain ⟨A, B, hs⟩ := List.append_of_mem hc
  rw [h.free, hs]
  simp only [List.map_append, List.map_cons, List.sum_append, List.sum_cons]
  omega

theorem SubFreeList.Wf.size_lt (h : s.Wf env) (hc : c ∈ s.nodes) : c.size < 2 ^ 32 :=
  lt_of_le_of_lt (h.size_le hc) h.numFreeBlocks_lt

theorem RangeNode.leftMargin_bounds (c : RangeNode) : 0 < c.leftMargin ∧ c.leftMargin ≤ 512 := by
  unfold RangeNode.leftMargin pagesPer2MB
  omega

/-- A superpage never starts at block 0. -/
theorem RangeNode.start_ne_zero (c : RangeNode) : c.rangeLow + c.leftMargin ≠ 0 := by
  have hpos := c.leftMargin_bounds.1
  exact Nat.ne_of_gt (Nat.add_pos_right _ hpos)

/-- A path has taken the `n` blocks from `low` on, and has only the counter of free
blocks left to adjust. -/
structure Takes (env : BallocEnv) (s s' : SubFreeList) (num low n : Nat) : Prop where
  counter : s'.numFreeBlocks = s.numFreeBlocks
  pos : 0 < n
  le : n ≤ num
  fits : ∃ c ∈ s.nodes, n ≤ c.size
  wf : SubFreeList.Wf env { s' with numFreeBlocks := s.numFreeBlocks - n }
  removes : Removes s s' low n

/-- **The plain path takes a range off the node it was given.** -/
theorem plainTake_spec (h : s.Wf env) (hc : c ∈ s.nodes) (hnum : 0 < num)
    (hr : plainTake env s c num dir = (s', n, low)) :
    Takes env s s' num low n := by
  obtain ⟨A, B, hs⟩ := List.append_of_mem hc
  have hok := h.ok
  rw [hs] at hok
  have hne := hok.middle.1
  unfold plainTake at hr
  by_cases hwhole : num ≥ c.size
  · rw [if_pos hwhole, Prod.mk.injEq, Prod.mk.injEq] at hr
    obtain ⟨rfl, rfl, rfl⟩ := hr
    obtain ⟨hwf, hnodes⟩ := h.unlink hs
    refine ⟨rfl, ?_, hwhole, ⟨c, hc, le_refl _⟩, hwf, ?_⟩
    · unfold RangeNode.size
      omega
    · refine removes_of_splice (M := []) hs hnodes h.ok rfl rfl ?_ (by simp)
      intro b
      simp only [RangeNode.Holds, RangeNode.size]
      simp
      omega
  · rw [if_neg hwhole] at hr
    unfold RangeNode.size at hwhole
    cases dir with
    | allocFromHead =>
        simp only [Prod.mk.injEq] at hr
        obtain ⟨rfl, rfl, rfl⟩ := hr
        obtain ⟨hwf, hrem⟩ := h.cut_node hs
          (fun q => novaUpdateRangeNodeChecksum env { q with rangeLow := q.rangeLow + num })
          c.rangeLow num
          (by simp) (by simp) (by simp; omega) (by simp [RangeNode.size]; omega) (by simp) (by simp)
          (by simp [RangeNode.Holds]; omega)
        exact ⟨rfl, hnum, le_refl _, ⟨c, hc, by unfold RangeNode.size; omega⟩, hwf, hrem⟩
    | allocFromTail =>
        simp only [Prod.mk.injEq] at hr
        obtain ⟨rfl, rfl, rfl⟩ := hr
        obtain ⟨hwf, hrem⟩ := h.cut_node hs
          (fun q => novaUpdateRangeNodeChecksum env { q with rangeHigh := q.rangeHigh - num })
          (c.rangeHigh + 1 - num) num
          (by simp) (by simp) (by simp; omega) (by simp [RangeNode.size]; omega) (by simp) (by simp)
          (by simp [RangeNode.Holds]; omega)
        exact ⟨rfl, hnum, le_refl _, ⟨c, hc, by unfold RangeNode.size; omega⟩, hwf, hrem⟩

/-- What a list-level allocation may do: fail and change nothing, or hand out a range. -/
def AllocSpec (env : BallocEnv) (s : SubFreeList) (num : Nat) :
    SubFreeList × Except Errno (Nat × Nat) → Prop
  | (s', .error _) => s' = s
  | (s', .ok (n, low)) =>
    0 < n ∧ n ≤ num ∧ (∃ c ∈ s.nodes, n ≤ c.size) ∧ s'.Wf env ∧ Removes s s' low n

theorem Takes.alloc (h : s.Wf env) (ht : Takes env s s' num low n) :
    n ≤ s'.numFreeBlocks ∧
      AllocSpec env s num ({ s' with numFreeBlocks := s'.numFreeBlocks - n }, .ok (n, low)) := by
  obtain ⟨c, hc, hsize⟩ := ht.fits
  have hle := h.size_le hc
  have hcounter := ht.counter
  rw [hcounter]
  have hrem := ht.removes
  exact ⟨by omega, ht.pos, ht.le, ht.fits, ht.wf,
    hrem.blockStart, hrem.blockEnd, hrem.has, hrem.off⟩

theorem plainAlloc_spec (h : s.Wf env) (hnum : 0 < num) (btype : BlockType) (dir : AllocDirection) :
    AllocSpec env s num (plainAlloc env s btype num dir) := by
  unfold plainAlloc
  cases hsearch : plainSearch env btype num (s.walk dir) with
  | none => rfl
  | some c =>
      have hc : c ∈ s.nodes := h.mem_walk.mp (List.mem_of_find?_eq_some hsearch)
      cases htake : plainTake env s c num dir with
      | mk s' r =>
          obtain ⟨n, low⟩ := r
          obtain ⟨hle, hspec⟩ := (plainTake_spec h hc hnum htake).alloc h
          simp only [htake]
          rw [if_neg (by omega)]
          exact hspec

/-- A superpage search settles on a node with room above its left margin. -/
theorem superpageSearch_spec {l : List RangeNode} (hbound : ∀ c ∈ l, c.size < 2 ^ 32)
    (hnum : 0 < num) (hr : superpageSearch env l num = (some c, n)) :
    c ∈ l ∧ 0 < n ∧ n ≤ num ∧ c.leftMargin + n ≤ c.size := by
  induction l generalizing num with
  | nil => simp [superpageSearch] at hr
  | cons x xs ih =>
      have hx := hbound x (by simp)
      have hmargin := x.leftMargin_bounds
      have hxs : ∀ c ∈ xs, c.size < 2 ^ 32 := fun c hc => hbound c (by simp [hc])
      rw [superpageSearch] at hr
      by_cases hcsum : (!novaRangeNodeChecksumOk env x) = true
      · rw [if_pos hcsum] at hr
        obtain ⟨hmem, hrest⟩ := ih hxs hnum hr
        exact ⟨by simp [hmem], hrest⟩
      · rw [if_neg hcsum] at hr
        dsimp only at hr
        by_cases hfit : x.leftMargin ≤ x.size
        · -- the margin fits, so `room` is a plain difference
          rw [subU64_of_le hfit (by omega)] at hr
          unfold pagesPer2MB at hr
          split at hr
          · rename_i hshrink
            split at hr
            · simp only [Prod.mk.injEq, Option.some.injEq] at hr
              obtain ⟨rfl, rfl⟩ := hr
              exact ⟨by simp, by omega, by omega, by omega⟩
            · omega
          · split at hr
            · simp only [Prod.mk.injEq, Option.some.injEq] at hr
              obtain ⟨rfl, rfl⟩ := hr
              exact ⟨by simp, hnum, le_refl _, by omega⟩
            · obtain ⟨hmem, hrest⟩ := ih hxs hnum hr
              exact ⟨by simp [hmem], hrest⟩
        · -- `room` wraps to something no node reaches
          rw [if_neg (by omega : ¬ (x.size > x.leftMargin ∧ _))] at hr
          split at hr
          · rename_i hshrink
            have hbest : 0 < subU64 x.size x.leftMargin / pagesPer2MB * pagesPer2MB := hshrink.2
            obtain ⟨hmem, hpos, hle, hsize⟩ := ih hxs hbest hr
            refine ⟨by simp [hmem], hpos, ?_, hsize⟩
            have := Nat.div_mul_le_self (subU64 x.size x.leftMargin) pagesPer2MB
            omega
          · obtain ⟨hmem, hrest⟩ := ih hxs hnum hr
            exact ⟨by simp [hmem], hrest⟩

/-- Splitting a node in two around a range, with a fresh node for the upper part. -/
theorem SubFreeList.Wf.split_node {A B : List RangeNode} (h : s.Wf env)
    (hs : s.nodes = A ++ c :: B) (f : RangeNode → RangeNode) (node : RangeNode) (low n : Nat)
    (hf : (f c).addr = c.addr ∧ novaRangeNodeChecksumOk env (f c) = true ∧
      (f c).rangeLow = c.rangeLow ∧ (f c).rangeHigh < low ∧ c.rangeLow ≤ (f c).rangeHigh ∧
      (f c).rangeHigh + 1 = low)
    (hnode : node.rangeLow = low + n ∧ node.rangeHigh = c.rangeHigh ∧ low + n ≤ c.rangeHigh ∧
      novaRangeNodeChecksumOk env node = true)
    (hpos : 0 < n) (hfresh : node.addr ∉ s.nodes.map RangeNode.addr) :
    ∃ tree, novaInsertBlocktree env (s.modify c.addr f).blockFreeTree node = .ok tree ∧
      SubFreeList.Wf env { s.modify c.addr f with
        blockFreeTree := tree
        numBlocknode := s.numBlocknode + 1
        lastNode := if s.lastNode = some c.addr then some node.addr else s.lastNode
        numFreeBlocks := s.numFreeBlocks - n } ∧
      tree.toList = A ++ ([f c, node] ++ B) := by
  obtain ⟨haddr, hcsum, hflow, hflt, hfne, hfhigh⟩ := hf
  obtain ⟨hnlow, hnhigh, hnne, hncsum⟩ := hnode
  have hmod := SubFreeList.modify_nodes hs h.ok f
  have hok := h.ok
  rw [hs] at hok
  obtain ⟨hne, hlo, hhi, hA, hB⟩ := hok.middle
  simp only [hs, List.map_append, List.map_cons, List.mem_append, List.mem_cons, not_or] at hfresh
  obtain ⟨hfA, hfc, hfB⟩ := hfresh
  have hsingle : NodesOk env s.blockStart s.blockEnd [f c] :=
    NodesOk.singleton (by omega) (by omega) (by omega) hcsum
  have hpair : NodesOk env s.blockStart s.blockEnd [f c, node] := by
    refine ⟨?_, ?_, ?_, ?_, ?_⟩
    · simp [RangeNode.Below]; omega
    · simp; omega
    · simp; omega
    · simpa using ⟨hcsum, hncsum⟩
    · simpa [haddr] using fun heq => hfc heq.symm
  have hcutOk : NodesOk env s.blockStart s.blockEnd (A ++ ([f c] ++ B)) :=
    hok.shrink hsingle (by simp; omega) (by simpa [haddr] using And.intro hA hB)
  have hnew : NodesOk env s.blockStart s.blockEnd (A ++ ([f c, node] ++ B)) :=
    hok.shrink hpair (by simp; omega) (by
      intro m hm
      simp only [List.mem_cons, List.not_mem_nil, or_false] at hm
      rcases hm with rfl | rfl
      · exact haddr ▸ ⟨hA, hB⟩
      · exact ⟨hfA, hfB⟩)
  have hsort := hok.sorted
  rw [List.pairwise_append, List.pairwise_cons] at hsort
  obtain ⟨-, ⟨hcB, -⟩, hcross⟩ := hsort
  have hmodTree : (s.modify c.addr f).blockFreeTree.toList = (A ++ [f c]) ++ B := by
    rw [show (s.modify c.addr f).blockFreeTree.toList = _ from hmod]
    simp
  have hmodOk : NodesOk env s.blockStart s.blockEnd (s.modify c.addr f).blockFreeTree.toList := by
    rw [show (s.modify c.addr f).blockFreeTree.toList = _ from hmod]
    exact hcutOk
  obtain ⟨tree, htree, hlist⟩ := novaInsertBlocktree_ok node hmodOk hmodTree
    (by
      intro a ha
      rcases List.mem_append.mp ha with ha | ha
      · have : a.rangeHigh + 1 < c.rangeLow := hcross a ha c (by simp)
        omega
      · rw [List.mem_singleton.mp ha]
        omega)
    (by
      intro b hb
      have : c.rangeHigh + 1 < b.rangeLow := hcB b hb
      omega)
  have hlist' : tree.toList = A ++ ([f c, node] ++ B) := by rw [hlist]; simp
  refine ⟨tree, htree, ⟨?_, ?_, ?_, ?_, ?_, h.span⟩, hlist'⟩
  · show NodesOk env s.blockStart s.blockEnd tree.toList
    exact hlist' ▸ hnew
  · show s.firstNode = tree.toList.head?.map RangeNode.addr
    rw [hlist', h.first, hs]
    cases A <;> simp [haddr]
  · show (if s.lastNode = some c.addr then some node.addr else s.lastNode) =
      tree.toList.getLast?.map RangeNode.addr
    rw [hlist', h.last, hs]
    cases B using List.reverseRecOn with
    | nil => simp
    | append_singleton B b =>
        have hne : b.addr ≠ c.addr := fun heq => hB (by simp [← heq])
        simp [List.getLast?_append, List.getLast?_cons, hne]
  · show s.numBlocknode + 1 = tree.toList.length
    rw [hlist', h.count, hs]
    simp
    omega
  · show s.numFreeBlocks - n = (tree.toList.map RangeNode.size).sum
    rw [hlist', h.free, hs]
    simp only [List.map_append, List.map_cons, List.map_nil, List.sum_append, List.sum_cons,
      List.sum_nil, RangeNode.size]
    omega

/-- Cutting the range out of a node with room for it. -/
theorem superpageTake_spec (h : s.Wf env) (hc : c ∈ s.nodes)
    (hpos : 0 < n) (hle : n ≤ num) (hroom : c.leftMargin + n ≤ c.size)
    (hfresh : addr ∉ s.nodes.map RangeNode.addr) :
    ∃ s', superpageTake env s c n (some addr) = (s', .ok n) ∧
      Takes env s s' num (c.rangeLow + c.leftMargin) n := by
  have hlt := h.numFreeBlocks_lt
  have hsize := h.size_le hc
  have hmargin := c.leftMargin_bounds
  obtain ⟨A, B, hs⟩ := List.append_of_mem hc
  have hok := h.ok
  rw [hs] at hok
  have hne := hok.middle.1
  have hsizec : c.size = c.rangeHigh + 1 - c.rangeLow := rfl
  have hright : toU32 (subU64 (subU64 c.size c.leftMargin) n) = c.size - c.leftMargin - n := by
    rw [subU64_of_le (a := c.size) (by omega) (by omega), subU64_of_le (by omega) (by omega),
      toU32_of_lt (by omega)]
  have hleft : c.leftMargin ≠ 0 := by omega
  unfold superpageTake
  simp only [hright, hleft, ne_eq, not_false_eq_true, if_true, if_false]
  by_cases hzero : c.size - c.leftMargin - n = 0
  · simp only [hzero, not_true_eq_false, if_false]
    obtain ⟨hwf, hrem⟩ := h.cut_node hs
      (fun q => novaUpdateRangeNodeChecksum env
        { q with rangeHigh := q.rangeLow + c.leftMargin - 1 }) (c.rangeLow + c.leftMargin) n
      (by simp) (by simp) (by simp; omega) (by simp [RangeNode.size]; omega) (by simp)
      (by simp; omega) (by simp [RangeNode.Holds]; omega)
    exact ⟨_, rfl, rfl, hpos, hle, ⟨c, hc, by omega⟩, hwf, hrem⟩
  · simp only [hzero, not_false_eq_true, if_true]
    obtain ⟨tree, htree, hwf, hlist⟩ := h.split_node hs
      (fun q => novaUpdateRangeNodeChecksum env
        { q with rangeHigh := q.rangeLow + c.leftMargin - 1 })
      (novaFreshNode env addr (c.rangeLow + c.leftMargin + n) c.rangeHigh)
      (c.rangeLow + c.leftMargin) n
      (by simp; omega) (by simp [novaFreshNode]; omega) hpos (by simpa [novaFreshNode] using hfresh)
    refine ⟨_, rfl, rfl, hpos, hle, ⟨c, hc, by omega⟩, ?_, ?_⟩
    · rw [htree]
      simp only [novaFreshNode, novaUpdateRangeNodeChecksum_addr] at hwf
      exact hwf
    · rw [htree]
      refine removes_of_splice hs hlist h.ok rfl rfl ?_ ?_
      · intro b
        simp [RangeNode.Holds, novaFreshNode]
        omega
      · intro m hm b hmb
        simp only [List.mem_cons, List.not_mem_nil, or_false] at hm
        rcases hm with rfl | rfl <;> simp [RangeNode.Holds, novaFreshNode] at hmb <;> omega

/-- What the search settles on can be cut. -/
theorem superpageSearch_take (h : s.Wf env) (hnum : 0 < num)
    (hfresh : addr ∉ s.nodes.map RangeNode.addr)
    (hsearch : superpageSearch env (s.walk dir) num = (some c, n)) :
    ∃ s', superpageTake env s c n (some addr) = (s', .ok n) ∧
      Takes env s s' num (c.rangeLow + c.leftMargin) n := by
  obtain ⟨hmem, hpos, hle, hroom⟩ :=
    superpageSearch_spec (fun c hc => h.size_lt (h.mem_walk.mp hc)) hnum hsearch
  exact superpageTake_spec h (h.mem_walk.mp hmem) hpos hle hroom hfresh

/-- **The superpage path takes a range from inside one node.**  The left margin is
never empty, so the node always survives as the part below the range. -/
theorem novaAllocSuperpage_spec (h : s.Wf env) (hnum : 0 < num) (dir : AllocDirection)
    (hfresh : addr ∉ s.nodes.map RangeNode.addr) :
    novaAllocSuperpage env s num dir (some addr) = (s, .ok 0, 0) ∨
      ∃ s' n low, novaAllocSuperpage env s num dir (some addr) = (s', .ok n, low) ∧ low ≠ 0 ∧
        Takes env s s' num low n := by
  rcases hsearch : superpageSearch env (s.walk dir) num with ⟨_ | c, n⟩
  · left
    rw [novaAllocSuperpage, hsearch]
  · right
    obtain ⟨s', htake, hspec⟩ := superpageSearch_take h hnum hfresh hsearch
    refine ⟨s', n, c.rangeLow + c.leftMargin, ?_, c.start_ne_zero, hspec⟩
    rw [novaAllocSuperpage, hsearch]
    dsimp only
    rw [htake]

/-- **Allocating from one list hands out blocks the list had, or changes nothing.** -/
theorem novaAllocBlocksInFreeList_spec (h : s.Wf env) (hnum : 0 < num) (btype : BlockType)
    (atype : AllocType) (hfresh : addr ∉ s.nodes.map RangeNode.addr) :
    AllocSpec env s num
      (novaAllocBlocksInFreeList env s btype atype num dir (some addr)) := by
  have hplain := plainAlloc_spec h hnum btype dir
  unfold novaAllocBlocksInFreeList
  split
  · rfl
  · split
    · rfl
    · split
      · rcases novaAllocSuperpage_spec h hnum dir hfresh with
          hsuper | ⟨s', n, low, hsuper, hlow, ht⟩
        · rw [hsuper]
          simpa using hplain
        · obtain ⟨hle, hspec⟩ := ht.alloc h
          have hlt := h.numFreeBlocks_lt
          have hcounter := ht.counter
          rw [hsuper]
          dsimp only
          rw [if_pos ⟨ht.pos, hlow⟩, subU64_of_le hle (by omega)]
          exact hspec
      · exact hplain

end Alloc

/-! ### Freeing -/

section Free

variable {s s' : SubFreeList} {A B M : List RangeNode} {low n addr : Nat}

/-- **A free slot is found between the range's two neighbours.** -/
theorem novaFindFreeSlot_between {lo hi : Nat} (ok : NodesOk env lo hi s.nodes) (hn : 0 < n)
    (hoff : ∀ b, low ≤ b → b < low + n → ¬ s.Has b) :
    ∃ A B, s.nodes = A ++ B ∧ (∀ a ∈ A, a.rangeHigh < low) ∧ (∀ b ∈ B, low + n ≤ b.rangeLow) ∧
      novaFindFreeSlot env s low (low + n - 1) = .ok (A.getLast?, B.head?) := by
  have hdescend : ∃ A B, s.nodes = A ++ B ∧ (∀ a ∈ A, a.rangeHigh < low) ∧
      (∀ b ∈ B, low + n ≤ b.rangeLow) ∧ ∃ res,
      RbTree.descend (novaRbtreeCompareRangenode low) none s.blockFreeTree = (false, res) ∧
      ((s.nodes = [] ∧ res = none) ∨
        ∃ a, res = some a ∧ (A.getLast? = some a ∨ B.head? = some a)) := by
    rcases hrun : RbTree.descend (novaRbtreeCompareRangenode low) none s.blockFreeTree with
      ⟨_ | _, res⟩
    · obtain ⟨A, B, hAB, hA, hB, hres⟩ := RbTree.descend_miss _ (ok.cut low) hrun
      refine ⟨A, B, hAB, ?_, ?_, res, rfl, hres⟩
      · intro a ha
        exact (novaRbtreeCompareRangenode_eq_gt.mp (hA a ha)).2
      · intro b hb
        have hlt := novaRbtreeCompareRangenode_eq_lt.mp (hB b hb)
        have hmem : b ∈ s.nodes := by simp [SubFreeList.nodes, hAB, hb]
        by_contra hcon
        exact hoff b.rangeLow (by omega) (by omega)
          ⟨b, hmem, le_refl _, ok.nonempty b hmem⟩
    · obtain ⟨a, -, hmem, heq⟩ := RbTree.descend_hit _ hrun
      exact absurd ⟨a, hmem, novaRbtreeCompareRangenode_eq_eq.mp heq⟩
        (hoff low (le_refl _) (by omega))
  obtain ⟨A, B, hAB, hA, hB, res, hrun, hres⟩ := hdescend
  refine ⟨A, B, hAB, hA, hB, ?_⟩
  unfold novaFindFreeSlot novaFindRangeNode
  rw [hrun]
  rcases hres with ⟨hempty, rfl⟩ | ⟨a, rfl, hlast | hhead⟩
  · obtain ⟨rfl, rfl⟩ := List.append_eq_nil_iff.mp (hAB ▸ hempty)
    rfl
  · -- the walk stopped below the range
    obtain ⟨A', rfl⟩ := List.getLast?_eq_some_iff.mp hlast
    have hnodes : s.nodes = A' ++ a :: B := by simpa using hAB
    have hmem : a ∈ s.nodes := by simp [hnodes]
    have hcsum := ok.checksum a hmem
    have hbelow := hA a (by simp)
    simp only [hcsum, Bool.not_true, Bool.false_eq_true, if_false, hbelow, if_true,
      SubFreeList.rbNext_eq hnodes ok, hlast]
    cases B with
    | nil => rfl
    | cons b B =>
        have hb := ok.checksum b (by simp [hnodes])
        simp [hb]
  · -- the walk stopped above it
    obtain ⟨B', rfl⟩ := List.head?_eq_some_iff.mp hhead
    have hmem : a ∈ s.nodes := by simp [hAB]
    have hcsum := ok.checksum a hmem
    have hne := ok.nonempty a hmem
    have habove := hB a (by simp)
    simp only [hcsum, Bool.not_true, Bool.false_eq_true, if_false,
      SubFreeList.rbPrev_eq hAB ok, hhead]
    rw [if_neg (by omega), if_pos (by omega)]
    cases hprev : A.getLast? with
    | none => rfl
    | some p =>
        have hp := ok.checksum p (by simp [hAB, List.mem_of_getLast? hprev])
        simp [hp]

theorem novaFindFreeSlot_spec (h : s.Wf env) (hn : 0 < n)
    (hoff : ∀ b, low ≤ b → b < low + n → ¬ s.Has b) :
    ∃ A B, s.nodes = A ++ B ∧ (∀ a ∈ A, a.rangeHigh < low) ∧ (∀ b ∈ B, low + n ≤ b.rangeLow) ∧
      novaFindFreeSlot env s low (low + n - 1) = .ok (A.getLast?, B.head?) :=
  novaFindFreeSlot_between h.ok hn hoff

/-- A range that does not touch its lower neighbour touches nothing below. -/
theorem NodesOk.gap_below {lo hi : Nat} (ok : NodesOk env lo hi (A ++ B))
    (hA : ∀ a ∈ A, a.rangeHigh < low) {p : RangeNode} (hp : A.getLast? = some p)
    (hne : ¬ low = p.rangeHigh + 1) : ∀ a ∈ A, a.rangeHigh + 1 < low := by
  intro a ha
  obtain ⟨A', rfl⟩ := List.getLast?_eq_some_iff.mp hp
  have hsort := ok.sorted
  rw [List.append_assoc, List.pairwise_append] at hsort
  have hplow := hA p (by simp)
  have hpne := ok.nonempty p (by simp)
  rcases List.mem_append.mp ha with ha | ha
  · have : a.rangeHigh + 1 < p.rangeLow := hsort.2.2 a ha p (by simp)
    omega
  · rw [List.mem_singleton.mp ha]
    omega

/-- A range that does not touch its upper neighbour touches nothing above. -/
theorem NodesOk.gap_above {lo hi : Nat} (ok : NodesOk env lo hi (A ++ B))
    (hB : ∀ b ∈ B, low ≤ b.rangeLow) {q : RangeNode} (hq : B.head? = some q)
    (hne : ¬ low = q.rangeLow) : ∀ b ∈ B, low < b.rangeLow := by
  intro b hb
  obtain ⟨B', rfl⟩ := List.head?_eq_some_iff.mp hq
  have hsort := ok.sorted
  rw [List.pairwise_append, List.pairwise_cons] at hsort
  have hqhigh := hB q (by simp)
  have hqne := ok.nonempty q (by simp)
  rcases List.mem_cons.mp hb with rfl | hb
  · omega
  · have : q.rangeHigh + 1 < b.rangeLow := hsort.2.1.1 b hb
    omega

/-- Putting one node where some neighbours were, larger by the freed range. -/
theorem SubFreeList.Wf.grow (h : s.Wf env) (hs : s.nodes = A ++ (M ++ B)) (c : RangeNode)
    (hs' : s'.nodes = A ++ c :: B) (hstart : s'.blockStart = s.blockStart)
    (hend : s'.blockEnd = s.blockEnd)
    (hc : NodesOk env s.blockStart s.blockEnd [c])
    (hA : ∀ a ∈ A, a.Below c) (hB : ∀ b ∈ B, c.Below b)
    (haddr : c.addr ∉ A.map RangeNode.addr ∧ c.addr ∉ B.map RangeNode.addr)
    (hfirst : s'.firstNode = (A ++ c :: B).head?.map RangeNode.addr)
    (hlast : s'.lastNode = (A ++ c :: B).getLast?.map RangeNode.addr)
    (hcount : s'.numBlocknode = (A ++ c :: B).length)
    (hfree : s'.numFreeBlocks = ((A ++ c :: B).map RangeNode.size).sum)
    (hhas : ∀ b, c.Holds b ↔ (∃ m ∈ M, m.Holds b) ∨ (low ≤ b ∧ b < low + n))
    (hoff : ∀ m ∈ M, ∀ b, m.Holds b → ¬ (low ≤ b ∧ b < low + n)) :
    s'.Wf env ∧ Removes s' s low n := by
  have hnew : NodesOk env s.blockStart s.blockEnd (A ++ ([c] ++ B)) := by
    have hok := h.ok
    rw [hs] at hok
    exact hok.splice hc (by simpa using hA) (by simpa using hB) (by simpa using haddr)
  have hok' : NodesOk env s'.blockStart s'.blockEnd s'.nodes := by
    rw [hstart, hend, hs']
    exact hnew
  refine ⟨⟨hok', ?_, ?_, ?_, ?_, ?_⟩, ?_⟩
  · rw [hfirst, hs']
  · rw [hlast, hs']
  · rw [hcount, hs']
  · rw [hfree, hs']
  · rw [hstart, hend]
    exact h.span
  · exact removes_of_splice hs' hs hok' hstart.symm hend.symm hhas hoff

/-- The range touches its lower neighbour only. -/
theorem free_left (h : s.Wf env) {p : RangeNode} (hs : s.nodes = A ++ p :: B) (hn : 0 < n)
    (hhi : low + n ≤ s.blockEnd + 1) (hB : ∀ b ∈ B, low + n < b.rangeLow)
    (hleft : low = p.rangeHigh + 1) :
    let s' := s.modify p.addr fun q =>
      novaUpdateRangeNodeChecksum env { q with rangeHigh := q.rangeHigh + n }
    let r := { s' with
      numFreeBlocks := s'.numFreeBlocks + n
      freeCount := s'.freeCount + 1
      freedPages := s'.freedPages + n }
    r.Wf env ∧ Removes r s low n := by
  intro s' r
  have hmod : s'.nodes = A ++ _ :: B := SubFreeList.modify_nodes hs h.ok _
  have hok := h.ok
  rw [hs] at hok
  obtain ⟨hne, hlo, -, haA, haB⟩ := hok.middle
  have hsort := hok.sorted
  rw [List.pairwise_append, List.pairwise_cons] at hsort
  obtain ⟨-, -, hcross⟩ := hsort
  refine h.grow (M := [p]) (by simpa using hs) _ hmod rfl rfl ?_ ?_ ?_ ?_ ?_ ?_ ?_ ?_ ?_ ?_
  · exact NodesOk.singleton (by simp; omega) (by simpa using hlo) (by simp; omega) (by simp)
  · intro a ha
    have : a.rangeHigh + 1 < p.rangeLow := hcross a ha p (by simp)
    simpa [RangeNode.Below] using this
  · intro b hb
    have := hB b hb
    simp [RangeNode.Below]
    omega
  · rw [novaUpdateRangeNodeChecksum_addr]
    exact ⟨haA, haB⟩
  · show s.firstNode = _
    rw [h.first, hs]
    cases A <;> simp
  · show s.lastNode = _
    rw [h.last, hs]
    cases B using List.reverseRecOn <;> simp [List.getLast?_cons]
  · show s.numBlocknode = _
    rw [h.count, hs]
    simp
  · show s.numFreeBlocks + n = _
    rw [h.free, hs]
    simp [RangeNode.size]
    omega
  · intro b
    simp [RangeNode.Holds]
    omega
  · simp [RangeNode.Holds]
    omega

/-- The range touches its upper neighbour only. -/
theorem free_right (h : s.Wf env) {q : RangeNode} (hs : s.nodes = A ++ q :: B) (hn : 0 < n)
    (hlo : s.blockStart ≤ low) (hA : ∀ a ∈ A, a.rangeHigh + 1 < low)
    (hright : low + n = q.rangeLow) :
    let s' := s.modify q.addr fun m =>
      novaUpdateRangeNodeChecksum env { m with rangeLow := m.rangeLow - n }
    let r := { s' with
      numFreeBlocks := s'.numFreeBlocks + n
      freeCount := s'.freeCount + 1
      freedPages := s'.freedPages + n }
    r.Wf env ∧ Removes r s low n := by
  intro s' r
  have hmod : s'.nodes = A ++ _ :: B := SubFreeList.modify_nodes hs h.ok _
  have hok := h.ok
  rw [hs] at hok
  obtain ⟨hne, -, hhi, haA, haB⟩ := hok.middle
  have hsort := hok.sorted
  rw [List.pairwise_append, List.pairwise_cons] at hsort
  obtain ⟨-, ⟨hcB, -⟩, -⟩ := hsort
  refine h.grow (M := [q]) (by simpa using hs) _ hmod rfl rfl ?_ ?_ ?_ ?_ ?_ ?_ ?_ ?_ ?_ ?_
  · exact NodesOk.singleton (by simp; omega) (by simp; omega) (by simpa using hhi) (by simp)
  · intro a ha
    have := hA a ha
    simp [RangeNode.Below]
    omega
  · intro b hb
    have : q.rangeHigh + 1 < b.rangeLow := hcB b hb
    simpa [RangeNode.Below] using this
  · rw [novaUpdateRangeNodeChecksum_addr]
    exact ⟨haA, haB⟩
  · show s.firstNode = _
    rw [h.first, hs]
    cases A <;> simp
  · show s.lastNode = _
    rw [h.last, hs]
    cases B using List.reverseRecOn <;> simp [List.getLast?_cons]
  · show s.numBlocknode = _
    rw [h.count, hs]
    simp
  · show s.numFreeBlocks + n = _
    rw [h.free, hs]
    simp [RangeNode.size]
    omega
  · intro b
    simp [RangeNode.Holds]
    omega
  · simp [RangeNode.Holds]
    omega

/-- The range fills the hole between two nodes: the upper one goes. -/
theorem free_both (h : s.Wf env) {p q : RangeNode} (hs : s.nodes = A ++ p :: q :: B) (hn : 0 < n)
    (hleft : low = p.rangeHigh + 1) (hright : low + n = q.rangeLow) :
    let s₁ := s.rbErase env q.addr
    let s₂ := { s₁ with numBlocknode := s₁.numBlocknode - 1 }
    let s₃ := s₂.modify p.addr fun m =>
      novaUpdateRangeNodeChecksum env { m with rangeHigh := q.rangeHigh }
    let r := { s₃ with
      lastNode := if s₃.lastNode = some q.addr then some p.addr else s₃.lastNode
      numFreeBlocks := s₃.numFreeBlocks + n
      freeCount := s₃.freeCount + 1
      freedPages := s₃.freedPages + n }
    r.Wf env ∧ Removes r s low n := by
  intro s₁ s₂ s₃ r
  have hs' : s.nodes = (A ++ [p]) ++ q :: B := by simpa using hs
  have herase : s₂.nodes = A ++ p :: B := by
    have : s₁.nodes = (A ++ [p]) ++ B := SubFreeList.rbErase_nodes hs' h.ok
    show s₁.nodes = _
    simpa using this
  have hok := h.ok
  rw [hs] at hok
  have hokErased : NodesOk env s.blockStart s.blockEnd s₂.nodes := by
    have hok' := h.ok
    rw [hs'] at hok'
    have hnil : NodesOk env s.blockStart s.blockEnd [] :=
      ⟨by simp, by simp, by simp, by simp, by simp⟩
    have hshrunk : NodesOk env s.blockStart s.blockEnd ((A ++ [p]) ++ ([] ++ B)) :=
      hok'.shrink hnil (by simp) (by simp)
    rw [herase]
    simpa using hshrunk
  have hmod : s₃.nodes = A ++ _ :: B := SubFreeList.modify_nodes herase hokErased _
  obtain ⟨hnep, hlo, -, haA, haB⟩ := hok.middle
  obtain ⟨hneq, -, hhi, hqA, hqB⟩ := (hs' ▸ h.ok).middle
  have hsort := hok.sorted
  rw [List.pairwise_append, List.pairwise_cons, List.pairwise_cons] at hsort
  obtain ⟨-, ⟨-, hqBelow, -⟩, hcross⟩ := hsort
  refine h.grow (M := [p, q]) (by simpa using hs) _ hmod rfl rfl ?_ ?_ ?_ ?_ ?_ ?_ ?_ ?_ ?_ ?_
  · exact NodesOk.singleton (by simp; omega) (by simpa using hlo) (by simpa using hhi) (by simp)
  · intro a ha
    have : a.rangeHigh + 1 < p.rangeLow := hcross a ha p (by simp)
    simpa [RangeNode.Below] using this
  · intro b hb
    have : q.rangeHigh + 1 < b.rangeLow := hqBelow b hb
    simpa [RangeNode.Below] using this
  · have hpB : p.addr ∉ B.map RangeNode.addr := fun hmem => haB (by simp [hmem])
    rw [novaUpdateRangeNodeChecksum_addr]
    exact ⟨haA, hpB⟩
  · show s.firstNode = _
    rw [h.first, hs]
    cases A <;> simp
  · show (if s.lastNode = some q.addr then some p.addr else s.lastNode) = _
    rw [h.last, hs]
    cases B using List.reverseRecOn with
    | nil => simp
    | append_singleton B b =>
        have hne : b.addr ≠ q.addr := fun heq => hqB (by simp [← heq])
        simp [List.getLast?_append, List.getLast?_cons, hne]
  · show s.numBlocknode - 1 = _
    rw [h.count, hs]
    simp
  · show s.numFreeBlocks + n = _
    rw [h.free, hs]
    simp [RangeNode.size]
    omega
  · intro b
    simp [RangeNode.Holds]
    omega
  · intro m hm b hmb
    simp only [List.mem_cons, List.not_mem_nil, or_false] at hm
    unfold RangeNode.Holds at hmb
    rcases hm with rfl | rfl <;> omega

/-- The range touches nothing: a node of its own. -/
theorem free_middle (h : s.Wf env) (hs : s.nodes = A ++ B) (hn : 0 < n)
    (hlo : s.blockStart ≤ low) (hhi : low + n ≤ s.blockEnd + 1)
    (hA : ∀ a ∈ A, a.rangeHigh + 1 < low) (hB : ∀ b ∈ B, low + n < b.rangeLow)
    (hfresh : addr ∉ s.nodes.map RangeNode.addr) :
    ∃ tree, novaInsertBlocktree env s.blockFreeTree
        (novaFreshNode env addr low (low + n - 1)) = .ok tree ∧
      let r := { s with
        blockFreeTree := tree
        firstNode := if A.getLast?.isNone then some addr else s.firstNode
        lastNode := if B.head?.isNone then some addr else s.lastNode
        numBlocknode := s.numBlocknode + 1
        numFreeBlocks := s.numFreeBlocks + n
        freeCount := s.freeCount + 1
        freedPages := s.freedPages + n }
      r.Wf env ∧ Removes r s low n := by
  let node := novaFreshNode env addr low (low + n - 1)
  have hnlow : node.rangeLow = low := novaUpdateRangeNodeChecksum_rangeLow _
  have hnhigh : node.rangeHigh = low + n - 1 := novaUpdateRangeNodeChecksum_rangeHigh _
  have hnaddr : node.addr = addr := novaUpdateRangeNodeChecksum_addr _
  have hncsum : novaRangeNodeChecksumOk env node = true := novaRangeNodeChecksumOk_update _
  obtain ⟨tree, htree, hlist⟩ := novaInsertBlocktree_ok node h.ok hs
    (fun a ha => by have := hA a ha; omega) (fun b hb => by have := hB b hb; omega)
  refine ⟨tree, htree, ?_⟩
  refine h.grow (M := []) (by simpa using hs) node hlist rfl rfl ?_ ?_ ?_ ?_ ?_ ?_ ?_ ?_ ?_ ?_
  · exact NodesOk.singleton (by omega) (by omega) (by omega) hncsum
  · intro a ha
    have := hA a ha
    unfold RangeNode.Below
    omega
  · intro b hb
    have := hB b hb
    unfold RangeNode.Below
    omega
  · rw [hnaddr]
    rw [hs] at hfresh
    simpa [not_or] using hfresh
  · show (if A.getLast?.isNone then some addr else s.firstNode) = _
    rw [h.first, hs]
    cases A <;> simp [hnaddr]
  · show (if B.head?.isNone then some addr else s.lastNode) = _
    rw [h.last, hs]
    cases B <;> simp [hnaddr, List.getLast?_cons]
  · show s.numBlocknode + 1 = _
    rw [h.count, hs]
    simp
    omega
  · show s.numFreeBlocks + n = _
    rw [h.free, hs]
    simp only [List.map_append, List.map_cons, List.sum_append, List.sum_cons, RangeNode.size]
    omega
  · intro b
    simp [RangeNode.Holds]
    omega
  · simp

/-- **Freeing a range the list does not hold puts it into the list.** -/
theorem novaFreeBlocksIn_spec (h : s.Wf env) (hn : 0 < n) (hlo : s.blockStart ≤ low)
    (hhi : low + n ≤ s.blockEnd + 1) (hoff : ∀ b, low ≤ b → b < low + n → ¬ s.Has b)
    (hfresh : addr ∉ s.nodes.map RangeNode.addr) :
    ∃ s', novaFreeBlocksIn env s low n addr = (s', .ok ()) ∧ s'.Wf env ∧ Removes s' s low n := by
  obtain ⟨A, B, hs, hA, hB, hslot⟩ := novaFindFreeSlot_spec h hn hoff
  have hend : low + n - 1 + 1 = low + n := by omega
  have hbounds : ¬ (low < s.blockStart ∨ low + n - 1 > s.blockEnd + 1) := by omega
  unfold novaFreeBlocksIn
  simp only [hbounds, if_false, hslot, hend]
  have hAgap : ∀ {p}, A.getLast? = some p → ¬ low = p.rangeHigh + 1 →
      ∀ a ∈ A, a.rangeHigh + 1 < low := fun hp hne => (hs ▸ h.ok).gap_below hA hp hne
  have hBgap : ∀ {q}, B.head? = some q → ¬ low + n = q.rangeLow →
      ∀ b ∈ B, low + n < b.rangeLow := fun hq hne => (hs ▸ h.ok).gap_above hB hq hne
  cases hprev : A.getLast? with
  | none =>
      obtain rfl := List.getLast?_eq_none_iff.mp hprev
      cases hnext : B.head? with
      | none =>
          obtain rfl := List.head?_eq_none_iff.mp hnext
          obtain ⟨tree, htree, hres⟩ := free_middle h hs hn hlo hhi (by simp) (by simp) hfresh
          exact ⟨_, by simp [htree], hres⟩
      | some q =>
          by_cases hright : low + n = q.rangeLow
          · obtain ⟨B', rfl⟩ := List.head?_eq_some_iff.mp hnext
            exact ⟨_, by simp [hright], free_right h hs hn hlo (by simp) hright⟩
          · obtain ⟨tree, htree, hres⟩ :=
              free_middle h hs hn hlo hhi (by simp) (hBgap hnext hright) hfresh
            exact ⟨_, by simp [htree, hright, hnext], hres⟩
  | some p =>
      by_cases hleft : low = p.rangeHigh + 1
      · obtain ⟨A', rfl⟩ := List.getLast?_eq_some_iff.mp hprev
        have hs' : s.nodes = A' ++ p :: B := by simpa using hs
        cases hnext : B.head? with
        | none =>
            obtain rfl := List.head?_eq_none_iff.mp hnext
            exact ⟨_, by simp [hleft], free_left h hs' hn hhi (by simp) hleft⟩
        | some q =>
            by_cases hright : low + n = q.rangeLow
            · obtain ⟨B', rfl⟩ := List.head?_eq_some_iff.mp hnext
              have hfits : p.rangeHigh + 1 + n = q.rangeLow := hleft ▸ hright
              exact ⟨_, by simp [hleft, hfits], free_both h hs' hn hleft hright⟩
            · have hgap : ¬ p.rangeHigh + 1 + n = q.rangeLow := hleft ▸ hright
              exact ⟨_, by simp [hleft, hgap],
                free_left h hs' hn hhi (hBgap hnext hright) hleft⟩
      · have hAlow := hAgap hprev hleft
        cases hnext : B.head? with
        | none =>
            obtain rfl := List.head?_eq_none_iff.mp hnext
            obtain ⟨tree, htree, hres⟩ := free_middle h hs hn hlo hhi hAlow (by simp) hfresh
            exact ⟨_, by simp [htree, hleft, hprev], hres⟩
        | some q =>
            by_cases hright : low + n = q.rangeLow
            · obtain ⟨B', rfl⟩ := List.head?_eq_some_iff.mp hnext
              exact ⟨_, by simp [hleft, hright], free_right h hs hn hlo hAlow hright⟩
            · obtain ⟨tree, htree, hres⟩ :=
                free_middle h hs hn hlo hhi hAlow (hBgap hnext hright) hfresh
              exact ⟨_, by simp [htree, hleft, hright, hprev, hnext], hres⟩

end Free

end Parfs
