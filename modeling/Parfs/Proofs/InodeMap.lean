/-
What the inode maps mean.

A map stands for the set of internal numbers its ranges hold.  The first range starts
at 0 and covers the reserved numbers, which nobody can give back: that is why the
cached pointer to it never goes stale.  Allocation takes the number just above the
first range, and since ranges never touch, that number is always free; it fails only
when the first range has swallowed everything up to the last number.

The run then keeps a ledger of the numbers handed out, and the numbers in use are the
reserved ones and the ledger.
-/
import Parfs.Lib.Run
import Parfs.InodeMap
import Parfs.Proofs.BallocRun

namespace Parfs

open Lib

/-- The internal number is in use. -/
def InodeMap.Has (m : InodeMap) (k : Nat) : Prop := ∃ n ∈ m.nodes, n.Holds k

/-- The inode number is in use. -/
def InodeMaps.InUse (s : InodeMaps) (ino : Nat) : Prop :=
  (s.inodeMaps (ino % s.cpus)).Has (ino / s.cpus)

variable {env : BallocEnv}

/-- The invariant of one map. -/
structure InodeMap.Wf (env : BallocEnv) (reserved : Nat) (m : InodeMap) : Prop where
  ok : NodesOk env 0 (maxInode - 2) m.nodes
  /-- `first_inode_range` is the lowest range, and it holds the reserved numbers. -/
  first : ∃ i rest, m.nodes = i :: rest ∧ m.firstInodeRange = some i.addr ∧
    i.rangeLow = 0 ∧ reserved ≤ i.rangeHigh
  count : m.numRangeNodeInode = m.nodes.length

/-! ### Pointers into the tree -/

section Pointers

variable {m : InodeMap} {lo hi : Nat} {A B : List RangeNode} {c : RangeNode}

theorem InodeMap.modify_nodes (hm : m.nodes = A ++ c :: B) (ok : NodesOk env lo hi m.nodes)
    (f : RangeNode → RangeNode) : (m.modify c.addr f).nodes = A ++ f c :: B := by
  rw [hm] at ok
  obtain ⟨-, -, -, hA, hB⟩ := ok.middle
  have hmap : (m.modify c.addr f).nodes = m.nodes.map fun n => if n.addr = c.addr then f n else n :=
    RbTree.toList_map _ _
  rw [hmap, hm, List.map_append, List.map_cons, map_ite_of_notMem hA, map_ite_of_notMem hB,
    if_pos rfl]

theorem InodeMap.rbErase_nodes (hm : m.nodes = A ++ c :: B) (hA : c.addr ∉ A.map RangeNode.addr)
    (hB : c.addr ∉ B.map RangeNode.addr) : (m.rbErase env c.addr).nodes = A ++ B := by
  have herase : (m.rbErase env c.addr).nodes = m.nodes.filter fun n => !(n.addr == c.addr) :=
    env.rb.erase_toList _ _
  rw [herase, hm, List.filter_append, List.filter_cons, filter_of_notMem hA, filter_of_notMem hB]
  simp

theorem InodeMap.rbNext_eq (hm : m.nodes = A ++ c :: B) (ok : NodesOk env lo hi m.nodes) :
    m.rbNext c.addr = B.head? := by
  rw [hm] at ok
  unfold InodeMap.rbNext
  rw [hm, dropWhile_to ok.middle.2.2.2.1]
  rfl

theorem InodeMap.node_first {i : RangeNode} {rest : List RangeNode} (hm : m.nodes = i :: rest) :
    m.node i.addr = some i := by
  unfold InodeMap.node
  rw [hm]
  simp

end Pointers

/-! ### One map -/

section OneMap

variable {m m' : InodeMap} {reserved k : Nat}

/-- Widening the first range upwards, over nothing or over the range that follows. -/
theorem InodeMap.Wf.widen (h : m.Wf env reserved) {i : RangeNode} {M rest : List RangeNode}
    (hm : m.nodes = i :: (M ++ rest)) (hfirst : m.firstInodeRange = some i.addr)
    (hlow : i.rangeLow = 0) (hres : reserved ≤ i.rangeHigh) (high : Nat) (hhigh : i.rangeHigh < high)
    (hmax : high ≤ maxInode - 2) (hgap : ∀ b ∈ rest, high + 1 < b.rangeLow)
    (hm' : m'.nodes = novaUpdateRangeNodeChecksum env { i with rangeHigh := high } :: rest)
    (hfirst' : m'.firstInodeRange = m.firstInodeRange)
    (hcount' : m'.numRangeNodeInode = rest.length + 1) : m'.Wf env reserved := by
  let c := novaUpdateRangeNodeChecksum env { i with rangeHigh := high }
  have hclow : c.rangeLow = 0 := by
    show (novaUpdateRangeNodeChecksum env _).rangeLow = 0
    simpa using hlow
  have hchigh : c.rangeHigh = high := novaUpdateRangeNodeChecksum_rangeHigh _
  have hcaddr : c.addr = i.addr := novaUpdateRangeNodeChecksum_addr _
  have hok := h.ok
  rw [hm] at hok
  have hnodup := hok.nodup
  simp only [List.map_cons, List.map_append, List.nodup_cons, List.mem_append, not_or] at hnodup
  have hsplice : NodesOk env 0 (maxInode - 2) ([] ++ ([c] ++ rest)) := by
    refine NodesOk.splice (A := []) (M := i :: M) (by simpa using hok) ?_ (by simp) ?_ ?_
    · exact NodesOk.singleton (by omega) (by omega) (by omega) (novaRangeNodeChecksumOk_update _)
    · intro n hn b hb
      have := hgap b hb
      rw [List.mem_singleton.mp hn]
      unfold RangeNode.Below
      omega
    · intro n hn
      rw [List.mem_singleton.mp hn, hcaddr]
      exact ⟨by simp, hnodup.1.2⟩
  refine ⟨?_, ⟨c, rest, hm', ?_, hclow, by omega⟩, ?_⟩
  · rw [hm']
    exact hsplice
  · rw [hfirst', hfirst, hcaddr]
  · rw [hcount', hm']
    simp

/-- **Allocating from a map takes the number above its first range.**  It fails only
when there is no number left above that range. -/
theorem allocUnusedIn_spec (h : m.Wf env reserved) :
    (∃ m' k, allocUnusedIn env m = (m', .ok k) ∧ m'.Wf env reserved ∧ reserved < k ∧
        k < maxInode - 1 ∧ ¬ m.Has k ∧ (∀ b, m'.Has b ↔ m.Has b ∨ b = k)) ∨
      (allocUnusedIn env m = (m, .error .enospc) ∧
        ∃ i ∈ m.nodes, m.firstInodeRange = some i.addr ∧ ∀ k, i.rangeHigh < k → ¬ k < maxInode - 1) := by
  obtain ⟨i, rest, hm, hfirst, hlow, hres⟩ := h.first
  have hok := h.ok
  have hm0 : m.nodes = [] ++ i :: rest := hm
  have hnode : m.firstInodeRange.bind m.node = some i := by
    rw [hfirst]
    exact InodeMap.node_first hm
  have hcsum := hok.checksum i (by simp [hm])
  have hnext : m.rbNext i.addr = rest.head? := InodeMap.rbNext_eq hm0 hok
  have hsort := hok.sorted
  rw [hm, List.pairwise_cons] at hsort
  have hbelow : ∀ b ∈ rest, i.rangeHigh + 1 < b.rangeLow := hsort.1
  have hbound : ∀ b ∈ rest, b.rangeLow ≤ maxInode - 2 := by
    intro b hb
    have hne := hok.nonempty b (by simp [hm, hb])
    have hin := hok.inside b (by simp [hm, hb])
    omega
  have hfree : ¬ m.Has (i.rangeHigh + 1) := by
    rintro ⟨n, hn, hnlow, hnhigh⟩
    rw [hm] at hn
    rcases List.mem_cons.mp hn with rfl | hn
    · omega
    · have := hbelow n hn
      omega
  have hgrow : ∀ f : RangeNode → RangeNode, (m.modify i.addr f).nodes = f i :: rest :=
    fun f => InodeMap.modify_nodes hm0 hok f
  unfold allocUnusedIn
  simp only [hnode, hcsum, hnext, Bool.not_true, Bool.false_eq_true, if_false]
  -- the plain growth, used with and without a next range
  have hplain : i.rangeHigh + 1 < maxInode - 1 → (∀ b ∈ rest, i.rangeHigh + 2 < b.rangeLow) →
      (m.modify i.addr fun q =>
        novaUpdateRangeNodeChecksum env { q with rangeHigh := i.rangeHigh + 1 }).Wf env reserved ∧
      ∀ b, (m.modify i.addr fun q =>
        novaUpdateRangeNodeChecksum env { q with rangeHigh := i.rangeHigh + 1 }).Has b ↔
          m.Has b ∨ b = i.rangeHigh + 1 := by
    intro hmax hgap
    refine ⟨h.widen (M := []) hm hfirst hlow hres (i.rangeHigh + 1) (by omega) (by omega) hgap
      (hgrow _) rfl ?_, ?_⟩
    · show m.numRangeNodeInode = rest.length + 1
      rw [h.count, hm, List.length_cons]
    · intro b
      unfold InodeMap.Has
      rw [hgrow, hm]
      simp only [List.exists_mem_cons_iff, RangeNode.Holds, novaUpdateRangeNodeChecksum_rangeLow,
        novaUpdateRangeNodeChecksum_rangeHigh]
      constructor
      · rintro (hb | hb)
        · by_cases heq : b = i.rangeHigh + 1
          · exact Or.inr heq
          · exact Or.inl (Or.inl (by omega))
        · exact Or.inl (Or.inr hb)
      · rintro ((hb | hb) | hb)
        · exact Or.inl (by omega)
        · exact Or.inr hb
        · exact Or.inl (by omega)
  cases hrest : rest.head? with
  | none =>
      obtain rfl := List.head?_eq_none_iff.mp hrest
      by_cases hmax : i.rangeHigh + 1 < maxInode - 1
      · obtain ⟨hwf, hhas⟩ := hplain hmax (by simp)
        left
        refine ⟨_, i.rangeHigh + 1, ?_, hwf, by omega, hmax, hfree, hhas⟩
        simp [hmax]
      · right
        refine ⟨by simp [hmax], i, by simp [hm], hfirst, ?_⟩
        intro k hk hlt
        omega
  | some q =>
      obtain ⟨rest', rfl⟩ := List.head?_eq_some_iff.mp hrest
      have hqcsum := hok.checksum q (by simp [hm])
      have hqne := hok.nonempty q (by simp [hm])
      have hqlow := hbelow q (by simp)
      have hqmax := hbound q (by simp)
      have hqin := hok.inside q (by simp [hm])
      rw [List.pairwise_cons] at hsort
      left
      by_cases hfill : i.rangeHigh + 1 = q.rangeLow - 1
      · let filled := m.modify i.addr fun p =>
          novaUpdateRangeNodeChecksum env { p with rangeHigh := q.rangeHigh }
        have hfilled : filled.nodes = [novaUpdateRangeNodeChecksum env
            { i with rangeHigh := q.rangeHigh }] ++ q :: rest' := hgrow _
        -- the tree is out of order until `q` is gone, but its addresses are still unique
        have hnodup := hok.nodup
        simp only [hm, List.map_cons, List.nodup_cons, List.mem_cons, not_or] at hnodup
        have hqi : q.addr ∉ [novaUpdateRangeNodeChecksum env
            { i with rangeHigh := q.rangeHigh }].map RangeNode.addr := by
          simpa using fun heq => hnodup.1.1 heq.symm
        have herased : (filled.rbErase env q.addr).nodes =
            [novaUpdateRangeNodeChecksum env { i with rangeHigh := q.rangeHigh }] ++ rest' :=
          InodeMap.rbErase_nodes hfilled hqi hnodup.2.1
        refine ⟨filled.rbErase env q.addr, i.rangeHigh + 1, by simp [hqcsum, hfill, filled], ?_,
          by omega, by omega, hfree, ?_⟩
        · refine h.widen (M := [q]) hm hfirst hlow hres q.rangeHigh (by omega) hqin.2 hsort.2.1
            herased rfl ?_
          show m.numRangeNodeInode - 1 = rest'.length + 1
          rw [h.count, hm]
          simp
        · intro b
          unfold InodeMap.Has
          rw [herased, hm]
          simp only [List.singleton_append, List.exists_mem_cons_iff, RangeNode.Holds,
            novaUpdateRangeNodeChecksum_rangeLow, novaUpdateRangeNodeChecksum_rangeHigh]
          constructor
          · rintro (hb | hb)
            · by_cases heq : b = i.rangeHigh + 1
              · exact Or.inr heq
              · by_cases hle : b ≤ i.rangeHigh
                · exact Or.inl (Or.inl (by omega))
                · exact Or.inl (Or.inr (Or.inl (by omega)))
            · exact Or.inl (Or.inr (Or.inr hb))
          · rintro ((hb | hb | hb) | hb)
            · exact Or.inl (by omega)
            · exact Or.inl (by omega)
            · exact Or.inr hb
            · exact Or.inl (by omega)
      · have hroom : i.rangeHigh + 1 < q.rangeLow - 1 := by omega
        obtain ⟨hwf, hhas⟩ := hplain (by omega) (by
          intro b hb
          rcases List.mem_cons.mp hb with rfl | hb
          · omega
          · have : q.rangeHigh + 1 < b.rangeLow := hsort.2.1 b hb
            omega)
        refine ⟨_, i.rangeHigh + 1, ?_, hwf, by omega, by omega, hfree, hhas⟩
        simp [hqcsum, hfill, hroom]

/-- Cutting a range that is not the first down to pieces that lack one number. -/
theorem InodeMap.Wf.punch (h : m.Wf env reserved) {A B M : List RangeNode} {c : RangeNode}
    (hm : m.nodes = A ++ c :: B) (hm' : m'.nodes = A ++ (M ++ B))
    (hk : c.Holds k) (hM : NodesOk env 0 (maxInode - 2) M)
    (hhas : ∀ b, (∃ n ∈ M, n.Holds b) ↔ c.Holds b ∧ b ≠ k)
    (haddr : ∀ n ∈ M, n.addr ∉ A.map RangeNode.addr ∧ n.addr ∉ B.map RangeNode.addr)
    (hhead : A = [] → ∃ n rest, M = n :: rest ∧ n.addr = c.addr ∧ n.rangeLow = 0 ∧
      reserved ≤ n.rangeHigh)
    (hfirst' : m'.firstInodeRange = m.firstInodeRange)
    (hcount' : m'.numRangeNodeInode + 1 = m.numRangeNodeInode + M.length) :
    m'.Wf env reserved ∧ ∀ b, m'.Has b ↔ m.Has b ∧ b ≠ k := by
  have hok := h.ok
  rw [hm] at hok
  have hsub : ∀ n ∈ M, c.rangeLow ≤ n.rangeLow ∧ n.rangeHigh ≤ c.rangeHigh := by
    intro n hn
    have hne := hM.nonempty n hn
    have hlo := (hhas n.rangeLow).mp ⟨n, hn, le_refl _, hne⟩
    have hhi := (hhas n.rangeHigh).mp ⟨n, hn, hne, le_refl _⟩
    exact ⟨hlo.1.1, hhi.1.2⟩
  refine ⟨⟨?_, ?_, ?_⟩, ?_⟩
  · rw [hm']
    exact hok.shrink hM hsub haddr
  · obtain ⟨i, rest, hnodes, hfirst, hlow, hres⟩ := h.first
    cases A with
    | nil =>
        obtain ⟨n, rest', hMn, hna, hnlow, hnres⟩ := hhead rfl
        have hci : c = i := by
          rw [hm] at hnodes
          exact (List.cons.inj hnodes).1
        refine ⟨n, rest' ++ B, by rw [hm', hMn]; rfl, ?_, hnlow, hnres⟩
        rw [hfirst', hfirst, hna, hci]
    | cons a A =>
        have hai : a = i := by
          rw [hm] at hnodes
          exact (List.cons.inj hnodes).1
        refine ⟨a, A ++ (M ++ B), by rw [hm']; rfl, ?_, hai ▸ hlow, hai ▸ hres⟩
        rw [hfirst', hfirst, hai]
  · have hcount := h.count
    rw [hm] at hcount
    rw [hm']
    simp only [List.length_append, List.length_cons] at hcount ⊢
    omega
  · intro b
    -- `k` was in `c` and in no other range
    have hother : ∀ n ∈ A ++ B, n.Holds b → b ≠ k := by
      rintro n hn hb rfl
      have hmem : n ∈ A ++ c :: B := by
        rcases List.mem_append.mp hn with hn | hn
        · simp [hn]
        · simp [hn]
      have heq : n = c := hok.holds_unique hmem (by simp) hb hk
      obtain ⟨-, -, -, hA, hB⟩ := hok.middle
      rcases List.mem_append.mp hn with hn | hn
      · exact hA (heq ▸ List.mem_map_of_mem hn)
      · exact hB (heq ▸ List.mem_map_of_mem hn)
    unfold InodeMap.Has
    rw [hm', hm]
    constructor
    · rintro ⟨n, hn, hb⟩
      rcases List.mem_append.mp hn with hn | hn
      · exact ⟨⟨n, by simp [hn], hb⟩, hother n (by simp [hn]) hb⟩
      · rcases List.mem_append.mp hn with hn | hn
        · obtain ⟨hc, hne⟩ := (hhas b).mp ⟨n, hn, hb⟩
          exact ⟨⟨c, by simp, hc⟩, hne⟩
        · exact ⟨⟨n, by simp [hn], hb⟩, hother n (by simp [hn]) hb⟩
    · rintro ⟨⟨n, hn, hb⟩, hne⟩
      rcases List.mem_append.mp hn with hn | hn
      · exact ⟨n, by simp [hn], hb⟩
      · rcases List.mem_cons.mp hn with rfl | hn
        · obtain ⟨n', hn', hb'⟩ := (hhas b).mpr ⟨hb, hne⟩
          exact ⟨n', by simp [hn'], hb'⟩
        · exact ⟨n, by simp [hn], hb⟩

/-- **Giving a number back takes it out of the range it is in.** -/
theorem freeInuseIn_spec (h : m.Wf env reserved) {i : RangeNode} (hi : i ∈ m.nodes) (hk : i.Holds k)
    (hres : reserved < k) {addr : Nat} (hfresh : addr ∉ m.nodes.map RangeNode.addr) :
    ∃ m', freeInuseIn env m i k (some addr) = (m', .ok ()) ∧ m'.Wf env reserved ∧
      ∀ b, m'.Has b ↔ m.Has b ∧ b ≠ k := by
  obtain ⟨A, B, hm⟩ := List.append_of_mem hi
  have hok := h.ok
  rw [hm] at hok
  obtain ⟨hne, -, hmax, hA, hB⟩ := hok.middle
  obtain ⟨hklow, hkhigh⟩ := hk
  -- when it is the first range, it starts at 0, below the reserved numbers
  have hfirstLow : A = [] → i.rangeLow = 0 := by
    rintro rfl
    obtain ⟨i', rest, hnodes, -, hlow, -⟩ := h.first
    rw [hm] at hnodes
    rw [(List.cons.inj hnodes).1]
    exact hlow
  unfold freeInuseIn
  by_cases hlow : k = i.rangeLow
  · by_cases hhigh : k = i.rangeHigh
    · rw [if_pos ⟨hlow, hhigh⟩]
      refine ⟨_, rfl, h.punch (M := []) hm (InodeMap.rbErase_nodes hm hA hB) ⟨hklow, hkhigh⟩
        ⟨by simp, by simp, by simp, by simp, by simp⟩ ?_ (by simp) ?_ rfl ?_⟩
      · intro b
        simp [RangeNode.Holds]
        omega
      · intro hnil
        have := hfirstLow hnil
        omega
      · show m.numRangeNodeInode - 1 + 1 = m.numRangeNodeInode + 0
        have := h.count
        rw [hm] at this
        simp only [List.length_append, List.length_cons] at this
        omega
    · rw [if_neg (fun hc => hhigh hc.2), if_pos ⟨hlow, by omega⟩]
      refine ⟨_, rfl, h.punch (M := [_]) hm (InodeMap.modify_nodes hm h.ok _) ⟨hklow, hkhigh⟩
        (NodesOk.singleton (by simp; omega) (by simp) (by simpa using hmax) (by simp)) ?_ ?_ ?_ rfl rfl⟩
      · intro b
        simp [RangeNode.Holds]
        omega
      · intro n hn
        rw [List.mem_singleton.mp hn, novaUpdateRangeNodeChecksum_addr]
        exact ⟨hA, hB⟩
      · intro hnil
        have := hfirstLow hnil
        omega
  · rw [if_neg (fun hc => hlow hc.1), if_neg (fun hc => hlow hc.1)]
    by_cases hhigh : k = i.rangeHigh
    · rw [if_pos ⟨by omega, hhigh⟩]
      refine ⟨_, rfl, h.punch (M := [_]) hm (InodeMap.modify_nodes hm h.ok _) ⟨hklow, hkhigh⟩
        (NodesOk.singleton (by simp; omega) (by simp) (by simp; omega) (by simp)) ?_ ?_ ?_ rfl rfl⟩
      · intro b
        simp [RangeNode.Holds]
        omega
      · intro n hn
        rw [List.mem_singleton.mp hn, novaUpdateRangeNodeChecksum_addr]
        exact ⟨hA, hB⟩
      · intro hnil
        exact ⟨_, [], rfl, by simp, by simpa using hfirstLow hnil, by simp; omega⟩
    · rw [if_neg (fun hc => hhigh hc.2)]
      let lower := novaUpdateRangeNodeChecksum env { i with rangeHigh := k - 1 }
      let upper := novaFreshNode env addr (k + 1) i.rangeHigh
      have hcut : (m.modify i.addr fun q =>
          novaUpdateRangeNodeChecksum env { q with rangeHigh := k - 1 }).nodes = A ++ lower :: B :=
        InodeMap.modify_nodes hm h.ok _
      have hcutOk : NodesOk env 0 (maxInode - 2) (A ++ ([lower] ++ B)) := by
        refine hok.shrink (NodesOk.singleton (by simp [lower]; omega) (by simp)
          (by simp [lower]; omega) (by simp [lower])) ?_ ?_
        · intro n hn
          rw [List.mem_singleton.mp hn]
          simp [lower]
          omega
        · intro n hn
          rw [List.mem_singleton.mp hn, novaUpdateRangeNodeChecksum_addr]
          exact ⟨hA, hB⟩
      have hsort := hok.sorted
      rw [List.pairwise_append, List.pairwise_cons] at hsort
      obtain ⟨-, ⟨hiB, -⟩, hcross⟩ := hsort
      have hulow : upper.rangeLow = k + 1 := novaUpdateRangeNodeChecksum_rangeLow _
      have huhigh : upper.rangeHigh = i.rangeHigh := novaUpdateRangeNodeChecksum_rangeHigh _
      have hllow : lower.rangeLow = i.rangeLow := novaUpdateRangeNodeChecksum_rangeLow _
      have hlhigh : lower.rangeHigh = k - 1 := novaUpdateRangeNodeChecksum_rangeHigh _
      obtain ⟨tree, htree, hlist⟩ := novaInsertBlocktree_ok (A := A ++ [lower]) (B := B) upper
        (hcut ▸ hcutOk) (hcut.trans (by simp))
        (by
          intro a ha
          rcases List.mem_append.mp ha with ha | ha
          · have : a.rangeHigh + 1 < i.rangeLow := hcross a ha i (by simp)
            omega
          · rw [List.mem_singleton.mp ha]
            omega)
        (by
          intro b hb
          have : i.rangeHigh + 1 < b.rangeLow := hiB b hb
          omega)
      have hpair : NodesOk env 0 (maxInode - 2) [lower, upper] := by
        have hiaddr : i.addr ≠ addr := fun heq => hfresh (heq ▸ List.mem_map_of_mem hi)
        refine ⟨?_, ?_, ?_, ?_, ?_⟩
        · simp [RangeNode.Below]; omega
        · simp; omega
        · simp; omega
        · simp [lower, upper, novaFreshNode]
        · simpa [lower, upper, novaFreshNode] using hiaddr
      unfold novaInsertInodetree
      dsimp only
      rw [show novaInsertBlocktree env _ (novaFreshNode env addr (k + 1) i.rangeHigh) = _ from htree]
      refine ⟨_, rfl, h.punch (M := [lower, upper]) hm ?_ ⟨hklow, hkhigh⟩ hpair ?_ ?_ ?_ rfl rfl⟩
      · show tree.toList = _
        rw [hlist]
        simp
      · intro b
        simp [RangeNode.Holds, hulow, huhigh, hllow, hlhigh]
        omega
      · intro n hn
        simp only [List.mem_cons, List.not_mem_nil, or_false] at hn
        rcases hn with rfl | rfl
        · rw [novaUpdateRangeNodeChecksum_addr]
          exact ⟨hA, hB⟩
        · have haddr : upper.addr = addr := novaUpdateRangeNodeChecksum_addr _
          rw [haddr]
          rw [hm] at hfresh
          exact ⟨fun hmem => hfresh (by simp only [List.map_append, List.mem_append]; exact Or.inl hmem),
            fun hmem => hfresh (by
              simp only [List.map_append, List.map_cons, List.mem_append, List.mem_cons]
              exact Or.inr (Or.inr hmem))⟩
      · intro hnil
        exact ⟨lower, [upper], rfl, novaUpdateRangeNodeChecksum_addr _, by rw [hllow, hfirstLow hnil],
          by omega⟩

end OneMap

/-- A search for a number some range holds finds that range. -/
theorem novaFindRangeNode_hit {lo hi key : Nat} {tree : RbTree RangeNode} {n : RangeNode}
    (ok : NodesOk env lo hi tree.toList) (hn : n ∈ tree.toList) (hkey : n.Holds key) :
    novaFindRangeNode env tree key = (true, some n) := by
  unfold novaFindRangeNode
  rcases hrun : RbTree.descend (novaRbtreeCompareRangenode key) none tree with ⟨_ | _, res⟩
  · obtain ⟨A, B, hAB, hA, hB, -⟩ := RbTree.descend_miss _ (ok.cut key) hrun
    have heq := novaRbtreeCompareRangenode_eq_eq.mpr hkey
    rw [hAB, List.mem_append] at hn
    rcases hn with hn | hn
    · rw [hA n hn] at heq
      cases heq
    · rw [hB n hn] at heq
      cases heq
  · obtain ⟨a, rfl, hmem, heq⟩ := RbTree.descend_hit _ hrun
    have hsame : a = n := ok.holds_unique hmem hn (novaRbtreeCompareRangenode_eq_eq.mp heq) hkey
    have hcsum := ok.checksum n hn
    simp [hsame, hcsum]

/-! ### The run -/

/-- The maps, and the numbers handed out and not yet given back. -/
structure InodeState where
  maps : InodeMaps
  outstanding : List Nat

/-- One call; `blocknode` is where the slab puts the node a split needs. -/
inductive InodeCall where
  | alloc (cpuid : Nat)
  | free (ino : Nat) (blocknode : Nat)

/-- No map uses the address. -/
def InodeMaps.Fresh (s : InodeMaps) (addr : Nat) : Prop :=
  ∀ cpu < s.cpus, addr ∉ (s.inodeMaps cpu).nodes.map RangeNode.addr

/-- `nova_alloc_unused_inode` for a map, or `nova_free_inuse_inode` of a number handed out. -/
inductive InodeStep (env : BallocEnv) : InodeState → InodeCall → InodeState → Prop
  | allocated (σ : InodeState) (cpuid : Nat) (s' : InodeMaps) (ino : Nat)
      (hcpu : cpuid < σ.maps.cpus) (hrun : novaAllocUnusedInode env σ.maps cpuid = (s', .ok ino)) :
      InodeStep env σ (.alloc cpuid) { maps := s', outstanding := ino :: σ.outstanding }
  | failed (σ : InodeState) (cpuid : Nat) (s' : InodeMaps) (e : Errno)
      (hcpu : cpuid < σ.maps.cpus) (hrun : novaAllocUnusedInode env σ.maps cpuid = (s', .error e)) :
      InodeStep env σ (.alloc cpuid) { maps := s', outstanding := σ.outstanding }
  | free (σ : InodeState) (ino blocknode : Nat) (hmem : ino ∈ σ.outstanding)
      (hfresh : σ.maps.Fresh blocknode) :
      InodeStep env σ (.free ino blocknode)
        { maps := (novaFreeInuseInode env σ.maps ino (some blocknode)).1
          outstanding := σ.outstanding.erase ino }

/-- The state after `nova_init_inode_inuse_list`. -/
def InodeState.init (env : BallocEnv) (cpus : Nat) (hpos : 0 < cpus) (slab : Nat → Nat) :
    InodeState where
  maps := novaInitInodeInuseList env cpus hpos slab
  outstanding := []

/-- **The inode numbers in use.**  Every map is in order, and the numbers in use are the
reserved ones and those handed out. -/
structure InodeState.Exact (env : BallocEnv) (cpus : Nat) (σ : InodeState) : Prop where
  cpus_eq : σ.maps.cpus = cpus
  wf : ∀ cpu < cpus, (σ.maps.inodeMaps cpu).Wf env (initialRangeHigh cpus)
  inUse : ∀ ino, σ.maps.InUse ino ↔ ino / cpus ≤ initialRangeHigh cpus ∨ ino ∈ σ.outstanding
  unreserved : ∀ ino ∈ σ.outstanding, initialRangeHigh cpus < ino / cpus
  nodup : σ.outstanding.Nodup

/-- What a call to `nova_alloc_unused_inode` has to do in a state: a number that was not
in use, of the right map and not reserved, or `-ENOSPC` when every internal number below
the last one and above the first range is in use. -/
def InodeState.AllocOk (env : BallocEnv) (σ : InodeState) (cpuid : Nat) : Prop :=
  match (novaAllocUnusedInode env σ.maps cpuid).2 with
  | .ok ino => ¬ σ.maps.InUse ino ∧ ino % σ.maps.cpus = cpuid ∧ novaNormalInodeStart ≤ ino
  | .error e => e = .enospc ∧ ∃ i ∈ (σ.maps.inodeMaps cpuid).nodes,
      (σ.maps.inodeMaps cpuid).firstInodeRange = some i.addr ∧
        ∀ k, i.rangeHigh < k → k < 2 ^ 31 - 1 → (σ.maps.inodeMaps cpuid).Has k

section Run

variable {σ σ' : InodeState} {cpus : Nat}

@[simp] theorem InodeMaps.set_cpus {s : InodeMaps} {cpu : Nat} {m : InodeMap} :
    (s.set cpu m).cpus = s.cpus := rfl

@[simp] theorem InodeMaps.set_same {s : InodeMaps} {cpu : Nat} {m : InodeMap} :
    (s.set cpu m).inodeMaps cpu = m := if_pos rfl

theorem InodeMaps.set_ne {s : InodeMaps} {cpu cpu' : Nat} {m : InodeMap} (h : cpu' ≠ cpu) :
    (s.set cpu m).inodeMaps cpu' = s.inodeMaps cpu' := if_neg h

/-- The reserved internal numbers cover the reserved inode numbers. -/
theorem normalInodeStart_le (hpos : 0 < cpus) {k : Nat} (hk : initialRangeHigh cpus < k) :
    novaNormalInodeStart ≤ k * cpus := by
  unfold initialRangeHigh at hk
  have hdiv := Nat.div_add_mod novaNormalInodeStart cpus
  have hmod := Nat.mod_lt novaNormalInodeStart hpos
  have hmul : (novaNormalInodeStart / cpus + 1) * cpus ≤ k * cpus := by
    refine Nat.mul_le_mul_right _ ?_
    split at hk <;> omega
  rw [Nat.add_mul, Nat.mul_comm] at hmul
  omega

theorem ino_parts (hpos : 0 < cpus) {k cpuid : Nat} (hcpu : cpuid < cpus) :
    (k * cpus + cpuid) / cpus = k ∧ (k * cpus + cpuid) % cpus = cpuid := by
  constructor
  · rw [Nat.mul_comm, Nat.mul_add_div hpos, Nat.div_eq_of_lt hcpu, Nat.add_zero]
  · rw [Nat.mul_comm, Nat.mul_add_mod, Nat.mod_eq_of_lt hcpu]

/-- What a call does to the state it is made in. -/
theorem novaAllocUnusedInode_spec (h : σ.Exact env cpus) {cpuid : Nat} (hcpu : cpuid < cpus) :
    (∃ s' k, novaAllocUnusedInode env σ.maps cpuid = (s', .ok (k * cpus + cpuid)) ∧
        s'.cpus = cpus ∧ (s'.inodeMaps cpuid).Wf env (initialRangeHigh cpus) ∧
        initialRangeHigh cpus < k ∧ ¬ (σ.maps.inodeMaps cpuid).Has k ∧
        (∀ b, (s'.inodeMaps cpuid).Has b ↔ (σ.maps.inodeMaps cpuid).Has b ∨ b = k) ∧
        ∀ cpu, cpu ≠ cpuid → s'.inodeMaps cpu = σ.maps.inodeMaps cpu) ∨
      (novaAllocUnusedInode env σ.maps cpuid = (σ.maps, .error .enospc) ∧
        ∃ i ∈ (σ.maps.inodeMaps cpuid).nodes,
          (σ.maps.inodeMaps cpuid).firstInodeRange = some i.addr ∧
          ∀ k, i.rangeHigh < k → ¬ k < maxInode - 1) := by
  have hcpus := h.cpus_eq
  rcases allocUnusedIn_spec (h.wf cpuid hcpu) with
    ⟨m', k, hrun, hwf, hres, -, hnew, hhas⟩ | ⟨hrun, hfull⟩
  · left
    let s' : InodeMaps := { σ.maps.set cpuid { m' with allocated := m'.allocated + 1 } with
      sInodesUsedCount := σ.maps.sInodesUsedCount + 1 }
    have hsame : s'.inodeMaps cpuid = { m' with allocated := m'.allocated + 1 } := InodeMaps.set_same
    refine ⟨s', k, ?_, hcpus, ?_, hres, hnew, ?_, fun cpu hne => InodeMaps.set_ne hne⟩
    · unfold novaAllocUnusedInode
      rw [hrun, hcpus]
    · rw [hsame]
      exact ⟨hwf.ok, hwf.first, hwf.count⟩
    · rw [hsame]
      exact hhas
  · right
    refine ⟨?_, hfull⟩
    unfold novaAllocUnusedInode
    rw [hrun]

theorem InodeState.Exact.allocOk (h : σ.Exact env cpus) {cpuid : Nat} (hcpu : cpuid < cpus) :
    σ.AllocOk env cpuid := by
  have hcpus := h.cpus_eq
  have hpos : 0 < cpus := hcpus ▸ σ.maps.cpus_pos
  unfold InodeState.AllocOk
  rcases novaAllocUnusedInode_spec h hcpu with
    ⟨s', k, hrun, -, -, hres, hnew, -, -⟩ | ⟨hrun, i, hi, hfirst, hfull⟩
  · rw [hrun]
    obtain ⟨hdiv, hmod⟩ := ino_parts (k := k) hpos hcpu
    have hstart := normalInodeStart_le hpos hres
    dsimp only
    rw [hcpus]
    refine ⟨?_, hmod, by omega⟩
    unfold InodeMaps.InUse
    rw [hcpus, hdiv, hmod]
    exact hnew
  · rw [hrun]
    refine ⟨rfl, i, hi, hfirst, ?_⟩
    intro k hk hlt
    exact absurd hlt (hfull k hk)

theorem InodeState.Exact.step {a : InodeCall} (h : σ.Exact env cpus) (hstep : InodeStep env σ a σ') :
    σ'.Exact env cpus := by
  have hcpus := h.cpus_eq
  have hpos : 0 < cpus := hcpus ▸ σ.maps.cpus_pos
  cases hstep with
  | allocated cpuid s' ino hcpu hrun =>
      rw [hcpus] at hcpu
      rcases novaAllocUnusedInode_spec h hcpu with
        ⟨s'', k, hrun', hcpus', hwf, hres, hnew, hhas, hother⟩ | ⟨hrun', -⟩
      · rw [hrun, Prod.mk.injEq, Except.ok.injEq] at hrun'
        obtain ⟨rfl, rfl⟩ := hrun'
        obtain ⟨hdiv, hmod⟩ := ino_parts (k := k) hpos hcpu
        have hfresh : k * cpus + cpuid ∉ σ.outstanding := by
          intro hmem
          have hin := (h.inUse _).mpr (Or.inr hmem)
          unfold InodeMaps.InUse at hin
          rw [hcpus, hdiv, hmod] at hin
          exact hnew hin
        refine ⟨hcpus', ?_, ?_, ?_, List.nodup_cons.mpr ⟨hfresh, h.nodup⟩⟩
        · intro cpu hlt
          by_cases heq : cpu = cpuid
          · exact heq ▸ hwf
          · rw [hother cpu heq]
            exact h.wf cpu hlt
        · intro ino
          have hbefore := h.inUse ino
          unfold InodeMaps.InUse at hbefore ⊢
          dsimp only
          rw [hcpus] at hbefore
          rw [hcpus', List.mem_cons]
          by_cases heq : ino % cpus = cpuid
          · rw [heq] at hbefore ⊢
            rw [hhas, hbefore]
            have hsplit : ino / cpus = k ↔ ino = k * cpus + cpuid := by
              have := Nat.div_add_mod ino cpus
              rw [heq, Nat.mul_comm] at this
              constructor
              · rintro rfl
                exact this.symm
              · rintro rfl
                exact hdiv
            rw [hsplit]
            tauto
          · rw [hother _ heq, hbefore]
            have hne : ino ≠ k * cpus + cpuid := by
              rintro rfl
              exact heq hmod
            simp [hne]
        · intro ino hino
          rcases List.mem_cons.mp hino with rfl | hino
          · rw [hdiv]
            exact hres
          · exact h.unreserved ino hino
      · rw [hrun] at hrun'
        simp at hrun'
  | failed cpuid s' e hcpu hrun =>
      rw [hcpus] at hcpu
      rcases novaAllocUnusedInode_spec h hcpu with ⟨s'', k, hrun', -⟩ | ⟨hrun', -⟩
      · rw [hrun] at hrun'
        simp at hrun'
      · rw [hrun, Prod.mk.injEq] at hrun'
        rw [hrun'.1]
        exact ⟨h.cpus_eq, h.wf, h.inUse, h.unreserved, h.nodup⟩
  | free ino addr hmem hfresh =>
      have hcpu : ino % cpus < cpus := Nat.mod_lt _ hpos
      have hres := h.unreserved ino hmem
      obtain ⟨n, hn, hholds⟩ : (σ.maps.inodeMaps (ino % cpus)).Has (ino / cpus) := by
        have hin := (h.inUse ino).mpr (Or.inr hmem)
        unfold InodeMaps.InUse at hin
        rwa [hcpus] at hin
      obtain ⟨m', hrun, hwf, hhas⟩ := freeInuseIn_spec (h.wf _ hcpu) hn hholds hres
        (hfresh _ (hcpus ▸ hcpu))
      let s' : InodeMaps := { σ.maps.set (ino % cpus) { m' with freed := m'.freed + 1 } with
        sInodesUsedCount := σ.maps.sInodesUsedCount - 1 }
      have hfree : novaFreeInuseInode env σ.maps ino (some addr) = (s', .ok ()) := by
        unfold novaFreeInuseInode novaSearchInodetree
        rw [hcpus, novaFindRangeNode_hit (h.wf _ hcpu).ok hn hholds]
        dsimp only
        rw [hrun]
      have hsame : s'.inodeMaps (ino % cpus) = { m' with freed := m'.freed + 1 } := InodeMaps.set_same
      have hother : ∀ cpu, cpu ≠ ino % cpus → s'.inodeMaps cpu = σ.maps.inodeMaps cpu :=
        fun cpu hne => InodeMaps.set_ne hne
      rw [hfree]
      refine ⟨hcpus, ?_, ?_, ?_, h.nodup.erase _⟩
      · intro cpu hlt
        by_cases heq : cpu = ino % cpus
        · subst heq
          rw [hsame]
          exact ⟨hwf.ok, hwf.first, hwf.count⟩
        · rw [hother cpu heq]
          exact h.wf cpu hlt
      · intro ino'
        have hbefore := h.inUse ino'
        unfold InodeMaps.InUse at hbefore ⊢
        dsimp only
        rw [hcpus] at hbefore
        rw [show s'.cpus = cpus from hcpus, h.nodup.mem_erase_iff]
        by_cases heq : ino' % cpus = ino % cpus
        · rw [heq] at hbefore ⊢
          rw [hsame]
          have hsplit : ino' / cpus = ino / cpus ↔ ino' = ino := by
            have h1 := Nat.div_add_mod ino' cpus
            have h2 := Nat.div_add_mod ino cpus
            constructor
            · intro hdiv
              rw [← h1, ← h2, hdiv, heq]
            · rintro rfl
              rfl
          have hstep : ∀ b, InodeMap.Has { m' with freed := m'.freed + 1 } b ↔
              (σ.maps.inodeMaps (ino % cpus)).Has b ∧ b ≠ ino / cpus := hhas
          rw [hstep, hbefore, ne_eq, hsplit]
          constructor
          · rintro ⟨hb | hb, hne⟩
            · exact Or.inl hb
            · exact Or.inr ⟨hne, hb⟩
          · rintro (hb | ⟨hne, hb⟩)
            · refine ⟨Or.inl hb, ?_⟩
              rintro rfl
              omega
            · exact ⟨Or.inr hb, hne⟩
        · rw [hother _ heq, hbefore]
          have hne : ino' ≠ ino := by
            rintro rfl
            exact heq rfl
          simp [hne]
      · intro ino' hino'
        exact h.unreserved ino' (List.mem_of_mem_erase hino')

theorem InodeState.init_exact (hpos : 0 < cpus) (slab : Nat → Nat) :
    (InodeState.init env cpus hpos slab).Exact env cpus := by
  have hhigh : initialRangeHigh cpus ≤ 33 := by
    have := Nat.div_le_self novaNormalInodeStart cpus
    unfold initialRangeHigh
    unfold novaNormalInodeStart at this ⊢
    split <;> omega
  have hmap : ∀ i, ∃ tree, (novaInitInodeInuseList env cpus hpos slab).inodeMaps i =
      { InodeMap.zero with
        inodeInuseTree := tree
        numRangeNodeInode := 1
        firstInodeRange := some (slab i) } ∧
      tree.toList = [novaFreshNode env (slab i) 0 (initialRangeHigh cpus)] := by
    intro i
    have hnil : NodesOk env 0 0 (RbTree.nil : RbTree RangeNode).toList :=
      ⟨by simp, by simp, by simp, by simp, by simp⟩
    obtain ⟨tree, htree, hlist⟩ := novaInsertBlocktree_ok (A := []) (B := [])
      (novaFreshNode env (slab i) 0 (initialRangeHigh cpus)) hnil rfl (by simp) (by simp)
    refine ⟨tree, ?_, hlist⟩
    unfold novaInitInodeInuseList novaInsertInodetree
    dsimp only
    rw [htree]
  have hnodes : ∀ i, ((novaInitInodeInuseList env cpus hpos slab).inodeMaps i).nodes =
      [novaFreshNode env (slab i) 0 (initialRangeHigh cpus)] := by
    intro i
    obtain ⟨tree, hm, hlist⟩ := hmap i
    rw [hm]
    exact hlist
  refine ⟨rfl, ?_, ?_, by simp [InodeState.init], List.nodup_nil⟩
  · intro i hi
    show InodeMap.Wf env _ ((novaInitInodeInuseList env cpus hpos slab).inodeMaps i)
    refine ⟨?_, ?_, ?_⟩
    · rw [hnodes]
      exact NodesOk.singleton (by simp [novaFreshNode]) (by simp) (by
        simp [novaFreshNode, maxInode]
        omega) (by simp [novaFreshNode])
    · refine ⟨_, [], hnodes i, ?_, by simp [novaFreshNode], by simp [novaFreshNode]⟩
      obtain ⟨tree, hm, -⟩ := hmap i
      rw [hm]
      simp [novaFreshNode]
    · rw [hnodes]
      obtain ⟨tree, hm, -⟩ := hmap i
      rw [hm]
      rfl
  · intro ino
    show (InodeMap.Has ((novaInitInodeInuseList env cpus hpos slab).inodeMaps _) _) ↔ _
    unfold InodeMap.Has
    rw [hnodes]
    simp [RangeNode.Holds, novaFreshNode, InodeState.init, novaInitInodeInuseList]

end Run

/--
**Inode numbers over every run.**  In every state reached from the initial maps, the
maps are in order, the numbers in use are the reserved ones and those handed out, and
the next allocation from any map hands out a number that is not in use or finds the map
full.
-/
theorem novaAllocFreeInode_exact {cpus : Nat} (hpos : 0 < cpus) (slab : Nat → Nat) {σ : InodeState}
    (hrun : Runs (InodeStep env) (InodeState.init env cpus hpos slab) σ) :
    σ.Exact env cpus ∧ ∀ cpuid < cpus, σ.AllocOk env cpuid := by
  have hexact : σ.Exact env cpus :=
    hrun.invariant (fun _ _ _ h hstep => h.step hstep) (InodeState.init_exact hpos slab)
  exact ⟨hexact, fun cpuid hcpu => hexact.allocOk hcpu⟩

/-- The first number map 1 of three hands out: the reserved internal numbers go up to 11. -/
theorem novaAllocFreeInode_exact_first :
    InodeState.Exact plainEnv 3
        { maps := (novaAllocUnusedInode plainEnv
            (InodeState.init plainEnv 3 (by decide) (fun i => i)).maps 1).1
          outstanding := [37] } ∧
      ∀ cpuid < 3, InodeState.AllocOk plainEnv
        { maps := (novaAllocUnusedInode plainEnv
            (InodeState.init plainEnv 3 (by decide) (fun i => i)).maps 1).1
          outstanding := [37] } cpuid :=
  novaAllocFreeInode_exact (by decide) (fun i => i)
    (Runs.single (a := .alloc 1) (InodeStep.allocated _ 1 _ 37 (by decide) rfl))

end Parfs
