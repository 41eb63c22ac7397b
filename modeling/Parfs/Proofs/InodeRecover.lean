/-
What the recovery makes of the inode maps.

A call puts a range between two neighbours it does not overlap, and joins it with those it
touches, so a map stays in order and gains just the range.  The first range starts at 0, so
nothing is ever put in front of it and the pointer to it stays right.

The ranges of one page are the runs of the numbers found in it.  Ranges of different pages and
of different threads have no number in common either, which makes the order of the calls
immaterial: what is in the maps in the end is what was reserved and what was found.
-/
import Mathlib.Algebra.Order.BigOperators.Group.List
import Parfs.InodeRecover
import Parfs.Proofs.InodeMap

namespace Parfs

open Lib

variable {env : BallocEnv}

/-! ### One call -/

section OneCall

variable {m m' : InodeMap} {reserved low high addr : Nat} {A B M : List RangeNode} {c : RangeNode}

/-- One node where some neighbours were, larger by the range. -/
theorem InodeMap.Wf.join (h : m.Wf env reserved) (hm : m.nodes = A ++ (M ++ B))
    (hm' : m'.nodes = A ++ c :: B) (hc : NodesOk env 0 (maxInode - 2) [c])
    (hA : ∀ a ∈ A, a.Below c) (hB : ∀ b ∈ B, c.Below b)
    (haddr : c.addr ∉ A.map RangeNode.addr ∧ c.addr ∉ B.map RangeNode.addr)
    (hhas : ∀ b, c.Holds b ↔ (∃ n ∈ M, n.Holds b) ∨ (low ≤ b ∧ b ≤ high))
    (hhead : A = [] → ∃ i M', M = i :: M' ∧ c.addr = i.addr ∧ c.rangeLow = i.rangeLow ∧
      i.rangeHigh ≤ c.rangeHigh)
    (hfirst' : m'.firstInodeRange = m.firstInodeRange)
    (hcount' : m'.numRangeNodeInode + M.length = m.numRangeNodeInode + 1) :
    m'.Wf env reserved ∧ ∀ b, m'.Has b ↔ m.Has b ∨ (low ≤ b ∧ b ≤ high) := by
  have hok := h.ok
  rw [hm] at hok
  have hnew : NodesOk env 0 (maxInode - 2) (A ++ ([c] ++ B)) :=
    hok.splice hc (by simpa using hA) (by simpa using hB) (by simpa using haddr)
  refine ⟨⟨?_, ?_, ?_⟩, ?_⟩
  · rw [hm']
    exact hnew
  · obtain ⟨i, rest, hnodes, hfirst, hlow, hres⟩ := h.first
    rw [hm] at hnodes
    cases A with
    | nil =>
        obtain ⟨i', M', rfl, hca, hcl, hch⟩ := hhead rfl
        have hi : i' = i := (List.cons.inj hnodes).1
        subst hi
        exact ⟨c, B, hm', by rw [hfirst', hfirst, hca], by omega, by omega⟩
    | cons a A =>
        have hi : a = i := (List.cons.inj hnodes).1
        subst hi
        exact ⟨a, A ++ c :: B, hm', by rw [hfirst', hfirst], hlow, hres⟩
  · have hcount := h.count
    rw [hm] at hcount
    rw [hm']
    simp only [List.length_append, List.length_cons] at hcount ⊢
    omega
  · intro b
    unfold InodeMap.Has
    rw [hm, hm']
    simp only [List.mem_append, List.mem_cons, or_and_right, exists_or, exists_eq_left, hhas b]
    constructor
    · rintro (ha | (hb | hb) | hb)
      · exact Or.inl (Or.inl ha)
      · exact Or.inl (Or.inr (Or.inl hb))
      · exact Or.inr hb
      · exact Or.inl (Or.inr (Or.inr hb))
    · rintro ((ha | hb | hb) | hb)
      · exact Or.inl ha
      · exact Or.inr (Or.inl (Or.inl hb))
      · exact Or.inr (Or.inr hb)
      · exact Or.inr (Or.inl (Or.inr hb))

/-- The range touches its lower neighbour only. -/
theorem InodeMap.Wf.join_left (h : m.Wf env reserved) {p : RangeNode} (hm : m.nodes = A ++ p :: B)
    (hle : low ≤ high) (hmax : high ≤ maxInode - 2) (hB : ∀ b ∈ B, high + 1 < b.rangeLow)
    (hleft : low = p.rangeHigh + 1) :
    let m' := m.modify p.addr fun q => novaUpdateRangeNodeChecksum env
      { q with rangeHigh := q.rangeHigh + (high - low + 1) }
    m'.Wf env reserved ∧ ∀ b, m'.Has b ↔ m.Has b ∨ (low ≤ b ∧ b ≤ high) := by
  intro m'
  have hmod : m'.nodes = A ++ _ :: B := InodeMap.modify_nodes hm h.ok _
  have hok := h.ok
  rw [hm] at hok
  obtain ⟨hne, hlo, -, haA, haB⟩ := hok.middle
  have hsort := hok.sorted
  rw [List.pairwise_append, List.pairwise_cons] at hsort
  refine h.join (M := [p]) (by simpa using hm) hmod ?_ ?_ ?_ ?_ ?_ ?_ rfl rfl
  · exact NodesOk.singleton (by simp; omega) (by simp) (by simp; omega) (by simp)
  · intro a ha
    have : a.rangeHigh + 1 < p.rangeLow := hsort.2.2 a ha p (by simp)
    simpa [RangeNode.Below] using this
  · intro b hb
    have := hB b hb
    simp [RangeNode.Below]
    omega
  · rw [novaUpdateRangeNodeChecksum_addr]
    exact ⟨haA, haB⟩
  · intro b
    simp [RangeNode.Holds]
    omega
  · intro _
    exact ⟨p, [], rfl, by simp, by simp, by simp⟩

/-- The range touches its upper neighbour only, which is not the first range. -/
theorem InodeMap.Wf.join_right (h : m.Wf env reserved) {q : RangeNode} (hm : m.nodes = A ++ q :: B)
    (hne : A ≠ []) (hle : low ≤ high) (hA : ∀ a ∈ A, a.rangeHigh + 1 < low)
    (hright : high + 1 = q.rangeLow) :
    let m' := m.modify q.addr fun n => novaUpdateRangeNodeChecksum env
      { n with rangeLow := n.rangeLow - (high - low + 1) }
    m'.Wf env reserved ∧ ∀ b, m'.Has b ↔ m.Has b ∨ (low ≤ b ∧ b ≤ high) := by
  intro m'
  have hmod : m'.nodes = A ++ _ :: B := InodeMap.modify_nodes hm h.ok _
  have hok := h.ok
  rw [hm] at hok
  obtain ⟨hqne, -, hhi, haA, haB⟩ := hok.middle
  have hsort := hok.sorted
  rw [List.pairwise_append, List.pairwise_cons] at hsort
  refine h.join (M := [q]) (by simpa using hm) hmod ?_ ?_ ?_ ?_ ?_ ?_ rfl rfl
  · exact NodesOk.singleton (by simp; omega) (by simp) (by simpa using hhi) (by simp)
  · intro a ha
    have := hA a ha
    simp [RangeNode.Below]
    omega
  · intro b hb
    have : q.rangeHigh + 1 < b.rangeLow := hsort.2.1.1 b hb
    simpa [RangeNode.Below] using this
  · rw [novaUpdateRangeNodeChecksum_addr]
    exact ⟨haA, haB⟩
  · intro b
    simp [RangeNode.Holds]
    omega
  · exact fun hnil => absurd hnil hne

/-- The range fills the hole between two nodes: the upper one goes. -/
theorem InodeMap.Wf.join_both (h : m.Wf env reserved) {p q : RangeNode}
    (hm : m.nodes = A ++ p :: q :: B) (hle : low ≤ high) (hleft : low = p.rangeHigh + 1)
    (hright : high + 1 = q.rangeLow) :
    let m' := (m.rbErase env q.addr).modify p.addr fun n =>
      novaUpdateRangeNodeChecksum env { n with rangeHigh := q.rangeHigh }
    m'.Wf env reserved ∧ ∀ b, m'.Has b ↔ m.Has b ∨ (low ≤ b ∧ b ≤ high) := by
  intro m'
  have hok := h.ok
  rw [hm] at hok
  have hok' : NodesOk env 0 (maxInode - 2) ((A ++ [p]) ++ q :: B) := by simpa using hok
  obtain ⟨hpne, hlo, -, haA, haB⟩ := hok.middle
  obtain ⟨hqne, -, hhi, hqA, hqB⟩ := hok'.middle
  have hpB : p.addr ∉ B.map RangeNode.addr := fun hmem => haB (by simp [hmem])
  have herase : (m.rbErase env q.addr).nodes = A ++ p :: B := by
    have : (m.rbErase env q.addr).nodes = (A ++ [p]) ++ B :=
      InodeMap.rbErase_nodes (by simpa using hm) hqA hqB
    simpa using this
  have hshrunk : NodesOk env 0 (maxInode - 2) (m.rbErase env q.addr).nodes := by
    have hnil : NodesOk env 0 (maxInode - 2) [] := ⟨by simp, by simp, by simp, by simp, by simp⟩
    have hcut : NodesOk env 0 (maxInode - 2) ((A ++ [p]) ++ ([] ++ B)) := hok'.shrink hnil (by simp) (by simp)
    rw [herase]
    simpa using hcut
  have hmod : m'.nodes = A ++ _ :: B := InodeMap.modify_nodes herase hshrunk _
  have hsort := hok.sorted
  rw [List.pairwise_append, List.pairwise_cons, List.pairwise_cons] at hsort
  refine h.join (M := [p, q]) (by simpa using hm) hmod ?_ ?_ ?_ ?_ ?_ ?_ rfl ?_
  · exact NodesOk.singleton (by simp; omega) (by simp) (by simpa using hhi) (by simp)
  · intro a ha
    have : a.rangeHigh + 1 < p.rangeLow := hsort.2.2 a ha p (by simp)
    simpa [RangeNode.Below] using this
  · intro b hb
    have : q.rangeHigh + 1 < b.rangeLow := hsort.2.1.2.1 b hb
    simpa [RangeNode.Below] using this
  · rw [novaUpdateRangeNodeChecksum_addr]
    exact ⟨haA, hpB⟩
  · intro b
    simp [RangeNode.Holds]
    omega
  · intro _
    exact ⟨p, [q], rfl, by simp, by simp, by simp; omega⟩
  · show m.numRangeNodeInode - 1 + 2 = m.numRangeNodeInode + 1
    have hcount := h.count
    rw [hm] at hcount
    simp only [List.length_append, List.length_cons] at hcount
    omega

/-- The range touches nothing: a node of its own. -/
theorem InodeMap.Wf.join_middle (h : m.Wf env reserved) (hm : m.nodes = A ++ B) (hne : A ≠ [])
    (hle : low ≤ high) (hmax : high ≤ maxInode - 2) (hA : ∀ a ∈ A, a.rangeHigh + 1 < low)
    (hB : ∀ b ∈ B, high + 1 < b.rangeLow) (hfresh : addr ∉ m.nodes.map RangeNode.addr) :
    ∃ tree, novaInsertInodetree env m.inodeInuseTree (novaFreshNode env addr low high) = .ok tree ∧
      let m' := { m with inodeInuseTree := tree, numRangeNodeInode := m.numRangeNodeInode + 1 }
      m'.Wf env reserved ∧ ∀ b, m'.Has b ↔ m.Has b ∨ (low ≤ b ∧ b ≤ high) := by
  let node := novaFreshNode env addr low high
  have hnlow : node.rangeLow = low := novaUpdateRangeNodeChecksum_rangeLow _
  have hnhigh : node.rangeHigh = high := novaUpdateRangeNodeChecksum_rangeHigh _
  have hnaddr : node.addr = addr := novaUpdateRangeNodeChecksum_addr _
  obtain ⟨tree, htree, hlist⟩ := novaInsertBlocktree_ok node h.ok hm
    (fun a ha => by have := hA a ha; omega) (fun b hb => by have := hB b hb; omega)
  refine ⟨tree, htree, ?_⟩
  refine h.join (M := []) (by simpa using hm) hlist ?_ ?_ ?_ ?_ ?_ ?_ rfl rfl
  · exact NodesOk.singleton (by omega) (by omega) (by omega) (novaRangeNodeChecksumOk_update _)
  · intro a ha
    have := hA a ha
    unfold RangeNode.Below
    omega
  · intro b hb
    have := hB b hb
    unfold RangeNode.Below
    omega
  · rw [hnaddr]
    rw [hm] at hfresh
    simpa [not_or] using hfresh
  · intro b
    simp [RangeNode.Holds]
    omega
  · exact fun hnil => absurd hnil hne

/-- **A range of numbers that are not in use is put into the map.** -/
theorem failureInsertIn_spec (h : m.Wf env reserved) (hres : reserved < low) (hle : low ≤ high)
    (hmax : high ≤ maxInode - 2) (hoff : ∀ b, low ≤ b → b ≤ high → ¬ m.Has b)
    (hfresh : addr ∉ m.nodes.map RangeNode.addr) :
    ∃ m', failureInsertIn env m low high addr = (m', .ok ()) ∧ m'.Wf env reserved ∧
      ∀ b, m'.Has b ↔ m.Has b ∨ (low ≤ b ∧ b ≤ high) := by
  let s : SubFreeList := { SubFreeList.zero with blockFreeTree := m.inodeInuseTree }
  have hhigh : low + (high - low + 1) - 1 = high := by omega
  have hend : low + (high - low + 1) = high + 1 := by omega
  have hoff' : ∀ b, low ≤ b → b < low + (high - low + 1) → ¬ s.Has b :=
    fun b h1 h2 => hoff b h1 (by omega)
  obtain ⟨A, B, hm, hA, hB, hslot⟩ := novaFindFreeSlot_between (s := s) h.ok (by omega) hoff'
  rw [hhigh] at hslot
  rw [hend] at hB
  have hslot' : novaFindFreeInodeSlot env m.inodeInuseTree low high = .ok (A.getLast?, B.head?) := hslot
  have hm : m.nodes = A ++ B := hm
  have hok := h.ok
  rw [hm] at hok
  -- the first range starts at 0, so it is below
  have hne : A ≠ [] := by
    rintro rfl
    obtain ⟨i, rest, hnodes, -, hlow, -⟩ := h.first
    have := hB i (by rw [hm] at hnodes; simp [show B = i :: rest from hnodes])
    omega
  obtain ⟨A', p, rfl⟩ := (List.eq_nil_or_concat' A).resolve_left hne
  have hprev : (A' ++ [p]).getLast? = some p := by simp
  rw [hprev] at hslot'
  unfold failureInsertIn
  rw [hslot']
  by_cases hleft : low = p.rangeHigh + 1
  · have hm' : m.nodes = A' ++ p :: B := by simpa using hm
    cases hnext : B.head? with
    | none =>
        obtain rfl := List.head?_eq_none_iff.mp hnext
        exact ⟨_, by simp [hleft], h.join_left hm' hle hmax (by simp) hleft⟩
    | some q =>
        by_cases hright : high + 1 = q.rangeLow
        · obtain ⟨B', rfl⟩ := List.head?_eq_some_iff.mp hnext
          exact ⟨_, by simp [hleft, hright], h.join_both hm' hle hleft hright⟩
        · exact ⟨_, by simp [hleft, hright],
            h.join_left hm' hle hmax (hok.gap_above hB hnext hright) hleft⟩
  · have hAlow := hok.gap_below hA hprev hleft
    cases hnext : B.head? with
    | none =>
        obtain rfl := List.head?_eq_none_iff.mp hnext
        obtain ⟨tree, htree, hres⟩ := h.join_middle hm hne hle hmax hAlow (by simp) hfresh
        exact ⟨_, by simp [htree, hleft], hres⟩
    | some q =>
        by_cases hright : high + 1 = q.rangeLow
        · obtain ⟨B', rfl⟩ := List.head?_eq_some_iff.mp hnext
          exact ⟨_, by simp [hleft, hright], h.join_right hm hne hle hAlow hright⟩
        · obtain ⟨tree, htree, hres⟩ := h.join_middle hm hne hle hmax hAlow
            (hok.gap_above hB hnext hright) hfresh
          exact ⟨_, by simp [htree, hleft, hright], hres⟩

end OneCall

/-! ### The calls -/

/-- The inode numbers a call names. -/
def CallHas (cpus : Nat) (call : Nat × Nat) (ino : Nat) : Prop :=
  ino % cpus = call.1 % cpus ∧ call.1 / cpus ≤ ino / cpus ∧ ino / cpus ≤ call.2 / cpus

/-- A range of one map, of numbers that are handed out. -/
structure CallOk (cpus : Nat) (call : Nat × Nat) : Prop where
  same : call.2 % cpus = call.1 % cpus
  le : call.1 / cpus ≤ call.2 / cpus
  unreserved : initialRangeHigh cpus < call.1 / cpus
  bound : call.2 / cpus ≤ maxInode - 2

/-- Two calls without a common number. -/
def CallsApart (cpus : Nat) (call call' : Nat × Nat) : Prop :=
  ∀ ino, CallHas cpus call ino → ¬ CallHas cpus call' ino

/-- Every map is in order, and the numbers in use are the reserved ones and those of `P`. -/
structure InodeMaps.Holds (env : BallocEnv) (cpus : Nat) (s : InodeMaps) (P : Nat → Prop) : Prop where
  cpus_eq : s.cpus = cpus
  wf : ∀ cpu < cpus, (s.inodeMaps cpu).Wf env (initialRangeHigh cpus)
  inUse : ∀ ino, s.InUse ino ↔ ino / cpus ≤ initialRangeHigh cpus ∨ P ino

section Calls

variable {cpus : Nat} {s s' : InodeMaps} {P : Nat → Prop} {call : Nat × Nat} {slab : Nat → InodeMaps → Nat}

theorem CallsApart.symm {call' : Nat × Nat} (h : CallsApart cpus call call') : CallsApart cpus call' call :=
  fun ino h1 h2 => h ino h2 h1

theorem CallOk.low_le (h : CallOk cpus call) : call.1 ≤ call.2 := by
  have hmul := Nat.mul_le_mul_left cpus h.le
  have h1 := Nat.div_add_mod call.1 cpus
  have h2 := Nat.div_add_mod call.2 cpus
  rw [h.same] at h2
  omega

/-- **What a call does to the maps.** -/
theorem novaFailureInsertInodetree_spec (h : s.Holds env cpus P) (hc : CallOk cpus call)
    (happ : ∀ ino, CallHas cpus call ino → ¬ P ino) {addr : Nat} (hfresh : s.Fresh addr) :
    ∃ s', novaFailureInsertInodetree env s call.1 call.2 addr = .ok (s', .ok ()) ∧
      s'.Holds env cpus (fun ino => P ino ∨ CallHas cpus call ino) := by
  have hcpus := h.cpus_eq
  have hpos : 0 < cpus := hcpus ▸ s.cpus_pos
  have hcpu : call.1 % cpus < cpus := Nat.mod_lt _ hpos
  have hoff : ∀ k, call.1 / cpus ≤ k → k ≤ call.2 / cpus → ¬ (s.inodeMaps (call.1 % cpus)).Has k := by
    intro k hlow hhigh hhas
    obtain ⟨hdiv, hmod⟩ := ino_parts (k := k) hpos hcpu
    have huse : s.InUse (k * cpus + call.1 % cpus) := by
      unfold InodeMaps.InUse
      rw [hcpus, hdiv, hmod]
      exact hhas
    rcases (h.inUse _).mp huse with hres | hP
    · have := hc.unreserved
      omega
    · refine happ _ ⟨hmod, ?_, ?_⟩ hP
      · rwa [hdiv]
      · rwa [hdiv]
  obtain ⟨m', hrun, hwf, hhas⟩ := failureInsertIn_spec (h.wf _ hcpu) hc.unreserved hc.le hc.bound hoff
    (hfresh _ (hcpus.symm ▸ hcpu))
  refine ⟨s.set (call.1 % cpus) m', ?_, hcpus, ?_, ?_⟩
  · unfold novaFailureInsertInodetree
    have := hc.low_le
    rw [if_neg (by omega), hcpus]
    simp only [hc.same, hrun, ne_eq, not_true_eq_false, if_false]
  · intro cpu hlt
    by_cases heq : cpu = call.1 % cpus
    · rw [heq, InodeMaps.set_same]
      exact hwf
    · rw [InodeMaps.set_ne heq]
      exact h.wf cpu hlt
  · intro ino
    have hbefore := h.inUse ino
    unfold InodeMaps.InUse CallHas at *
    rw [InodeMaps.set_cpus, hcpus]
    rw [hcpus] at hbefore
    by_cases heq : ino % cpus = call.1 % cpus
    · rw [heq, InodeMaps.set_same, hhas]
      rw [heq] at hbefore
      rw [hbefore]
      simp only [true_and]
      exact or_assoc
    · rw [InodeMaps.set_ne heq, hbefore]
      simp only [heq, false_and, or_false]

/-- **All the calls, in the order given.** -/
theorem failureInserts_spec (hslab : ∀ i s, InodeMaps.Fresh s (slab i s)) (calls : List (Nat × Nat)) :
    ∀ (i : Nat) (s : InodeMaps) (P : Nat → Prop), s.Holds env cpus P → (∀ c ∈ calls, CallOk cpus c) →
      calls.Pairwise (CallsApart cpus) → (∀ c ∈ calls, ∀ ino, CallHas cpus c ino → ¬ P ino) →
      ∃ s', failureInserts env slab calls i s = .ok s' ∧
        s'.Holds env cpus (fun ino => P ino ∨ ∃ c ∈ calls, CallHas cpus c ino) := by
  induction calls with
  | nil =>
      intro i s P h _ _ _
      refine ⟨s, rfl, h.cpus_eq, h.wf, ?_⟩
      intro ino
      rw [h.inUse]
      simp
  | cons call calls ih =>
      intro i s P h hok hapart hoff
      rw [List.pairwise_cons] at hapart
      obtain ⟨s₁, hrun, hs₁⟩ := novaFailureInsertInodetree_spec h (hok call (by simp))
        (hoff call (by simp)) (hslab i s)
      obtain ⟨s', hrun', hs'⟩ := ih (i + 1) s₁ _ hs₁ (fun c hc => hok c (by simp [hc])) hapart.2 (by
        rintro c hc ino hhas (hP | hcall)
        · exact hoff c (by simp [hc]) ino hhas hP
        · exact hapart.1 c hc ino hcall hhas)
      refine ⟨s', ?_, hs'.cpus_eq, hs'.wf, ?_⟩
      · rw [failureInserts, hrun]
        exact hrun'
      · intro ino
        rw [hs'.inUse]
        simp only [List.exists_mem_cons_iff]
        rw [or_assoc (a := P ino)]

theorem novaInitInodeInuseList_holds (hpos : 0 < cpus) (init : Nat → Nat) :
    (novaInitInodeInuseList env cpus hpos init).Holds env cpus fun _ => False := by
  have h : (InodeState.init env cpus hpos init).Exact env cpus := InodeState.init_exact hpos init
  refine ⟨h.cpus_eq, h.wf, ?_⟩
  intro ino
  have := h.inUse ino
  simpa [InodeState.init] using this

end Calls

/-! ### The threads -/

/-- Ranges in ascending order that have just the numbers of `P`. -/
structure RangesOf (R : List (Nat × Nat)) (P : Nat → Prop) : Prop where
  le : ∀ r ∈ R, r.1 ≤ r.2
  apart : R.Pairwise fun r r' => r.2 < r'.1
  covers : ∀ k, (∃ r ∈ R, r.1 ≤ k ∧ k ≤ r.2) ↔ P k

section Threads

variable {cpus cpu : Nat} {R R' : List (Nat × Nat)} {P P' : Nat → Prop} {ks : List Nat}

theorem RangesOf.ends (h : RangesOf R P) {r : Nat × Nat} (hr : r ∈ R) : P r.1 ∧ P r.2 :=
  ⟨(h.covers r.1).mp ⟨r, hr, le_refl _, h.le r hr⟩, (h.covers r.2).mp ⟨r, hr, h.le r hr, le_refl _⟩⟩

theorem RangesOf.append (h : RangesOf R P) (h' : RangesOf R' P') (hlt : ∀ a b, P a → P' b → a < b) :
    RangesOf (R ++ R') fun k => P k ∨ P' k where
  le r hr := (List.mem_append.mp hr).elim (h.le r) (h'.le r)
  apart := by
    rw [List.pairwise_append]
    exact ⟨h.apart, h'.apart, fun r hr r' hr' => hlt _ _ (h.ends hr).2 (h'.ends hr').1⟩
  covers k := by
    rw [← h.covers, ← h'.covers]
    simp only [List.mem_append, or_and_right, exists_or]

/-- The internal numbers of a range as the arguments of a call. -/
def callOf (cpus cpu : Nat) (r : Nat × Nat) : Nat × Nat := (r.1 * cpus + cpu, r.2 * cpus + cpu)

/-- The inner loop with a range begun. -/
theorem failurePageLoop_pending (hpos : 0 < cpus) (cpu : Nat) (ks : List Nat) :
    ∀ lo hi, 0 < lo → lo ≤ hi → (hi :: ks).Pairwise (· < ·) →
      ∃ R, failurePageLoop cpus (ks.map fun k => k * cpus + cpu) (lo * cpus + cpu) (hi * cpus + cpu) =
          R.map (callOf cpus cpu) ∧
        RangesOf R (fun k => (lo ≤ k ∧ k ≤ hi) ∨ k ∈ ks) := by
  induction ks with
  | nil =>
      intro lo hi hlo hle _
      have h1 : 0 < lo * cpus := Nat.mul_pos hlo hpos
      have h2 : 0 < hi * cpus := Nat.mul_pos (by omega) hpos
      refine ⟨[(lo, hi)], ?_, by simpa using hle, by simp, by simp⟩
      rw [List.map_nil, failurePageLoop, if_pos (by omega)]
      rfl
  | cons k ks ih =>
      intro lo hi hlo hle hsort
      have hlt : hi < k := (List.pairwise_cons.mp hsort).1 k (by simp)
      have hrest := (List.pairwise_cons.mp hsort).2
      have h1 : 0 < lo * cpus := Nat.mul_pos hlo hpos
      rw [List.map_cons, failurePageLoop, novaFailureUpdateInodetree, if_neg (by omega)]
      by_cases hnext : k = hi + 1
      · -- the range goes on
        have heq : k * cpus + cpu = hi * cpus + cpu + cpus := by
          rw [hnext, Nat.add_mul]
          omega
        rw [if_pos heq]
        obtain ⟨R, hR, hranges⟩ := ih lo k hlo (by omega) hrest
        refine ⟨R, hR, hranges.le, hranges.apart, ?_⟩
        intro j
        rw [hranges.covers, List.mem_cons, ← or_assoc]
        refine or_congr_left ?_
        omega
      · have hne : ¬ k * cpus + cpu = hi * cpus + cpu + cpus := by
          have hmul := Nat.mul_le_mul_right cpus (show hi + 2 ≤ k by omega)
          rw [Nat.add_mul] at hmul
          omega
        rw [if_neg hne]
        obtain ⟨R, hR, hranges⟩ := ih k k (by omega) (le_refl _) hrest
        refine ⟨(lo, hi) :: R, by simp [hR, callOf], ?_⟩
        have hone : RangesOf [(lo, hi)] fun j => lo ≤ j ∧ j ≤ hi := ⟨by simpa using hle, by simp, by simp⟩
        have hall := hone.append hranges (by
          rintro a b ⟨-, ha⟩ (⟨hb, -⟩ | hb)
          · omega
          · have := (List.pairwise_cons.mp hrest).1 b hb
            omega)
        refine ⟨hall.le, hall.apart, ?_⟩
        intro j
        have hj := hall.covers j
        rw [List.singleton_append] at hj
        rw [hj, List.mem_cons]
        refine or_congr_right (or_congr_left ?_)
        omega

/-- **The inner loop calls with the runs of the numbers found.** -/
theorem failurePageLoop_spec (hpos : 0 < cpus) (cpu : Nat) (hsort : ks.Pairwise (· < ·)) (hks : ∀ k ∈ ks, 0 < k) :
    ∃ R, failurePageLoop cpus (ks.map fun k => k * cpus + cpu) 0 0 = R.map (callOf cpus cpu) ∧
      RangesOf R (· ∈ ks) := by
  cases ks with
  | nil => exact ⟨[], rfl, by simp, by simp, by simp⟩
  | cons k ks =>
      obtain ⟨R, hR, hranges⟩ := failurePageLoop_pending hpos cpu ks k k (hks k (by simp))
        (le_refl _) hsort
      refine ⟨R, ?_, hranges.le, hranges.apart, ?_⟩
      · rw [List.map_cons, failurePageLoop, novaFailureUpdateInodetree, if_pos rfl]
        exact hR
      · intro j
        rw [hranges.covers, List.mem_cons]
        refine or_congr_left ?_
        omega

/-- The slot for the internal number is on one of the pages, and holds an inode. -/
def FoundAt (appendInodeToSnapshot : TableInode → Bool) (table : Nat → Nat → TableInode) (num k : Nat) :
    Prop :=
  k / numInodesPerPage < num ∧
    (table (k / numInodesPerPage) (k % numInodesPerPage)).found appendInodeToSnapshot = true

variable {appendInodeToSnapshot : TableInode → Bool} {table : Nat → Nat → TableInode} {num : Nat}

/-- The inode table of CPU `cpu` as the allocator fills it: an inode is where its number
belongs, and its number is one that is handed out. -/
def TableOk (cpus cpu : Nat) (appendInodeToSnapshot : TableInode → Bool) (table : Nat → Nat → TableInode)
    (num : Nat) : Prop :=
  ∀ k, FoundAt appendInodeToSnapshot table num k →
    (table (k / numInodesPerPage) (k % numInodesPerPage)).novaIno = k * cpus + cpu ∧
      initialRangeHigh cpus < k ∧ k ≤ maxInode - 2

/-- The internal numbers found in one page. -/
def pageNumbers (appendInodeToSnapshot : TableInode → Bool) (table : Nat → Nat → TableInode)
    (count : Nat) : List Nat :=
  ((List.range numInodesPerPage).filter fun i => (table count i).found appendInodeToSnapshot).map
    fun i => count * numInodesPerPage + i

theorem slot_parts (count : Nat) {i : Nat} (hi : i < numInodesPerPage) :
    (count * numInodesPerPage + i) / numInodesPerPage = count ∧
      (count * numInodesPerPage + i) % numInodesPerPage = i :=
  ino_parts (by decide) hi

theorem mem_pageNumbers {count k : Nat} : k ∈ pageNumbers appendInodeToSnapshot table count ↔
    k / numInodesPerPage = count ∧
      (table (k / numInodesPerPage) (k % numInodesPerPage)).found appendInodeToSnapshot = true := by
  unfold pageNumbers
  simp only [List.mem_map, List.mem_filter, List.mem_range]
  constructor
  · rintro ⟨i, ⟨hi, hfound⟩, rfl⟩
    obtain ⟨hdiv, hmod⟩ := slot_parts count hi
    rw [hdiv, hmod]
    exact ⟨rfl, hfound⟩
  · rintro ⟨rfl, hfound⟩
    refine ⟨k % numInodesPerPage, ⟨Nat.mod_lt _ (by decide), hfound⟩, ?_⟩
    rw [Nat.mul_comm]
    exact Nat.div_add_mod k numInodesPerPage

theorem pageNumbers_sorted (appendInodeToSnapshot : TableInode → Bool) (table : Nat → Nat → TableInode)
    (count : Nat) : (pageNumbers appendInodeToSnapshot table count).Pairwise (· < ·) := by
  unfold pageNumbers
  rw [List.pairwise_map]
  exact (List.pairwise_lt_range.filter _).imp fun hlt => by omega

theorem pageNumbers_novaIno {count : Nat} (hcount : count < num)
    (htable : TableOk cpus cpu appendInodeToSnapshot table num) :
    (((List.range numInodesPerPage).map (table count)).filter
      (TableInode.found appendInodeToSnapshot)).map TableInode.novaIno =
        (pageNumbers appendInodeToSnapshot table count).map fun k => k * cpus + cpu := by
  unfold pageNumbers
  rw [List.filter_map, List.map_map, List.map_map]
  refine List.map_congr_left fun i hi => ?_
  rw [List.mem_filter, List.mem_range] at hi
  obtain ⟨hdiv, hmod⟩ := slot_parts count hi.1
  have hslot := (htable (count * numInodesPerPage + i) (by
    unfold FoundAt
    rw [hdiv, hmod]
    exact ⟨hcount, hi.2⟩)).1
  rw [hdiv, hmod] at hslot
  exact hslot

/-- **A thread calls with the runs of the numbers found in its table.** -/
theorem failureThreadCalls_spec (hpos : 0 < cpus) (table : Nat → Nat → TableInode) (num : Nat) :
    TableOk cpus cpu appendInodeToSnapshot table num →
      ∃ R, failureThreadCalls cpus appendInodeToSnapshot table num = R.map (callOf cpus cpu) ∧
        RangesOf R (FoundAt appendInodeToSnapshot table num) := by
  induction num with
  | zero =>
      intro _
      exact ⟨[], rfl, by simp, by simp, by simp [FoundAt]⟩
  | succ num ih =>
      intro htable
      obtain ⟨R, hR, hranges⟩ := ih fun k hk => htable k ⟨by have := hk.1; omega, hk.2⟩
      obtain ⟨R', hR', hranges'⟩ := failurePageLoop_spec hpos cpu
        (pageNumbers_sorted appendInodeToSnapshot table num) (by
          intro k hk
          obtain ⟨hdiv, hfound⟩ := mem_pageNumbers.mp hk
          have := (htable k ⟨by omega, hfound⟩).2.1
          omega)
      refine ⟨R ++ R', ?_, ?_⟩
      · unfold failureThreadCalls at hR ⊢
        rw [List.range_succ, List.flatMap_append, hR, List.map_append]
        simp only [List.flatMap_cons, List.flatMap_nil, List.append_nil]
        rw [pageNumbers_novaIno (Nat.lt_succ_self num) htable, hR']
      · have hall := hranges.append hranges' (by
          rintro a b ⟨ha, -⟩ hb
          have hb := (mem_pageNumbers.mp hb).1
          by_contra hle
          have := Nat.div_le_div_right (c := numInodesPerPage) (show b ≤ a by omega)
          omega)
        refine ⟨hall.le, hall.apart, ?_⟩
        intro k
        rw [hall.covers, mem_pageNumbers]
        unfold FoundAt
        rw [← or_and_right]
        refine and_congr_left fun _ => ?_
        omega

theorem callHas_callOf (hpos : 0 < cpus) (hcpu : cpu < cpus) {r : Nat × Nat} {ino : Nat} :
    CallHas cpus (callOf cpus cpu r) ino ↔ ino % cpus = cpu ∧ r.1 ≤ ino / cpus ∧ ino / cpus ≤ r.2 := by
  unfold CallHas callOf
  simp only [(ino_parts hpos hcpu).1, (ino_parts hpos hcpu).2]

/-- The calls of one thread. -/
theorem threadCalls_spec (hpos : 0 < cpus) (hcpu : cpu < cpus)
    (htable : TableOk cpus cpu appendInodeToSnapshot table num) :
    let calls := failureThreadCalls cpus appendInodeToSnapshot table num
    (∀ c ∈ calls, CallOk cpus c) ∧ calls.Pairwise (CallsApart cpus) ∧
      ∀ ino, (∃ c ∈ calls, CallHas cpus c ino) ↔
        ino % cpus = cpu ∧ FoundAt appendInodeToSnapshot table num (ino / cpus) := by
  obtain ⟨R, hR, hranges⟩ := failureThreadCalls_spec hpos table num htable
  intro calls
  have hcalls : calls = R.map (callOf cpus cpu) := hR
  rw [hcalls]
  refine ⟨?_, ?_, ?_⟩
  · intro c hc
    obtain ⟨r, hr, rfl⟩ := List.mem_map.mp hc
    obtain ⟨hlow, hhigh⟩ := hranges.ends hr
    obtain ⟨hdiv, hmod⟩ := ino_parts (k := r.1) hpos hcpu
    obtain ⟨hdiv', hmod'⟩ := ino_parts (k := r.2) hpos hcpu
    refine ⟨hmod'.trans hmod.symm, ?_, ?_, ?_⟩
    · show (r.1 * cpus + cpu) / cpus ≤ (r.2 * cpus + cpu) / cpus
      rw [hdiv, hdiv']
      exact hranges.le r hr
    · show initialRangeHigh cpus < (r.1 * cpus + cpu) / cpus
      rw [hdiv]
      exact (htable _ hlow).2.1
    · show (r.2 * cpus + cpu) / cpus ≤ maxInode - 2
      rw [hdiv']
      exact (htable _ hhigh).2.2
  · rw [List.pairwise_map]
    refine hranges.apart.imp ?_
    intro r r' hlt ino h1 h2
    have h1 := (callHas_callOf hpos hcpu).mp h1
    have h2 := (callHas_callOf hpos hcpu).mp h2
    omega
  · intro ino
    rw [← hranges.covers]
    simp only [List.mem_map, exists_exists_and_eq_and, callHas_callOf hpos hcpu]
    constructor
    · rintro ⟨r, hr, hmod, hin⟩
      exact ⟨hmod, r, hr, hin⟩
    · rintro ⟨hmod, r, hr, hin⟩
      exact ⟨r, hr, hmod, hin⟩

end Threads

/-! ### The recovery -/

section Recovery

variable {cpus : Nat} {appendInodeToSnapshot : TableInode → Bool} {table : Nat → Nat → Nat → TableInode}
  {num : Nat → Nat}

/-- The calls of all threads, thread by thread. -/
def recoveryCalls (cpus : Nat) (appendInodeToSnapshot : TableInode → Bool)
    (table : Nat → Nat → Nat → TableInode) (num : Nat → Nat) : List (Nat × Nat) :=
  (List.range cpus).flatMap fun cpu =>
    failureThreadCalls cpus appendInodeToSnapshot (table cpu) (num cpu)

/-- The number is that of an inode one of the threads finds. -/
def ValidInode (cpus : Nat) (appendInodeToSnapshot : TableInode → Bool)
    (table : Nat → Nat → Nat → TableInode) (num : Nat → Nat) (ino : Nat) : Prop :=
  FoundAt appendInodeToSnapshot (table (ino % cpus)) (num (ino % cpus)) (ino / cpus)

theorem recoveryCalls_spec (hpos : 0 < cpus)
    (htable : ∀ cpu < cpus, TableOk cpus cpu appendInodeToSnapshot (table cpu) (num cpu)) :
    let calls := recoveryCalls cpus appendInodeToSnapshot table num
    (∀ c ∈ calls, CallOk cpus c) ∧ calls.Pairwise (CallsApart cpus) ∧
      ∀ ino, (∃ c ∈ calls, CallHas cpus c ino) ↔
        ValidInode cpus appendInodeToSnapshot table num ino := by
  have hthread := fun cpu (hcpu : cpu < cpus) => threadCalls_spec hpos hcpu (htable cpu hcpu)
  unfold recoveryCalls
  refine ⟨?_, ?_, ?_⟩
  · intro c hc
    obtain ⟨cpu, hcpu, hc⟩ := List.mem_flatMap.mp hc
    exact (hthread cpu (List.mem_range.mp hcpu)).1 c hc
  · rw [List.pairwise_flatMap]
    refine ⟨fun cpu hcpu => (hthread cpu (List.mem_range.mp hcpu)).2.1, ?_⟩
    refine List.pairwise_lt_range.imp_of_mem ?_
    intro cpu cpu' hcpu hcpu' hlt c hc c' hc' ino h1 h2
    -- the numbers of different threads are those of different maps
    have h1 := ((hthread cpu (List.mem_range.mp hcpu)).2.2 ino).mp ⟨c, hc, h1⟩
    have h2 := ((hthread cpu' (List.mem_range.mp hcpu')).2.2 ino).mp ⟨c', hc', h2⟩
    omega
  · intro ino
    constructor
    · rintro ⟨c, hc, hhas⟩
      obtain ⟨cpu, hcpu, hc⟩ := List.mem_flatMap.mp hc
      obtain ⟨rfl, hfound⟩ := ((hthread cpu (List.mem_range.mp hcpu)).2.2 ino).mp ⟨c, hc, hhas⟩
      exact hfound
    · intro hvalid
      have hcpu : ino % cpus < cpus := Nat.mod_lt _ hpos
      obtain ⟨c, hc, hhas⟩ := ((hthread _ hcpu).2.2 ino).mpr ⟨rfl, hvalid⟩
      exact ⟨c, List.mem_flatMap.mpr ⟨_, List.mem_range.mpr hcpu, hc⟩, hhas⟩

/-- An allocation from maps in order hands out a number that was not in use. -/
theorem InodeMaps.Holds.alloc {s s' : InodeMaps} {P : Nat → Prop} (h : s.Holds env cpus P) {cpuid ino : Nat}
    (hcpu : cpuid < cpus) (hrun : novaAllocUnusedInode env s cpuid = (s', .ok ino)) : ¬ s.InUse ino := by
  have hcpus := h.cpus_eq
  have hpos : 0 < cpus := hcpus ▸ s.cpus_pos
  unfold novaAllocUnusedInode at hrun
  rcases allocUnusedIn_spec (h.wf cpuid hcpu) with ⟨m', k, halloc, -, -, -, hnew, -⟩ | ⟨halloc, -⟩
  · rw [halloc, Prod.mk.injEq, Except.ok.injEq] at hrun
    obtain ⟨-, rfl⟩ := hrun
    unfold InodeMaps.InUse
    rw [hcpus, (ino_parts hpos hcpu).1, (ino_parts hpos hcpu).2]
    exact hnew
  · rw [halloc] at hrun
    simp at hrun

/-- What the recovery has to leave of one map. -/
structure InodeMap.Recovered (m : InodeMap) (P : Nat → Prop) : Prop where
  /-- sorted and disjoint, with a number between any two ranges -/
  sorted : m.nodes.Pairwise RangeNode.Below
  nonempty : ∀ n ∈ m.nodes, n.rangeLow ≤ n.rangeHigh
  /-- the numbers in the ranges -/
  union : ∀ k, m.Has k ↔ P k
  count : m.numRangeNodeInode = m.nodes.length
  first : ∃ i rest, m.nodes = i :: rest ∧ m.firstInodeRange = some i.addr

/--
**The maps after a crash.**  Whatever inodes the tables hold, however the calls of the threads
are interleaved and wherever the slab makes nodes, the recovery ends, with each map holding
the reserved numbers and the valid ones, and no allocation hands out a number of a valid inode.
-/
theorem novaFailureRecovery_inodetrees (hpos : 0 < cpus) (init : Nat → Nat)
    {slab : Nat → InodeMaps → Nat} (hslab : ∀ i s, InodeMaps.Fresh s (slab i s))
    (htable : ∀ cpu < cpus, TableOk cpus cpu appendInodeToSnapshot (table cpu) (num cpu))
    {calls : List (Nat × Nat)} (hcalls : calls.Perm (recoveryCalls cpus appendInodeToSnapshot table num)) :
    ∃ s, failureInserts env slab calls 0 (novaInitInodeInuseList env cpus hpos init) = .ok s ∧
      ∀ cpu < cpus,
        (s.inodeMaps cpu).Recovered (fun k => k ≤ initialRangeHigh cpus ∨
          ValidInode cpus appendInodeToSnapshot table num (k * cpus + cpu)) ∧
        ∀ s' ino, novaAllocUnusedInode env s cpu = (s', .ok ino) →
          ¬ ValidInode cpus appendInodeToSnapshot table num ino := by
  obtain ⟨hok, hapart, hvalid⟩ := recoveryCalls_spec hpos htable
  have hinit : (novaInitInodeInuseList env cpus hpos init).Holds env cpus fun _ => False :=
    novaInitInodeInuseList_holds hpos init
  obtain ⟨s, hrun, hs⟩ := failureInserts_spec hslab calls 0 _ _ hinit (fun c hc => hok c (hcalls.mem_iff.mp hc))
    ((hcalls.pairwise_iff fun h => h.symm).mpr hapart) (fun _ _ _ _ hno => hno)
  have huse : ∀ ino, s.InUse ino ↔ ino / cpus ≤ initialRangeHigh cpus ∨
      ValidInode cpus appendInodeToSnapshot table num ino := by
    intro ino
    rw [hs.inUse, ← hvalid]
    simp only [false_or, hcalls.mem_iff]
  refine ⟨s, hrun, fun cpu hcpu => ⟨?_, ?_⟩⟩
  · have hwf := hs.wf cpu hcpu
    obtain ⟨i, rest, hnodes, hfirst, -, -⟩ := hwf.first
    refine ⟨hwf.ok.sorted, hwf.ok.nonempty, ?_, hwf.count, i, rest, hnodes, hfirst⟩
    intro k
    have hk := huse (k * cpus + cpu)
    unfold InodeMaps.InUse at hk
    rw [hs.cpus_eq, (ino_parts hpos hcpu).1, (ino_parts hpos hcpu).2] at hk
    exact hk
  · intro s' ino halloc hino
    exact hs.alloc hcpu halloc ((huse ino).mpr (Or.inr hino))

/-- A slab that makes each node above all others. -/
def slabAbove (_ : Nat) (s : InodeMaps) : Nat :=
  ((List.range s.cpus).flatMap fun cpu => (s.inodeMaps cpu).nodes.map RangeNode.addr).sum + 1

theorem slabAbove_fresh (i : Nat) (s : InodeMaps) : s.Fresh (slabAbove i s) := by
  intro cpu hcpu hmem
  have hle := List.le_sum_of_mem
    (List.mem_flatMap (f := fun cpu => (s.inodeMaps cpu).nodes.map RangeNode.addr)
      |>.mpr ⟨cpu, List.mem_range.mpr hcpu, hmem⟩)
  unfold slabAbove at hle
  omega

/-- Two CPUs; the second one's table has the inodes with the internal numbers 17, 18 and 20. -/
def someTable (cpu count i : Nat) : TableInode :=
  if cpu = 1 ∧ count = 0 ∧ (i = 17 ∨ i = 18 ∨ i = 20) then ⟨i * 2 + 1, 1, 0, 1⟩ else ⟨0, 0, 0, 0⟩

theorem someTable_ok (cpu : Nat) : TableOk 2 cpu (fun _ => false) (someTable cpu) 1 := by
  intro k hk
  obtain ⟨hpage, hfound⟩ := hk
  have hk0 : k / numInodesPerPage = 0 := Nat.lt_one_iff.mp hpage
  have hmod : k % numInodesPerPage = k := Nat.mod_eq_of_lt ((Nat.div_eq_zero_iff_lt (by decide)).mp hk0)
  rw [hk0, hmod] at hfound ⊢
  unfold someTable at hfound ⊢
  split at hfound
  · rename_i h
    obtain ⟨rfl, -, hi⟩ := h
    rw [if_pos ⟨rfl, rfl, hi⟩]
    rcases hi with rfl | rfl | rfl <;> decide
  · simp [TableInode.found] at hfound

theorem novaFailureRecovery_inodetrees_two :
    ∃ s, failureInserts plainEnv slabAbove (recoveryCalls 2 (fun _ => false) someTable fun _ => 1) 0
        (novaInitInodeInuseList plainEnv 2 (by decide) fun i => i) = .ok s ∧
      ∀ cpu < 2,
        (s.inodeMaps cpu).Recovered (fun k => k ≤ initialRangeHigh 2 ∨
          ValidInode 2 (fun _ => false) someTable (fun _ => 1) (k * 2 + cpu)) ∧
        ∀ s' ino, novaAllocUnusedInode plainEnv s cpu = (s', .ok ino) →
          ¬ ValidInode 2 (fun _ => false) someTable (fun _ => 1) ino :=
  novaFailureRecovery_inodetrees (by decide) (fun i => i) slabAbove_fresh
    (fun cpu _ => someTable_ok cpu) (List.Perm.refl _)

end Recovery

end Parfs
