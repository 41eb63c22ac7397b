/-
What an allocation leaves when the slab has no range node.

The superpage path cuts the node it settled on before it asks for a second one.  Where that fails
the upper part of the cut is on no list any more, and the plain path, which is tried next, does not
know: whatever it returns, the counter says more than the tree holds.  A cut up to the end of the
node needs no second one.
-/
import Mathlib.Data.Fintype.EquivFin
import Parfs.Proofs.BallocRun

namespace Parfs

open Lib

variable {env : BallocEnv}

/-- What the node can give in whole 2MB pages to a request for `n` blocks. -/
def RangeNode.pages (c : RangeNode) (n : Nat) : Nat :=
  min n ((c.size - c.leftMargin) / pagesPer2MB * pagesPer2MB)

/-- The node a request in whole 2MB pages is cut from: the first with such a page above its left
margin. -/
def SubFreeList.roomy (s : SubFreeList) (dir : AllocDirection) (n : Nat) : Option RangeNode :=
  if n % pagesPer2MB = 0 then (s.walk dir).find? fun c => decide (c.leftMargin + pagesPer2MB ≤ c.size) else none

/-- How many blocks a request for `n` gets, if any. -/
def SubFreeList.grants (s : SubFreeList) (btype : BlockType) (dir : AllocDirection) (n : Nat) : Option Nat :=
  match s.roomy dir n with
  | some c => some (c.pages n)
  | none => ((s.walk dir).find? fun c => btype == .b4K || decide (n ≤ c.size)).map fun c => min n c.size

/-- The cut needs a second node, and there is none. -/
def SubFreeList.Leaks (s : SubFreeList) (dir : AllocDirection) (n : Nat) (blocknode : Option Nat) : Prop :=
  blocknode = none ∧ ∃ c, s.roomy dir n = some c ∧ c.leftMargin + c.pages n < c.size

section List

variable {s s' : SubFreeList} {c : RangeNode} {n low addr : Nat} {btype : BlockType} {dir : AllocDirection}
  {blocknode : Option Nat}

/-! ### What the searches settle on -/

theorem superpageSearch_eq {l : List RangeNode} (hcsum : ∀ c ∈ l, novaRangeNodeChecksumOk env c = true)
    (hsize : ∀ c ∈ l, c.size < 2 ^ 32) (hn : 0 < n) (hpage : n % pagesPer2MB = 0) (hlt : n < 2 ^ 63) :
    superpageSearch env l n = match l.find? fun c => decide (c.leftMargin + pagesPer2MB ≤ c.size) with
      | some c => (some c, c.pages n)
      | none => (none, n) := by
  induction l with
  | nil => rfl
  | cons x xs ih =>
      have hrest := ih (fun c hc => hcsum c (by simp [hc])) fun c hc => hsize c (by simp [hc])
      have hx := hsize x (by simp)
      have hok := hcsum x (by simp)
      have hmargin := x.leftMargin_bounds
      rw [superpageSearch, hok]
      simp only [Bool.not_true, Bool.false_eq_true, if_false, List.find?_cons]
      obtain ⟨best, hbest⟩ : ∃ best, subU64 x.size x.leftMargin / pagesPer2MB * pagesPer2MB = best := ⟨_, rfl⟩
      rw [hbest]
      by_cases hroom : x.leftMargin + pagesPer2MB ≤ x.size
      · -- a whole page fits: the request is cut down to the pages there are
        rw [decide_eq_true hroom]
        unfold RangeNode.pages
        unfold pagesPer2MB at *
        have hsub : subU64 x.size x.leftMargin = x.size - x.leftMargin := subU64_of_le (by omega) (by omega)
        rw [hsub] at hbest ⊢
        dsimp only
        rw [hbest]
        by_cases hmore : n > x.size - x.leftMargin ∧ best > 0
        · rw [if_pos hmore, if_pos (by omega), min_eq_right (by omega)]
        · rw [if_neg hmore, if_pos (by omega), min_eq_left (by omega)]
      · -- no page fits, and the request is not cut down either
        rw [decide_eq_false hroom]
        dsimp only
        rw [← hrest]
        unfold pagesPer2MB at *
        unfold subU64 at hbest ⊢
        rw [if_neg (by omega : ¬(n > _ ∧ best > 0)), if_neg (by omega)]

theorem plainSearch_eq (btype : BlockType) {l : List RangeNode} (hcsum : ∀ c ∈ l, novaRangeNodeChecksumOk env c = true) :
    plainSearch env btype n l = l.find? fun c => btype == .b4K || decide (n ≤ c.size) := by
  unfold plainSearch
  induction l with
  | nil => rfl
  | cons x xs ih =>
      have hfits : (true && !(btype != .b4K && decide (n > x.size))) = (btype == .b4K || decide (n ≤ x.size)) := by
        have hgt : decide (n > x.size) = !decide (n ≤ x.size) := by
          rw [← decide_not]
          exact decide_eq_decide.2 Nat.not_le.symm
        rw [hgt]
        cases btype <;> cases decide (n ≤ x.size) <;> rfl
      rw [List.find?_cons, List.find?_cons, ih fun c hc => hcsum c (by simp [hc]), hcsum x (by simp), hfits]

theorem plainTake_count (env : BallocEnv) (s : SubFreeList) (c : RangeNode) (n : Nat) (dir : AllocDirection) :
    (plainTake env s c n dir).2.1 = min n c.size := by
  unfold plainTake
  by_cases hwhole : n ≥ c.size
  · rw [if_pos hwhole]
    exact (min_eq_right hwhole).symm
  · rw [if_neg hwhole, min_eq_left (by omega)]
    cases dir <;> rfl

/-- The plain path does not look at the counter while it cuts. -/
theorem plainTake_counter (v : Nat) :
    plainTake env { s with numFreeBlocks := v } c n dir =
      ({ (plainTake env s c n dir).1 with numFreeBlocks := v }, (plainTake env s c n dir).2) := by
  unfold plainTake
  by_cases hwhole : n ≥ c.size
  · rw [if_pos hwhole, if_pos hwhole]
    rfl
  · rw [if_neg hwhole, if_neg hwhole]
    cases dir <;> rfl

/-! ### The cut without a second node -/

/-- A cut up to the end of the node asks for no other. -/
theorem superpageTake_full (addr : Nat) (hsize : c.size < 2 ^ 32) (hfull : c.leftMargin + n = c.size) :
    superpageTake env s c n none = superpageTake env s c n (some addr) := by
  have hmargin := c.leftMargin_bounds
  have hright : toU32 (subU64 (subU64 c.size c.leftMargin) n) = 0 := by
    rw [subU64_of_le (a := c.size) (by omega) (by omega), subU64_of_le (by omega) (by omega),
      toU32_of_lt (by omega)]
    omega
  unfold superpageTake
  simp only [hright, ne_eq, not_true_eq_false, if_false]

/-- The node cut down to its left margin. -/
def SubFreeList.cutDown (env : BallocEnv) (s : SubFreeList) (c : RangeNode) : SubFreeList :=
  s.modify c.addr fun q => novaUpdateRangeNodeChecksum env { q with rangeHigh := q.rangeLow + c.leftMargin - 1 }

theorem superpageTake_none (hsize : c.size < 2 ^ 32) (hmore : c.leftMargin + n < c.size) :
    superpageTake env s c n none = (s.cutDown env c, .error .enomem) := by
  have hmargin := c.leftMargin_bounds
  have hright : toU32 (subU64 (subU64 c.size c.leftMargin) n) = c.size - c.leftMargin - n := by
    rw [subU64_of_le (a := c.size) (by omega) (by omega), subU64_of_le (by omega) (by omega),
      toU32_of_lt (by omega)]
  have hleft : c.leftMargin ≠ 0 := by omega
  have hzero : c.size - c.leftMargin - n ≠ 0 := by omega
  unfold superpageTake
  simp only [hright, hleft, hzero, ne_eq, not_false_eq_true, if_true]
  rfl

/-- What is left is well formed up to the counter. -/
theorem SubFreeList.Wf.cutDown (h : s.Wf env) (hc : c ∈ s.nodes) (hmore : c.leftMargin < c.size) :
    SubFreeList.Wf env
      { s.cutDown env c with numFreeBlocks := s.numFreeBlocks - (c.size - c.leftMargin) } := by
  have hmargin := c.leftMargin_bounds
  obtain ⟨A, B, hs⟩ := List.append_of_mem hc
  have hsizec : c.size = c.rangeHigh + 1 - c.rangeLow := rfl
  exact (h.cut_node hs
    (fun q => novaUpdateRangeNodeChecksum env { q with rangeHigh := q.rangeLow + c.leftMargin - 1 })
    (c.rangeLow + c.leftMargin) (c.size - c.leftMargin)
    (by simp) (by simp) (by simp; omega) (by simp [RangeNode.size]; omega) (by simp)
    (by simp; omega) (by simp [RangeNode.Holds]; omega)).1

/-- The plain path keeps a counter that is too high too high. -/
theorem plainAlloc_counter (btype : BlockType) (dir : AllocDirection) {v : Nat} (h : s.Wf env) (hn : 0 < n) (hv : s.numFreeBlocks < v) :
    ((plainAlloc env { s with numFreeBlocks := v } btype n dir).1.nodes.map RangeNode.size).sum <
      (plainAlloc env { s with numFreeBlocks := v } btype n dir).1.numFreeBlocks := by
  have hwalk : SubFreeList.walk { s with numFreeBlocks := v } dir = s.walk dir := by cases dir <;> rfl
  unfold plainAlloc
  rw [hwalk]
  cases hsearch : plainSearch env btype n (s.walk dir) with
  | none => exact lt_of_eq_of_lt h.free.symm hv
  | some c =>
      have hc : c ∈ s.nodes := h.mem_walk.mp (List.mem_of_find?_eq_some hsearch)
      cases htake : plainTake env s c n dir with
      | mk s' r =>
          obtain ⟨m, low⟩ := r
          have hspec := plainTake_spec h hc hn htake
          have hsum : s.numFreeBlocks - m = (s'.nodes.map RangeNode.size).sum := hspec.wf.free
          obtain ⟨c', hc', hle⟩ := hspec.fits
          have hle' := h.size_le hc'
          simp only [plainTake_counter, htake]
          rw [if_neg (by omega)]
          show (s'.nodes.map RangeNode.size).sum < v - m
          omega

/-! ### One list -/

/-- An empty list gets past neither guard, and has nothing to give. -/
theorem SubFreeList.Wf.guard_iff (h : s.Wf env) : (s.firstNode = none ∨ s.numFreeBlocks = 0) ↔ s.nodes = [] := by
  cases hn : s.nodes with
  | nil => simp [h.first, hn]
  | cons x xs =>
      have hx := h.ok.nonempty x (by simp [hn])
      have hsize := h.size_le (c := x) (by simp [hn])
      unfold RangeNode.size at hsize
      simp [h.first, hn]
      omega

theorem SubFreeList.roomy_mem (h : s.Wf env) (hroomy : s.roomy dir n = some c) :
    c ∈ s.nodes ∧ n % pagesPer2MB = 0 ∧ c.leftMargin + pagesPer2MB ≤ c.size := by
  unfold SubFreeList.roomy at hroomy
  by_cases hpage : n % pagesPer2MB = 0
  · rw [if_pos hpage] at hroomy
    have hfits := List.find?_some hroomy
    exact ⟨h.mem_walk.mp (List.mem_of_find?_eq_some hroomy), hpage, by simpa using hfits⟩
  · rw [if_neg hpage] at hroomy
    cases hroomy

/-- What the roomy node gives is at least a page and fits. -/
theorem RangeNode.pages_bounds (hn : 0 < n) (hpage : n % pagesPer2MB = 0) (hroom : c.leftMargin + pagesPer2MB ≤ c.size) :
    0 < c.pages n ∧ c.pages n ≤ n ∧ c.leftMargin + c.pages n ≤ c.size := by
  unfold RangeNode.pages
  unfold pagesPer2MB at *
  omega

/-- How a list answers: it gives that many blocks, or it stays as it is. -/
def Granted (env : BallocEnv) (s : SubFreeList) :
    Option Nat → SubFreeList × Except Errno (Nat × Nat) → Prop
  | none, r => ∃ e, r = (s, .error e)
  | some m, r => ∃ s' low, r = (s', .ok (m, low)) ∧ 0 < m ∧ s'.Wf env ∧ Removes s s' low m

theorem plainAlloc_granted (btype : BlockType) (h : s.Wf env) (hn : 0 < n) (hroomy : s.roomy dir n = none) :
    Granted env s (s.grants btype dir n) (plainAlloc env s btype n dir) := by
  have hcsum : ∀ c ∈ s.walk dir, novaRangeNodeChecksumOk env c = true :=
    fun c hc => h.ok.checksum c (h.mem_walk.mp hc)
  have hsearch := plainSearch_eq (n := n) btype hcsum
  have hspec := plainAlloc_spec h hn btype dir
  unfold SubFreeList.grants
  rw [hroomy]
  dsimp only
  rw [← hsearch]
  unfold plainAlloc at hspec ⊢
  cases hfound : plainSearch env btype n (s.walk dir) with
  | none => exact ⟨.enospc, rfl⟩
  | some c =>
      have hc : c ∈ s.nodes := h.mem_walk.mp (List.mem_of_find?_eq_some hfound)
      have hcount := plainTake_count env s c n dir
      rw [hfound] at hspec
      cases htake : plainTake env s c n dir with
      | mk s' r =>
          obtain ⟨m, low⟩ := r
          rw [htake] at hcount
          obtain ⟨hle, -⟩ := (plainTake_spec h hc hn htake).alloc h
          simp only [htake, if_neg (Nat.not_lt.2 hle)] at hspec ⊢
          obtain ⟨hpos, -, -, hwf, hrem⟩ := hspec
          have hm : m = min n c.size := hcount
          rw [Option.map_some, ← hm]
          exact ⟨_, low, rfl, hpos, hwf, hrem⟩

/-- The superpage path on the roomy node, when no second node is needed or there is one. -/
theorem superpageTake_granted (h : s.Wf env) (hn : 0 < n) (hroomy : s.roomy dir n = some c)
    (hleak : ¬s.Leaks dir n blocknode) (hfresh : ∀ addr, blocknode = some addr → addr ∉ s.nodes.map RangeNode.addr) :
    ∃ s', superpageTake env s c (c.pages n) blocknode = (s', .ok (c.pages n)) ∧
      Takes env s s' n (c.rangeLow + c.leftMargin) (c.pages n) := by
  obtain ⟨hc, hpage, hroom⟩ := SubFreeList.roomy_mem h hroomy
  obtain ⟨hpos, hle, hfits⟩ := RangeNode.pages_bounds hn hpage hroom
  cases blocknode with
  | some addr => exact superpageTake_spec h hc hpos hle hfits (hfresh addr rfl)
  | none =>
      have hfull : c.leftMargin + c.pages n = c.size := by
        by_contra hne
        exact hleak ⟨rfl, c, hroomy, by omega⟩
      obtain ⟨addr, haddr⟩ := Infinite.exists_notMem_finset (s.nodes.map RangeNode.addr).toFinset
      rw [superpageTake_full addr (h.size_lt hc) hfull]
      exact superpageTake_spec h hc hpos hle hfits (by simpa using haddr)

theorem novaAllocSuperpage_eq (h : s.Wf env) (hn : 0 < n) (hpage : n % pagesPer2MB = 0) (hlt : n < 2 ^ 63) :
    novaAllocSuperpage env s n dir blocknode = match s.roomy dir n with
      | none => (s, .ok 0, 0)
      | some c => ((superpageTake env s c (c.pages n) blocknode).1, (superpageTake env s c (c.pages n) blocknode).2,
          c.rangeLow + c.leftMargin) := by
  have hsearch := superpageSearch_eq (fun c hc => h.ok.checksum c (h.mem_walk.mp hc))
    (fun c hc => h.size_lt (h.mem_walk.mp hc)) hn hpage hlt (l := s.walk dir)
  unfold novaAllocSuperpage SubFreeList.roomy
  rw [hsearch, if_pos hpage]
  cases (s.walk dir).find? fun c => decide (c.leftMargin + pagesPer2MB ≤ c.size) <;> rfl

theorem isDatablocks2MBAligned_iff : isDatablocks2MBAligned n .data = true ↔ n % pagesPer2MB = 0 := by
  simp [isDatablocks2MBAligned]

/-- **What a data list gives when nothing leaks.** -/
theorem novaAllocBlocksInFreeList_granted (btype : BlockType) (h : s.Wf env) (hn : 0 < n) (hlt : n < 2 ^ 63)
    (hleak : ¬s.Leaks dir n blocknode) (hfresh : ∀ addr, blocknode = some addr → addr ∉ s.nodes.map RangeNode.addr) :
    Granted env s (s.grants btype dir n) (novaAllocBlocksInFreeList env s btype .data n dir blocknode) := by
  unfold novaAllocBlocksInFreeList
  by_cases hempty : s.nodes = []
  · rw [if_pos (h.guard_iff.2 hempty)]
    have hwalk : s.walk dir = [] := by
      rw [h.walk_eq, hempty]
      cases dir <;> rfl
    unfold SubFreeList.grants SubFreeList.roomy
    rw [hwalk]
    by_cases hpage : n % pagesPer2MB = 0 <;> simp [hpage, Granted]
  · rw [if_neg (mt h.guard_iff.1 hempty), if_neg (by simp)]
    cases hroomy : s.roomy dir n with
    | none =>
        have hplain := plainAlloc_granted btype h hn hroomy
        by_cases hpage : n % pagesPer2MB = 0
        · rw [if_pos (isDatablocks2MBAligned_iff.2 hpage), novaAllocSuperpage_eq h hn hpage hlt, hroomy]
          simpa using hplain
        · rw [if_neg (mt isDatablocks2MBAligned_iff.1 hpage)]
          exact hplain
    | some c =>
        obtain ⟨hc, hpage, -⟩ := SubFreeList.roomy_mem h hroomy
        obtain ⟨s', htake, hspec⟩ := superpageTake_granted h hn hroomy hleak hfresh
        obtain ⟨hle, hpos, -, -, hwf, hrem⟩ := hspec.alloc h
        have hcount := h.numFreeBlocks_lt
        have hcounter := hspec.counter
        rw [if_pos (isDatablocks2MBAligned_iff.2 hpage), novaAllocSuperpage_eq h hn hpage hlt, hroomy]
        simp only [htake]
        rw [if_pos ⟨hpos, c.start_ne_zero⟩, subU64_of_le hle (by omega)]
        unfold SubFreeList.grants
        rw [hroomy]
        exact ⟨_, _, rfl, hpos, hwf, hrem⟩

/-- **A leak: the counter says more than there is.** -/
theorem novaAllocBlocksInFreeList_leaks (btype : BlockType) (h : s.Wf env) (hn : 0 < n) (hlt : n < 2 ^ 63)
    (hleak : s.Leaks dir n blocknode) :
    ((novaAllocBlocksInFreeList env s btype .data n dir blocknode).1.nodes.map RangeNode.size).sum <
      (novaAllocBlocksInFreeList env s btype .data n dir blocknode).1.numFreeBlocks := by
  obtain ⟨rfl, c, hroomy, hmore⟩ := hleak
  obtain ⟨hc, hpage, hroom⟩ := SubFreeList.roomy_mem h hroomy
  have hsize := h.size_le hc
  have hne : s.nodes ≠ [] := List.ne_nil_of_mem hc
  have hcut := h.cutDown hc (by omega)
  unfold pagesPer2MB at hroom
  have hplain := plainAlloc_counter btype dir (v := s.numFreeBlocks) hcut hn
    (by show s.numFreeBlocks - (c.size - c.leftMargin) < s.numFreeBlocks; omega)
  unfold novaAllocBlocksInFreeList
  rw [if_neg (mt h.guard_iff.1 hne), if_neg (by simp), if_pos (isDatablocks2MBAligned_iff.2 hpage),
    novaAllocSuperpage_eq h hn hpage hlt, hroomy]
  simp only [superpageTake_none (h.size_lt hc) hmore]
  exact hplain

end List

/-! ### The call -/

section Call

variable {sbi : NovaSbInfo} {btype : BlockType} {num : Nat} {cpu : Option Nat} {smp : Nat} {dir : AllocDirection}
  {blocknode : Option Nat}

/-- A range is taken off a list only once. -/
theorem Removes.length_eq {s s' : SubFreeList} {low low' n m : Nat} (h : Removes s s' low n) (h' : Removes s s' low' m)
    (hn : 0 < n) : n = m := by
  have htaken : ∀ b, (low ≤ b ∧ b < low + n) ↔ low' ≤ b ∧ b < low' + m := by
    intro b
    have hhas := h.has b
    have hhas' := h'.has b
    have hoff := h.off b
    have hoff' := h'.off b
    constructor
    · intro hb
      exact (hhas'.mp (hhas.mpr (Or.inr hb))).resolve_left (hoff hb.1 hb.2)
    · intro hb
      exact (hhas.mp (hhas'.mpr (Or.inr hb))).resolve_left (hoff' hb.1 hb.2)
  have hfirst := (htaken low).mp ⟨le_rfl, by omega⟩
  have hfirst' := (htaken low').mpr ⟨le_rfl, by omega⟩
  have hlast := (htaken (low + n - 1)).mp ⟨by omega, by omega⟩
  have hlast' := (htaken (low' + m - 1)).mpr ⟨by omega, by omega⟩
  omega

/-- **An allocation is exact**: the range it returns is what one list lost, an error loses nothing,
and every counter is the sum of its list's ranges. -/
structure AllocExact (sbi : NovaSbInfo) (btype : BlockType) (r : NovaSbInfo × NewBlocks) : Prop where
  taken : 0 < r.2.ret → ∃ i < sbi.geo.cpus,
    Removes (sbi.sub .data i) (r.1.sub .data i) r.2.blocknr (r.2.ret.toNat * novaGetNumblocks btype) ∧
      ∀ t j, (t ≠ .data ∨ j ≠ i) → r.1.sub t j = sbi.sub t j
  refused : r.2.ret ≤ 0 → ∀ t j b, (r.1.sub t j).Has b ↔ (sbi.sub t j).Has b
  counted : ∀ i < sbi.geo.cpus, (r.1.sub .data i).numFreeBlocks = ((r.1.sub .data i).nodes.map RangeNode.size).sum

/-- The data list the call settles on. -/
def NovaSbInfo.allocList (sbi : NovaSbInfo) (btype : BlockType) (num : Nat) (cpu : Option Nat) (smp : Nat) : SubFreeList :=
  sbi.sub .data (retryLoop sbi (num * novaGetNumblocks btype) .data 2 (cpu.getD (smp % sbi.geo.cpus)))

/-- What the list gives comes out as whole blocks of the type, no more of them than an `int` counts. -/
def Returnable (btype : BlockType) (m : Nat) : Prop :=
  novaGetNumblocks btype ∣ m ∧ m / novaGetNumblocks btype < 2 ^ 31

instance (m : Nat) : Decidable (Returnable btype m) := inferInstanceAs (Decidable (_ ∧ _))

theorem novaGetNumblocks_bounds (btype : BlockType) : 0 < novaGetNumblocks btype ∧ novaGetNumblocks btype ≤ 2 ^ 18 := by
  cases btype <;> decide

theorem AllocExact.unchanged {r : NovaSbInfo × NewBlocks} (hwf : ∀ i < sbi.geo.cpus, (sbi.sub .data i).Wf env)
    (hsbi : r.1 = sbi) (hret : r.2.ret ≤ 0) : AllocExact sbi btype r where
  taken := fun h => by omega
  refused := fun _ _ _ _ => by rw [hsbi]
  counted := fun i hi => by rw [hsbi]; exact (hwf i hi).free

theorem toNat_toS32_lt (a : Int) : (toS32 a).toNat < 2 ^ 31 := by
  have hlt : toS32 a < (2 ^ 32 + 1) / 2 := Int.bmod_lt (x := a) (m := 2 ^ 32) (by decide)
  omega

/-- What one list gave, returned: exact when it is returnable, and only then. -/
theorem AllocExact.given_iff {i m low : Nat} (s' : SubFreeList) (hwf : ∀ i < sbi.geo.cpus, (sbi.sub .data i).Wf env)
    (hi : i < sbi.geo.cpus) (hm : 0 < m) (hwf' : s'.Wf env) (hrem : Removes (sbi.sub .data i) s' low m) :
    AllocExact sbi btype
        (sbi.setSub .data i s', { ret := toS32 (m / novaGetNumblocks btype : Nat), blocknr := low }) ↔
      Returnable btype m := by
  obtain ⟨hnb, -⟩ := novaGetNumblocks_bounds btype
  have hsub : (sbi.setSub .data i s').sub .data i = s' := NovaSbInfo.sub_setSub_same
  have hlost : ¬∀ b, s'.Has b ↔ (sbi.sub .data i).Has b := fun hsame =>
    hrem.off low le_rfl (by omega) ((hsame low).2 ((hrem.has low).2 (Or.inr ⟨le_rfl, by omega⟩)))
  constructor
  · have hbound : (toS32 (m / novaGetNumblocks btype : Nat)).toNat < 2 ^ 31 := toNat_toS32_lt _
    generalize toS32 (m / novaGetNumblocks btype : Nat) = ret at hbound
    intro h
    have hpos : 0 < ret := by
      by_contra hret
      refine hlost fun b => ?_
      have hsame := h.refused (not_lt.1 hret) .data i b
      rwa [hsub] at hsame
    obtain ⟨j, -, hj, hothers⟩ := h.taken hpos
    have hji : j = i := by
      by_contra hne
      have hsame := hothers .data i (Or.inr (Ne.symm hne))
      exact hlost fun b => by rw [← hsub, hsame]
    subst hji
    dsimp only at hj
    rw [hsub] at hj
    have hlen := hrem.length_eq hj hm
    refine ⟨⟨ret.toNat, by rw [hlen, Nat.mul_comm]⟩, ?_⟩
    rw [hlen, Nat.mul_div_cancel _ hnb]
    exact hbound
  · rintro ⟨⟨q, rfl⟩, hlt⟩
    rw [Nat.mul_div_cancel_left q hnb] at hlt ⊢
    rw [toS32_of_lt hlt]
    refine ⟨fun _ => ⟨i, hi, ?_, fun t j hne => NovaSbInfo.sub_setSub_ne hne⟩, fun hret => ?_, fun j hj => ?_⟩
    · rw [hsub, Int.toNat_natCast, Nat.mul_comm]
      exact hrem
    · have hq : q = 0 := by
        have : (q : Int) ≤ 0 := hret
        omega
      subst hq
      omega
    · dsimp only
      by_cases hji : j = i
      · subst hji
        rw [hsub]
        exact hwf'.free
      · rw [NovaSbInfo.sub_setSub_ne (Or.inr hji)]
        exact (hwf j hj).free

/-- **Exactly the allocations that leak nothing and give whole blocks are exact.** -/
theorem novaNewDataBlocks_exact_iff (hnum : num < 2 ^ 32) (hwf : ∀ i < sbi.geo.cpus, (sbi.sub .data i).Wf env)
    (hfresh : ∀ addr, blocknode = some addr → ∀ i < sbi.geo.cpus, addr ∉ (sbi.sub .data i).nodes.map RangeNode.addr)
    (hcpu : ∀ c, cpu = some c → c < sbi.geo.cpus) :
    AllocExact sbi btype (novaNewDataBlocks env sbi btype num cpu smp dir blocknode) ↔
      (0 < num → ¬(sbi.allocList btype num cpu smp).Leaks dir (num * novaGetNumblocks btype) blocknode ∧
        ∀ m, (sbi.allocList btype num cpu smp).grants btype dir (num * novaGetNumblocks btype) = some m →
          Returnable btype m) := by
  obtain ⟨hnb, hnb'⟩ := novaGetNumblocks_bounds btype
  unfold novaNewDataBlocks novaNewBlocks NovaSbInfo.allocList
  by_cases hzero : num = 0
  · subst hzero
    rw [if_pos (Nat.zero_mul _)]
    exact iff_of_true (AllocExact.unchanged hwf rfl (by show -Errno.einval.code ≤ 0; decide)) fun h => by omega
  · have hn : 0 < num * novaGetNumblocks btype := Nat.mul_pos (by omega) hnb
    have hlt : num * novaGetNumblocks btype < 2 ^ 63 := by
      have := Nat.mul_le_mul hnum.le hnb'
      omega
    have hstart : cpu.getD (smp % sbi.geo.cpus) < sbi.geo.cpus := by
      cases cpu with
      | none => exact Nat.mod_lt _ sbi.geo.cpus_pos
      | some c => exact hcpu c rfl
    have hi := retryLoop_lt sbi (num * novaGetNumblocks btype) .data 2 _ hstart
    rw [if_neg (by omega)]
    dsimp only
    generalize retryLoop sbi (num * novaGetNumblocks btype) .data 2 (cpu.getD (smp % sbi.geo.cpus)) = i at hi ⊢
    generalize num * novaGetNumblocks btype = n at hn hlt ⊢
    rw [forall_prop_of_true (by omega : 0 < num)]
    by_cases hleak : (sbi.sub .data i).Leaks dir n blocknode
    · -- the counter of the list is off, whatever the call returns
      have hcounter := novaAllocBlocksInFreeList_leaks btype (hwf i hi) hn hlt hleak
      refine iff_of_false (fun h => ?_) fun h => h.1 hleak
      have hcounted := h.counted i hi
      rcases hrun : novaAllocBlocksInFreeList env (sbi.sub .data i) btype .data n dir blocknode with ⟨s', _ | ⟨m, low⟩⟩
      all_goals rw [hrun] at hcounter hcounted
      · simp only [NovaSbInfo.sub_setSub_same] at hcounted
        exact hcounter.ne' hcounted
      · by_cases hm : m = 0
        · simp only [hm, if_true, NovaSbInfo.sub_setSub_same] at hcounted
          exact hcounter.ne' hcounted
        · simp only [hm, if_false, NovaSbInfo.sub_setSub_same] at hcounted
          exact hcounter.ne' hcounted
    · have hgranted := novaAllocBlocksInFreeList_granted btype (hwf i hi) hn hlt hleak
        fun addr haddr => hfresh addr haddr i hi
      cases hgrants : (sbi.sub .data i).grants btype dir n with
      | none =>
          rw [hgrants] at hgranted
          obtain ⟨e, hrun⟩ := hgranted
          rw [hrun]
          exact iff_of_true (AllocExact.unchanged hwf NovaSbInfo.setSub_self (by show -Errno.enospc.code ≤ 0; decide)) ⟨hleak, nofun⟩
      | some m =>
          rw [hgrants] at hgranted
          obtain ⟨s', low, hrun, hm, hwf', hrem⟩ := hgranted
          rw [hrun]
          dsimp only
          rw [if_neg (by omega)]
          let counted : SubFreeList := { s' with
            allocCount := s'.allocCount + 1
            allocPages := s'.allocPages + m }
          refine (AllocExact.given_iff counted hwf hi hm
            ⟨hwf'.ok, hwf'.first, hwf'.last, hwf'.count, hwf'.free, hwf'.span⟩
            ⟨hrem.blockStart, hrem.blockEnd, hrem.has, hrem.off⟩).trans ⟨fun h => ⟨hleak, ?_⟩, fun h => h.2 m rfl⟩
          rintro _ ⟨⟩
          exact h

/-- One CPU with a data list of 2048 blocks, all free. -/
def freshList : SubFreeList := { SubFreeList.zero with
  blockFreeTree := .node .nil ⟨1, 0, 2047, 0⟩ .nil
  firstNode := some 1
  lastNode := some 1
  blockEnd := 2047
  numFreeBlocks := 2048
  numBlocknode := 1 }

theorem freshList_wf : freshList.Wf plainEnv where
  ok := ⟨by simp [freshList, SubFreeList.nodes], by decide, by decide, by decide, by decide⟩
  first := rfl
  last := rfl
  count := rfl
  free := rfl
  span := by decide

def freshInfo : NovaSbInfo where
  geo := ⟨1, Nat.one_pos, 2 ^ 23, 1024, 2048, smallGeometry.initsize_lt, smallGeometry.metaNumBlocks_lt, by decide⟩
  freeLists := fun _ => ⟨SubFreeList.zero, freshList⟩

/-- Three 2MB pages, up to the end of the list, when there is no node to be had. -/
theorem novaNewDataBlocks_exact_full :
    AllocExact freshInfo .b4K (novaNewDataBlocks plainEnv freshInfo .b4K 1536 none 0 .allocFromHead none) := by
  refine (novaNewDataBlocks_exact_iff (by decide) (fun _ _ => freshList_wf) (by simp) (by simp)).2 fun _ => ⟨?_, ?_⟩
  · rintro ⟨-, c, hroomy, hmore⟩
    have hc : freshList.roomy .allocFromHead 1536 = some ⟨1, 0, 2047, 0⟩ := by decide
    obtain rfl := Option.some.inj (hc.symm.trans hroomy)
    exact absurd hmore (by decide)
  · intro m hm
    have hgrants : freshList.grants .b4K .allocFromHead 1536 = some 1536 := by decide
    obtain rfl := Option.some.inj (hgrants.symm.trans hm)
    decide

/-- One 2MB page, when there is no node to be had. -/
theorem novaNewDataBlocks_leaks :
    ¬∀ (env : BallocEnv) (sbi : NovaSbInfo) (btype : BlockType) (num : Nat) (cpu : Option Nat) (smp : Nat)
      (dir : AllocDirection) (blocknode : Option Nat), num < 2 ^ 32 →
      (∀ i < sbi.geo.cpus, (sbi.sub .data i).Wf env) →
      (∀ addr, blocknode = some addr → ∀ i < sbi.geo.cpus, addr ∉ (sbi.sub .data i).nodes.map RangeNode.addr) →
      (∀ c, cpu = some c → c < sbi.geo.cpus) →
      AllocExact sbi btype (novaNewDataBlocks env sbi btype num cpu smp dir blocknode) := by
  intro h
  have hexact := h plainEnv freshInfo .b4K 512 none 0 .allocFromHead none (by decide) (fun _ _ => freshList_wf) (by simp) (by simp)
  exact absurd (hexact.counted 0 (by decide)) (by decide)

end Call

end Parfs
