/-
The allocator over whole runs.

The state is the per-CPU lists together with a ledger the kernel does not keep: the
ranges callers were handed and have not given back.  A call adds to the ledger what
its return value tells the caller it owns, and a free takes a sub-range of one record
out of it.  `Conserved` says that lists and ledger together are the blocks the lists
started with, each block once.

There is one thing a run has to avoid.  `nova_new_blocks` counts in `long` and returns
an `int`, so a request that is served with 2^31 blocks or more takes them off the list
and tells the caller that it failed.
-/
import Parfs.Lib.Run
import Parfs.Proofs.Balloc

namespace Parfs

open Lib

/-- Blocks handed to a caller. -/
structure Extent where
  atype : AllocType
  low : Nat
  len : Nat
  deriving DecidableEq, Repr

/-- The block is one of the extent's. -/
def Extent.Covers (e : Extent) (t : AllocType) (b : Nat) : Prop :=
  e.atype = t ∧ e.low ≤ b ∧ b < e.low + e.len

/-- What is left of an extent when a range inside it goes. -/
def Extent.rest (e : Extent) (low len : Nat) : List Extent :=
  [{ e with len := low - e.low }, { e with low := low + len, len := e.low + e.len - (low + len) }]

/-- The block is on some CPU's list. -/
def NovaSbInfo.Free (sbi : NovaSbInfo) (t : AllocType) (b : Nat) : Prop :=
  ∃ cpu < sbi.geo.cpus, (sbi.sub t cpu).Has b

/-- The lists, and what callers own. -/
structure AllocState where
  sbi : NovaSbInfo
  outstanding : List Extent

/-- One call of the allocator's interface, for 4K blocks.  `blocknode` is where the slab
puts the range node the call may need. -/
inductive AllocCall where
  | new (atype : AllocType) (num : Nat) (cpu : Option Nat) (smp : Nat)
      (fromTail : AllocDirection) (blocknode : Nat)
  | free (e : Extent) (low len : Nat) (blocknode : Nat)

namespace AllocState

variable (env : BallocEnv) (σ : AllocState)

/-- `nova_new_data_blocks` or `nova_new_log_blocks`; the caller reads the return value. -/
def new (atype : AllocType) (num : Nat) (cpu : Option Nat) (smp : Nat)
    (fromTail : AllocDirection) (blocknode : Nat) : AllocState :=
  let r : NovaSbInfo × NewBlocks := match atype with
    | .data => novaNewDataBlocks env σ.sbi .b4K num cpu smp fromTail (some blocknode)
    | .log => novaNewLogBlocks env σ.sbi .b4K num cpu smp fromTail (some blocknode)
  { sbi := r.1
    outstanding :=
      if 0 < r.2.ret then ⟨atype, r.2.blocknr, r.2.ret.toNat⟩ :: σ.outstanding else σ.outstanding }

/-- `nova_free_data_blocks` or `nova_free_log_blocks` on a part of what a caller owns. -/
def free (e : Extent) (low len : Nat) (blocknode : Nat) : AllocState :=
  let r : NovaSbInfo × Except Errno Unit := match e.atype with
    | .data => novaFreeDataBlocks env σ.sbi .b4K low len (some blocknode)
    | .log => novaFreeLogBlocks env σ.sbi .b4K low len (some blocknode)
  { sbi := r.1
    outstanding := match r.2 with
      | .ok _ => e.rest low len ++ σ.outstanding.erase e
      | .error _ => σ.outstanding }

/-- No list uses the address. -/
def Fresh (addr : Nat) : Prop :=
  ∀ t cpu, cpu < σ.sbi.geo.cpus → addr ∉ (σ.sbi.sub t cpu).nodes.map RangeNode.addr

/-- Some caller owns the block. -/
def Outstanding (t : AllocType) (b : Nat) : Prop := ∃ e ∈ σ.outstanding, e.Covers t b

end AllocState

/-- One call.  Counts are what the C types hold: `unsigned int` to ask, `int` to free. -/
inductive AllocStep (env : BallocEnv) : AllocState → AllocCall → AllocState → Prop
  | new (σ : AllocState) (atype : AllocType) (num : Nat) (cpu : Option Nat) (smp : Nat)
      (fromTail : AllocDirection) (blocknode : Nat)
      (hnum : num < 2 ^ 32) (hcpu : ∀ c, cpu = some c → c < σ.sbi.geo.cpus)
      (hfresh : σ.Fresh blocknode) :
      AllocStep env σ (.new atype num cpu smp fromTail blocknode)
        (σ.new env atype num cpu smp fromTail blocknode)
  | free (σ : AllocState) (e : Extent) (low len : Nat) (blocknode : Nat)
      (hmem : e ∈ σ.outstanding) (hpos : 0 < len) (hlen : len < 2 ^ 31)
      (hlow : e.low ≤ low) (hhigh : low + len ≤ e.low + e.len) (hfresh : σ.Fresh blocknode) :
      AllocStep env σ (.free e low len blocknode) (σ.free env e low len blocknode)

/-- The state after `nova_init_blockmap(sb, 0)`: nobody owns anything. -/
def AllocState.init (env : BallocEnv) (g : SbGeometry) (slab : Nat → AllocType → Nat) :
    AllocState where
  sbi := novaInitBlockmap env g slab
  outstanding := []

/-- The blocks one list starts with. -/
def SbGeometry.Initial (g : SbGeometry) (t : AllocType) (b : Nat) : Prop :=
  ∃ cpu < g.cpus, (novaInitFreeList g cpu t).blockStart ≤ b ∧ b ≤ (novaInitFreeList g cpu t).blockEnd

/-- Every list has at least one block, and fewer than 2^32. -/
def SbGeometry.ListsFit (g : SbGeometry) : Prop :=
  ∀ t, ∀ cpu < g.cpus, (novaInitFreeList g cpu t).blockStart ≤ (novaInitFreeList g cpu t).blockEnd ∧
    (novaInitFreeList g cpu t).blockEnd + 1 - (novaInitFreeList g cpu t).blockStart < 2 ^ 32

/-- Every list is in order, inside the bounds it started with. -/
structure ListsOk (env : BallocEnv) (g : SbGeometry) (sbi : NovaSbInfo) : Prop where
  geo : sbi.geo = g
  wf : ∀ t, ∀ cpu < g.cpus, (sbi.sub t cpu).Wf env
  bounds : ∀ t, ∀ cpu < g.cpus,
    (sbi.sub t cpu).blockStart = (novaInitFreeList g cpu t).blockStart ∧
      (sbi.sub t cpu).blockEnd = (novaInitFreeList g cpu t).blockEnd

/-- **Conservation.**  The lists are in order, and lists and ledger share out the
initial blocks. -/
structure AllocState.Conserved (env : BallocEnv) (g : SbGeometry) (σ : AllocState) : Prop where
  lists : ListsOk env g σ.sbi
  /-- no block is on two lists -/
  once : ∀ t b, ∀ i < g.cpus, ∀ j < g.cpus, (σ.sbi.sub t i).Has b → (σ.sbi.sub t j).Has b → i = j
  /-- nothing is lost and nothing comes from outside -/
  covered : ∀ t b, g.Initial t b ↔ σ.sbi.Free t b ∨ σ.Outstanding t b
  /-- nothing is both free and owned -/
  apart : ∀ t b, ¬ (σ.sbi.Free t b ∧ σ.Outstanding t b)
  /-- no two callers own a block -/
  disjoint : σ.outstanding.Pairwise fun e f => ∀ t b, ¬ (e.Covers t b ∧ f.Covers t b)
  /-- what a caller owns came off one list -/
  oneList : ∀ e ∈ σ.outstanding, ∃ cpu < g.cpus,
    (novaInitFreeList g cpu e.atype).blockStart ≤ e.low ∧
      e.low + e.len ≤ (novaInitFreeList g cpu e.atype).blockEnd + 1

/-- A request that cannot be served with 2^31 blocks or more. -/
def AllocCall.Fits (σ : AllocState) : AllocCall → Prop
  | .new atype num _ _ _ _ => num < 2 ^ 31 ∨
      ∀ cpu < σ.sbi.geo.cpus, ∀ n ∈ (σ.sbi.sub atype cpu).nodes, n.size < 2 ^ 31
  | .free _ _ _ _ => True

variable {env : BallocEnv} {g : SbGeometry}

/-! ### One list among the others -/

section Lists

variable {sbi : NovaSbInfo} {t t' : AllocType} {cpu cpu' : Nat} {s : SubFreeList}

@[simp] theorem NovaSbInfo.setSub_geo : (sbi.setSub t cpu s).geo = sbi.geo := rfl

@[simp] theorem NovaSbInfo.sub_setSub_same : (sbi.setSub t cpu s).sub t cpu = s := by
  cases t <;> simp [NovaSbInfo.setSub, NovaSbInfo.sub, FreeList.sub, FreeList.setSub]

theorem NovaSbInfo.sub_setSub_ne (h : t' ≠ t ∨ cpu' ≠ cpu) :
    (sbi.setSub t cpu s).sub t' cpu' = sbi.sub t' cpu' := by
  unfold NovaSbInfo.setSub NovaSbInfo.sub
  by_cases hcpu : cpu' = cpu
  · have ht : t' ≠ t := h.resolve_right (by simp [hcpu])
    cases t <;> cases t' <;> simp_all [FreeList.sub, FreeList.setSub]
  · simp [hcpu]

/-- The candidate is one of the CPUs. -/
theorem novaGetCandidateFreeList_lt (sbi : NovaSbInfo) (t : AllocType) :
    novaGetCandidateFreeList sbi t < sbi.geo.cpus := by
  have hfold : ∀ (l : List Nat) (acc : Nat × Int), (∀ i ∈ l, i < sbi.geo.cpus) →
      acc.1 < sbi.geo.cpus →
      (l.foldl (fun (acc : Nat × Int) i =>
        let n := (sbi.sub t i).numFreeBlocks
        if n > intToU64 acc.2 then (i, toS32 n) else acc) acc).1 < sbi.geo.cpus := by
    intro l
    induction l with
    | nil => intro acc _ hacc; exact hacc
    | cons i l ih =>
        intro acc hl hacc
        rw [List.foldl_cons]
        refine ih _ (fun j hj => hl j (by simp [hj])) ?_
        dsimp only
        split
        · exact hl i (by simp)
        · exact hacc
  exact hfold _ _ (by simp) sbi.geo.cpus_pos

theorem retryLoop_lt (sbi : NovaSbInfo) (num : Nat) (t : AllocType) (left : Nat) :
    ∀ cpu < sbi.geo.cpus, retryLoop sbi num t left cpu < sbi.geo.cpus := by
  induction left with
  | zero => intro cpu hcpu; exact hcpu
  | succ left ih =>
      intro cpu hcpu
      rw [retryLoop]
      split
      · exact ih _ (novaGetCandidateFreeList_lt sbi t)
      · exact hcpu

end Lists

/-! ### Where the lists start -/

/-- Block numbers stay far below the word size. -/
theorem SbGeometry.perListBlocks_mul_le (g : SbGeometry) (t : AllocType) {i : Nat} (hi : i < g.cpus) :
    g.perListBlocks t * (i + 1) < 2 ^ 52 := by
  have hmul : g.perListBlocks t * (i + 1) ≤ g.perListBlocks t * g.cpus :=
    Nat.mul_le_mul_left _ hi
  refine lt_of_le_of_lt hmul ?_
  cases t with
  | log => exact lt_of_le_of_lt (Nat.div_mul_le_self _ _) g.metaNumBlocks_lt
  | data => exact lt_of_le_of_lt (Nat.div_mul_le_self _ _) g.dataNumBlocks_lt

theorem SbGeometry.dataCsumBlocks_lt (g : SbGeometry) : g.dataCsumBlocks / g.cpus < 2 ^ 52 := by
  have hle := Nat.div_le_self g.dataCsumBlocks g.cpus
  have hlt : g.dataCsumBlocks < 2 ^ 52 := by
    unfold SbGeometry.dataCsumBlocks
    omega
  omega

/-- A list lies inside its CPU's share of the block space, and metadata block 0 is reserved. -/
theorem novaInitFreeList_bounds (hfit : g.ListsFit) {t : AllocType} {i : Nat} (hi : i < g.cpus) :
    g.perListBlocks t * i ≤ (novaInitFreeList g i t).blockStart ∧
      (novaInitFreeList g i t).blockEnd < g.perListBlocks t * (i + 1) ∧
      (t = .log → 0 < (novaInitFreeList g i t).blockStart) := by
  have hfits := hfit t i hi
  have hlt := g.perListBlocks_mul_le t hi
  have hsucc : g.perListBlocks t * (i + 1) = g.perListBlocks t * i + g.perListBlocks t := by ring
  cases t with
  | data =>
      unfold novaInitFreeList at hfits ⊢
      dsimp only at hfits ⊢
      generalize g.perListBlocks .data = per at *
      generalize per * i = base at *
      unfold subU64 at hfits ⊢
      refine ⟨le_refl _, ?_, by simp⟩
      omega
  | log =>
      unfold novaInitFreeList at hfits ⊢
      dsimp only at hfits ⊢
      have hzero : i ≠ 0 → g.perListBlocks .log = 0 ∨ 0 < g.perListBlocks .log * i := by
        intro hne
        rcases Nat.eq_zero_or_pos (g.perListBlocks .log) with h0 | hpos
        · exact Or.inl h0
        · exact Or.inr (Nat.mul_pos hpos (by omega))
      generalize g.perListBlocks .log = per at *
      generalize per * i = base at *
      unfold subU64 headReservedBlocks tailReservedBlocks at hfits ⊢
      have hcsum := g.dataCsumBlocks_lt
      generalize g.dataCsumBlocks / g.cpus = csum at *
      refine ⟨?_, ?_, fun _ => ?_⟩ <;> split_ifs at hfits ⊢ <;> omega

/-! ### One call -/

section Calls

variable {sbi : NovaSbInfo} {t : AllocType} {addr : Nat}

@[simp] theorem NovaSbInfo.setSub_self {cpu : Nat} : sbi.setSub t cpu (sbi.sub t cpu) = sbi := by
  have hlists : (sbi.setSub t cpu (sbi.sub t cpu)).freeLists = sbi.freeLists := by
    funext i
    simp only [NovaSbInfo.setSub]
    split
    · rename_i hi
      subst hi
      cases t <;> rfl
    · rfl
  exact congrArg (NovaSbInfo.mk sbi.geo) hlists

@[simp] theorem NovaSbInfo.setSub_setSub {cpu : Nat} {s s' : SubFreeList} :
    (sbi.setSub t cpu s).setSub t cpu s' = sbi.setSub t cpu s' := by
  have hlists : ((sbi.setSub t cpu s).setSub t cpu s').freeLists = (sbi.setSub t cpu s').freeLists := by
    funext i
    simp only [NovaSbInfo.setSub]
    split
    · cases t <;> rfl
    · rfl
  exact congrArg (NovaSbInfo.mk sbi.geo) hlists

/-- **An allocation fails and changes nothing, or takes a range off one list.** -/
theorem novaNewBlocks_spec (num : Nat) (hwf : ∀ cpu < sbi.geo.cpus, (sbi.sub t cpu).Wf env)
    (hfresh : ∀ cpu < sbi.geo.cpus, addr ∉ (sbi.sub t cpu).nodes.map RangeNode.addr)
    (cpu : Option Nat) (smp : Nat) (dir : AllocDirection)
    (hcpu : ∀ c, cpu = some c → c < sbi.geo.cpus) :
    (∃ nb, novaNewBlocks env sbi num .b4K t cpu smp dir (some addr) = (sbi, nb) ∧ nb.ret ≤ 0) ∨
      ∃ i < sbi.geo.cpus, ∃ (s' : SubFreeList) (n low : Nat),
        novaNewBlocks env sbi num .b4K t cpu smp dir (some addr) =
          (sbi.setSub t i s', { ret := toS32 n, blocknr := low }) ∧
        0 < n ∧ n ≤ num ∧ (∃ c ∈ (sbi.sub t i).nodes, n ≤ c.size) ∧ s'.Wf env ∧
        Removes (sbi.sub t i) s' low n := by
  have hstart : cpu.getD (smp % sbi.geo.cpus) < sbi.geo.cpus := by
    cases cpu with
    | none => exact Nat.mod_lt _ sbi.geo.cpus_pos
    | some c => exact hcpu c rfl
  have hi := retryLoop_lt sbi num t 2 _ hstart
  unfold novaNewBlocks
  simp only [novaGetNumblocks, Nat.mul_one, Nat.div_one]
  by_cases hnum : num = 0
  · rw [if_pos hnum]
    exact Or.inl ⟨_, rfl, by decide⟩
  · rw [if_neg hnum]
    generalize retryLoop sbi num t 2 (cpu.getD (smp % sbi.geo.cpus)) = i at hi
    have hspec : AllocSpec env (sbi.sub t i) num
        (novaAllocBlocksInFreeList env (sbi.sub t i) .b4K t num dir (some addr)) :=
      novaAllocBlocksInFreeList_spec (hwf i hi) (Nat.pos_of_ne_zero hnum) .b4K t (hfresh i hi)
    rcases hrun : novaAllocBlocksInFreeList env (sbi.sub t i) .b4K t num dir (some addr) with
      ⟨s', e | ⟨n, low⟩⟩
    · rw [hrun] at hspec
      have hsame : s' = sbi.sub t i := hspec
      left
      refine ⟨{ ret := -Errno.enospc.code, blocknr := 0 }, ?_, by decide⟩
      simp [hsame]
    · rw [hrun] at hspec
      obtain ⟨hpos, hle, hfits, hwf', hrem⟩ := hspec
      right
      let counted : SubFreeList := { s' with
        allocCount := s'.allocCount + 1
        allocPages := s'.allocPages + n }
      refine ⟨i, hi, counted, n, low, ?_, hpos, hle, hfits,
        ⟨hwf'.ok, hwf'.first, hwf'.last, hwf'.count, hwf'.free, hwf'.span⟩,
        ⟨hrem.blockStart, hrem.blockEnd, hrem.has, hrem.off⟩⟩
      dsimp only
      rw [if_neg (by omega)]

/-- **A free of blocks the list does not have puts them on their own CPU's list.** -/
theorem novaFreeBlocks_spec {low n i : Nat} (hwf : (sbi.sub t i).Wf env) (hn : 0 < n)
    (hi : low / sbi.geo.perListBlocks t = i)
    (hlo : (sbi.sub t i).blockStart ≤ low) (hhi : low + n ≤ (sbi.sub t i).blockEnd + 1)
    (hoff : ∀ b, low ≤ b → b < low + n → ¬ (sbi.sub t i).Has b)
    (hfresh : addr ∉ (sbi.sub t i).nodes.map RangeNode.addr) :
    ∃ s', novaFreeBlocks env sbi low n .b4K t (some addr) = (sbi.setSub t i s', .ok ()) ∧
      s'.Wf env ∧ Removes s' (sbi.sub t i) low n := by
  obtain ⟨s', hrun, hwf', hrem⟩ := novaFreeBlocksIn_spec hwf hn hlo hhi hoff hfresh
  refine ⟨s', ?_, hwf', hrem⟩
  unfold novaFreeBlocks
  rw [if_neg (by omega)]
  simp [novaGetNumblocks, hi, hrun]

end Calls

/-! ### All lists together -/

namespace ListsOk

variable {sbi : NovaSbInfo} {t : AllocType} {i b low n : Nat} {s : SubFreeList}

/-- The number of a free block says whose list it is on. -/
theorem cpu_of_has (h : ListsOk env g sbi) (hfit : g.ListsFit) (hi : i < g.cpus)
    (hb : (sbi.sub t i).Has b) : b / g.perListBlocks t = i := by
  obtain ⟨m, hm, hlow, hhigh⟩ := hb
  obtain ⟨hstart, hend, -⟩ := novaInitFreeList_bounds hfit (t := t) hi
  obtain ⟨hbs, hbe⟩ := h.bounds t i hi
  have hin := (h.wf t i hi).ok.inside m hm
  rw [hbs, hbe] at hin
  refine Nat.div_eq_of_lt_le ?_ ?_
  · rw [Nat.mul_comm]
    omega
  · rw [Nat.mul_comm]
    omega

theorem once (h : ListsOk env g sbi) (hfit : g.ListsFit) :
    ∀ t b, ∀ i < g.cpus, ∀ j < g.cpus, (sbi.sub t i).Has b → (sbi.sub t j).Has b → i = j := by
  intro t b i hi j hj hbi hbj
  rw [← h.cpu_of_has hfit hi hbi, ← h.cpu_of_has hfit hj hbj]

/-- Replacing one list by another that is in order. -/
theorem setSub (h : ListsOk env g sbi) (hs : s.Wf env)
    (hstart : s.blockStart = (sbi.sub t i).blockStart) (hend : s.blockEnd = (sbi.sub t i).blockEnd) :
    ListsOk env g (sbi.setSub t i s) := by
  refine ⟨h.geo, ?_, ?_⟩
  · intro t' j hj
    by_cases hsame : t' = t ∧ j = i
    · obtain ⟨rfl, rfl⟩ := hsame
      rw [NovaSbInfo.sub_setSub_same]
      exact hs
    · rw [NovaSbInfo.sub_setSub_ne (by tauto)]
      exact h.wf t' j hj
  · intro t' j hj
    by_cases hsame : t' = t ∧ j = i
    · obtain ⟨rfl, rfl⟩ := hsame
      rw [NovaSbInfo.sub_setSub_same, hstart, hend]
      exact h.bounds t' j hj
    · rw [NovaSbInfo.sub_setSub_ne (by tauto)]
      exact h.bounds t' j hj

/-- A range off one list is a range off the free blocks. -/
theorem free_setSub (h : ListsOk env g sbi) (hfit : g.ListsFit) (hi : i < g.cpus)
    (hrem : Removes (sbi.sub t i) s low n) :
    (∀ t' b, sbi.Free t' b ↔ (sbi.setSub t i s).Free t' b ∨ (t' = t ∧ low ≤ b ∧ b < low + n)) ∧
      ∀ b, low ≤ b → b < low + n → ¬ (sbi.setSub t i s).Free t b := by
  have hgeo := h.geo
  refine ⟨?_, ?_⟩
  · intro t' b
    constructor
    · rintro ⟨j, hj, hb⟩
      by_cases hsame : t' = t ∧ j = i
      · obtain ⟨rfl, rfl⟩ := hsame
        rcases (hrem.has b).mp hb with hb | hb
        · exact Or.inl ⟨j, hj, by rwa [NovaSbInfo.sub_setSub_same]⟩
        · exact Or.inr ⟨rfl, hb⟩
      · exact Or.inl ⟨j, hj, by rwa [NovaSbInfo.sub_setSub_ne (by tauto)]⟩
    · rintro (⟨j, hj, hb⟩ | ⟨rfl, hb⟩)
      · by_cases hsame : t' = t ∧ j = i
        · obtain ⟨rfl, rfl⟩ := hsame
          rw [NovaSbInfo.sub_setSub_same] at hb
          exact ⟨j, hj, (hrem.has b).mpr (Or.inl hb)⟩
        · rw [NovaSbInfo.sub_setSub_ne (by tauto)] at hb
          exact ⟨j, hj, hb⟩
      · exact ⟨i, hgeo ▸ hi, (hrem.has b).mpr (Or.inr hb)⟩
  · rintro b hlow hhigh ⟨j, hj, hb⟩
    by_cases hsame : j = i
    · subst hsame
      rw [NovaSbInfo.sub_setSub_same] at hb
      exact hrem.off b hlow hhigh hb
    · rw [NovaSbInfo.sub_setSub_ne (Or.inr hsame)] at hb
      have hbi : (sbi.sub t i).Has b := (hrem.has b).mpr (Or.inr ⟨hlow, hhigh⟩)
      exact hsame (h.once hfit t b j (hgeo ▸ hj) i hi hb hbi)

/-- **A free of blocks of one list that are not free adds them to the free blocks.** -/
theorem freeRange (h : ListsOk env g sbi) (hfit : g.ListsFit) (hi : i < g.cpus) (hn : 0 < n)
    (hstart : (novaInitFreeList g i t).blockStart ≤ low)
    (hend : low + n ≤ (novaInitFreeList g i t).blockEnd + 1)
    (hoff : ∀ b, low ≤ b → b < low + n → ¬ sbi.Free t b) {addr : Nat}
    (hfresh : addr ∉ (sbi.sub t i).nodes.map RangeNode.addr) :
    ∃ s', novaFreeBlocks env sbi low n .b4K t (some addr) = (sbi.setSub t i s', .ok ()) ∧
      ListsOk env g (sbi.setSub t i s') ∧
      ∀ t' b, (sbi.setSub t i s').Free t' b ↔ sbi.Free t' b ∨ (t' = t ∧ low ≤ b ∧ b < low + n) := by
  obtain ⟨hper, hperEnd, -⟩ := novaInitFreeList_bounds hfit (t := t) hi
  obtain ⟨hbs, hbe⟩ := h.bounds t i hi
  have hdiv : low / sbi.geo.perListBlocks t = i := by
    rw [h.geo]
    refine Nat.div_eq_of_lt_le ?_ ?_ <;> rw [Nat.mul_comm] <;> omega
  obtain ⟨s', hrun, hwf', hrem⟩ := novaFreeBlocks_spec (h.wf t i hi) hn hdiv (by omega) (by omega)
    (fun b hb1 hb2 hb => hoff b hb1 hb2 ⟨i, h.geo ▸ hi, hb⟩) hfresh
  have hlists : ListsOk env g (sbi.setSub t i s') :=
    h.setSub hwf' hrem.blockStart.symm hrem.blockEnd.symm
  refine ⟨s', hrun, hlists, ?_⟩
  -- the step backwards takes the range off the list again
  have hback := (hlists.free_setSub (t := t) (s := sbi.sub t i) (n := n) hfit hi
    (by rw [NovaSbInfo.sub_setSub_same]; exact hrem)).1
  rwa [NovaSbInfo.setSub_setSub, NovaSbInfo.setSub_self] at hback

end ListsOk

/-! ### Steps -/

section Steps

variable {σ σ' : AllocState}

theorem Extent.covers_rest {e : Extent} {low len b : Nat} {t : AllocType} (hpos : 0 < len)
    (hlow : e.low ≤ low) (hhigh : low + len ≤ e.low + e.len) :
    (e.Covers t b ↔ (∃ f ∈ e.rest low len, f.Covers t b) ∨ (t = e.atype ∧ low ≤ b ∧ b < low + len)) ∧
      ∀ f ∈ e.rest low len, f.Covers t b → ¬ (low ≤ b ∧ b < low + len) := by
  constructor
  · simp only [Extent.rest, Extent.Covers, List.mem_cons, List.not_mem_nil, or_false,
      exists_eq_or_imp, exists_eq_left]
    constructor
    · rintro ⟨rfl, h1, h2⟩
      simp only [true_and]
      omega
    · rintro ((⟨rfl, h1, h2⟩ | ⟨rfl, h1, h2⟩) | ⟨rfl, h1, h2⟩) <;> simp only [true_and] <;> omega
  · intro f hf hcov
    simp only [Extent.rest, List.mem_cons, List.not_mem_nil, or_false] at hf
    unfold Extent.Covers at hcov
    rcases hf with rfl | rfl <;> dsimp only at hcov <;> omega

/-- **An allocation conserves the blocks, unless it is served with too many.** -/
theorem AllocState.Conserved.new (hfit : g.ListsFit) (h : σ.Conserved env g) {t : AllocType} {num : Nat}
    {cpu : Option Nat} {smp : Nat} {dir : AllocDirection} {addr : Nat}
    (hcpu : ∀ c, cpu = some c → c < σ.sbi.geo.cpus) (hfresh : σ.Fresh addr)
    (hnarrow : num < 2 ^ 31 ∨ ∀ i < σ.sbi.geo.cpus, ∀ m ∈ (σ.sbi.sub t i).nodes, m.size < 2 ^ 31) :
    (σ.new env t num cpu smp dir addr).Conserved env g := by
  have hgeo := h.lists.geo
  have hshape : σ.new env t num cpu smp dir addr =
      { sbi := (novaNewBlocks env σ.sbi num .b4K t cpu smp dir (some addr)).1
        outstanding :=
          if 0 < (novaNewBlocks env σ.sbi num .b4K t cpu smp dir (some addr)).2.ret then
            ⟨t, (novaNewBlocks env σ.sbi num .b4K t cpu smp dir (some addr)).2.blocknr,
              (novaNewBlocks env σ.sbi num .b4K t cpu smp dir (some addr)).2.ret.toNat⟩
                :: σ.outstanding
          else σ.outstanding } := by
    cases t <;> rfl
  rw [hshape]
  have hwf : ∀ i < σ.sbi.geo.cpus, (σ.sbi.sub t i).Wf env := fun i hi => h.lists.wf t i (hgeo ▸ hi)
  rcases novaNewBlocks_spec num hwf (hfresh t) cpu smp dir hcpu with
    ⟨nb, hrun, hret⟩ | ⟨i, hi, s', n, low, hrun, hpos, hle, ⟨m, hm, hsize⟩, hwf', hrem⟩
  · rw [hrun]
    dsimp only
    rw [if_neg (by omega)]
    exact h
  · have hi' : i < g.cpus := hgeo ▸ hi
    have hn : n < 2 ^ 31 := by
      rcases hnarrow with hnum | hnodes
      · omega
      · exact lt_of_le_of_lt hsize (hnodes i hi m hm)
    rw [hrun]
    dsimp only
    rw [toS32_of_lt hn, if_pos (by omega), Int.toNat_natCast]
    have hlists : ListsOk env g (σ.sbi.setSub t i s') :=
      h.lists.setSub hwf' hrem.blockStart hrem.blockEnd
    obtain ⟨hfree, hoff⟩ := h.lists.free_setSub hfit hi' hrem
    refine ⟨hlists, hlists.once hfit, ?_, ?_, ?_, ?_⟩
    · intro t' b
      rw [h.covered t' b, hfree t' b]
      simp only [AllocState.Outstanding, List.exists_mem_cons_iff, Extent.Covers]
      constructor
      · rintro ((hb | ⟨rfl, hb⟩) | hb)
        · exact Or.inl hb
        · exact Or.inr (Or.inl ⟨rfl, hb⟩)
        · exact Or.inr (Or.inr hb)
      · rintro (hb | ⟨rfl, hb⟩ | hb)
        · exact Or.inl (Or.inl hb)
        · exact Or.inl (Or.inr ⟨rfl, hb⟩)
        · exact Or.inr hb
    · rintro t' b ⟨hb, e, he, hcov⟩
      rcases List.mem_cons.mp he with rfl | he
      · obtain ⟨rfl, hlow, hhigh⟩ := hcov
        exact hoff b hlow hhigh hb
      · exact h.apart t' b ⟨(hfree t' b).mpr (Or.inl hb), e, he, hcov⟩
    · refine List.pairwise_cons.mpr ⟨?_, h.disjoint⟩
      rintro e he t' b ⟨⟨rfl, hb⟩, hcov⟩
      exact h.apart t b ⟨(hfree t b).mpr (Or.inr ⟨rfl, hb⟩), e, he, hcov⟩
    · intro e he
      rcases List.mem_cons.mp he with rfl | he
      · obtain ⟨hbs, hbe⟩ := h.lists.bounds t i hi'
        -- both ends of the range were on the list
        have hends : ∀ b, low ≤ b → b < low + n →
            (σ.sbi.sub t i).blockStart ≤ b ∧ b ≤ (σ.sbi.sub t i).blockEnd := by
          intro b hlow hhigh
          obtain ⟨m, hm, hmlow, hmhigh⟩ := (hrem.has b).mpr (Or.inr ⟨hlow, hhigh⟩)
          have hin := (hwf i hi).ok.inside m hm
          omega
        have hfirst := hends low (le_refl _) (by omega)
        have hlast := hends (low + n - 1) (by omega) (by omega)
        refine ⟨i, hi', ?_, ?_⟩
        · dsimp only
          omega
        · dsimp only
          omega
      · exact h.oneList e he

/-- **A free conserves the blocks, and it succeeds.** -/
theorem AllocState.Conserved.free (hfit : g.ListsFit) (h : σ.Conserved env g) {e : Extent}
    {low len addr : Nat} (hmem : e ∈ σ.outstanding) (hpos : 0 < len) (hlow : e.low ≤ low)
    (hhigh : low + len ≤ e.low + e.len) (hfresh : σ.Fresh addr) :
    (σ.free env e low len addr).Conserved env g := by
  have hgeo := h.lists.geo
  obtain ⟨i, hi, hstart, hend⟩ := h.oneList e hmem
  obtain ⟨hper, hperEnd, hzero⟩ := novaInitFreeList_bounds hfit (t := e.atype) hi
  have hcover : ∀ b, low ≤ b → b < low + len → e.Covers e.atype b := by
    intro b hb1 hb2
    exact ⟨rfl, by omega, by omega⟩
  have houtside : ∀ b, low ≤ b → b < low + len → ¬ σ.sbi.Free e.atype b :=
    fun b hb1 hb2 hb => h.apart e.atype b ⟨hb, e, hmem, hcover b hb1 hb2⟩
  obtain ⟨s', hrun, hlists, hfree⟩ := h.lists.freeRange hfit hi hpos (by omega) (by omega) houtside
    (hfresh e.atype i (hgeo ▸ hi))
  have hshape : σ.free env e low len addr =
      { sbi := σ.sbi.setSub e.atype i s', outstanding := e.rest low len ++ σ.outstanding.erase e } := by
    unfold AllocState.free
    cases ht : e.atype with
    | data =>
        rw [ht] at hrun
        simp only [novaFreeDataBlocks, hrun]
    | log =>
        rw [ht] at hrun hzero
        have : low ≠ 0 := by
          have := hzero rfl
          rw [ht] at hstart
          omega
        simp only [novaFreeLogBlocks, this, if_false, hrun]
  rw [hshape]
  have hperm := List.perm_cons_erase hmem
  have hsplit : ∀ t b, σ.Outstanding t b ↔
      e.Covers t b ∨ ∃ f ∈ σ.outstanding.erase e, f.Covers t b := by
    intro t b
    unfold AllocState.Outstanding
    simp only [hperm.mem_iff, List.exists_mem_cons_iff]
  have hdisj : (e :: σ.outstanding.erase e).Pairwise fun e f => ∀ t b, ¬ (e.Covers t b ∧ f.Covers t b) :=
    (hperm.pairwise_iff fun {x y} hxy t b hyx => hxy t b ⟨hyx.2, hyx.1⟩).mp h.disjoint
  rw [List.pairwise_cons] at hdisj
  obtain ⟨hcross, herase⟩ := hdisj
  have hrest : ∀ t b, _ := fun t b => Extent.covers_rest (t := t) (b := b) hpos hlow hhigh
  have hrestSub : ∀ f ∈ e.rest low len, ∀ t b, f.Covers t b → e.Covers t b :=
    fun f hf t b hcov => (hrest t b).1.mpr (Or.inl ⟨f, hf, hcov⟩)
  refine ⟨hlists, hlists.once hfit, ?_, ?_, ?_, ?_⟩
  · intro t b
    rw [h.covered t b, hfree t b, hsplit t b, (hrest t b).1]
    simp only [AllocState.Outstanding, List.mem_append, or_and_right, exists_or]
    grind
  · rintro t b ⟨hb, f, hf, hcov⟩
    rcases (hfree t b).mp hb with hb | ⟨rfl, hb1, hb2⟩
    · refine h.apart t b ⟨hb, (hsplit t b).mpr ?_⟩
      rcases List.mem_append.mp hf with hf | hf
      · exact Or.inl (hrestSub f hf t b hcov)
      · exact Or.inr ⟨f, hf, hcov⟩
    · rcases List.mem_append.mp hf with hf | hf
      · exact (hrest e.atype b).2 f hf hcov ⟨hb1, hb2⟩
      · exact hcross f hf e.atype b ⟨hcover b hb1 hb2, hcov⟩
  · refine List.pairwise_append.mpr ⟨?_, herase, ?_⟩
    · simp only [Extent.rest, Extent.Covers, List.pairwise_cons, List.mem_singleton, forall_eq,
        List.not_mem_nil, false_implies, implies_true, List.Pairwise.nil, and_true]
      rintro t b ⟨⟨-, -, h1⟩, -, h2, -⟩
      omega
    · rintro f hf f' hf' t b ⟨hcov, hcov'⟩
      exact hcross f' hf' t b ⟨hrestSub f hf t b hcov, hcov'⟩
  · intro f hf
    rcases List.mem_append.mp hf with hf | hf
    · simp only [Extent.rest, List.mem_cons, List.not_mem_nil, or_false] at hf
      rcases hf with rfl | rfl
      · exact ⟨i, hi, by dsimp only; omega, by dsimp only; omega⟩
      · exact ⟨i, hi, by dsimp only; omega, by dsimp only; omega⟩
    · exact h.oneList f (List.mem_of_mem_erase hf)

theorem AllocState.Conserved.step (hfit : g.ListsFit) {a : AllocCall} (h : σ.Conserved env g)
    (hstep : Guarded AllocCall.Fits (AllocStep env) σ a σ') : σ'.Conserved env g := by
  obtain ⟨hguard, hstep⟩ := hstep
  cases hstep with
  | new t num cpu smp dir addr hnum hcpu hfresh => exact AllocState.Conserved.new hfit h hcpu hfresh hguard
  | free e low len addr hmem hpos hlen hlow hhigh hfresh =>
      exact AllocState.Conserved.free hfit h hmem hpos hlow hhigh hfresh

/-- One list as `nova_init_blockmap` leaves it: a single range. -/
theorem novaFillFreeList_wf (hfit : g.ListsFit) {t : AllocType} {i : Nat} (hi : i < g.cpus)
    (addr : Nat) :
    (novaFillFreeList env (novaInitFreeList g i t) addr).Wf env ∧
      (novaFillFreeList env (novaInitFreeList g i t) addr).nodes =
        [novaFreshNode env addr (novaInitFreeList g i t).blockStart
          (novaInitFreeList g i t).blockEnd] ∧
      (novaFillFreeList env (novaInitFreeList g i t) addr).blockStart =
        (novaInitFreeList g i t).blockStart ∧
      (novaFillFreeList env (novaInitFreeList g i t) addr).blockEnd =
        (novaInitFreeList g i t).blockEnd := by
  obtain ⟨hne, hspan⟩ := hfit t i hi
  have hend := (novaInitFreeList_bounds hfit (t := t) hi).2.1
  have hlt := g.perListBlocks_mul_le t hi
  have hempty : (novaInitFreeList g i t).blockFreeTree = .nil := by
    cases t <;> rfl
  generalize novaInitFreeList g i t = s at *
  let node := novaFreshNode env addr s.blockStart s.blockEnd
  have hnlow : node.rangeLow = s.blockStart := novaUpdateRangeNodeChecksum_rangeLow _
  have hnhigh : node.rangeHigh = s.blockEnd := novaUpdateRangeNodeChecksum_rangeHigh _
  have hnaddr : node.addr = addr := novaUpdateRangeNodeChecksum_addr _
  have hncsum : novaRangeNodeChecksumOk env node = true := novaRangeNodeChecksumOk_update _
  have hnil : NodesOk env s.blockStart s.blockEnd (RbTree.nil : RbTree RangeNode).toList :=
    ⟨by simp, by simp, by simp, by simp, by simp⟩
  obtain ⟨tree, htree, hlist⟩ := novaInsertBlocktree_ok (A := []) (B := []) node hnil rfl
    (by simp) (by simp)
  have hlist' : tree.toList = [node] := hlist
  have hfill : novaFillFreeList env s addr = { s with
      numFreeBlocks := (subU64 s.blockEnd s.blockStart + 1) % 2 ^ 64
      blockFreeTree := tree
      firstNode := some addr
      lastNode := some addr
      numBlocknode := 1 } := by
    unfold novaFillFreeList
    rw [hempty]
    dsimp only
    rw [show novaInsertBlocktree env .nil (novaFreshNode env addr s.blockStart s.blockEnd) = _
      from htree]
  rw [hfill]
  refine ⟨⟨?_, ?_, ?_, ?_, ?_, hspan⟩, hlist', rfl, rfl⟩
  · show NodesOk env s.blockStart s.blockEnd tree.toList
    rw [hlist']
    exact NodesOk.singleton (by omega) (by omega) (by omega) hncsum
  · show some addr = tree.toList.head?.map RangeNode.addr
    simp [hlist', hnaddr]
  · show some addr = tree.toList.getLast?.map RangeNode.addr
    simp [hlist', hnaddr]
  · show 1 = tree.toList.length
    simp [hlist']
  · show (subU64 s.blockEnd s.blockStart + 1) % 2 ^ 64 = (tree.toList.map RangeNode.size).sum
    rw [subU64_of_le hne (by omega), hlist']
    simp only [List.map_cons, List.map_nil, List.sum_cons, List.sum_nil, RangeNode.size, hnlow, hnhigh]
    omega

theorem AllocState.init_conserved (hfit : g.ListsFit) (slab : Nat → AllocType → Nat) :
    (AllocState.init env g slab).Conserved env g := by
  have hsub : ∀ t i, (AllocState.init env g slab).sbi.sub t i =
      novaFillFreeList env (novaInitFreeList g i t) (slab i t) := by
    intro t i
    cases t <;> rfl
  have hlists : ListsOk env g (AllocState.init env g slab).sbi := by
    refine ⟨rfl, ?_, ?_⟩
    · intro t i hi
      rw [hsub]
      exact (novaFillFreeList_wf hfit hi _).1
    · intro t i hi
      rw [hsub]
      exact (novaFillFreeList_wf hfit hi _).2.2
  refine ⟨hlists, hlists.once hfit, ?_, ?_, List.Pairwise.nil, ?_⟩
  · intro t b
    have hout : ¬ (AllocState.init env g slab).Outstanding t b := by
      rintro ⟨e, he, -⟩
      exact absurd he (List.not_mem_nil)
    simp only [hout, or_false]
    unfold SbGeometry.Initial NovaSbInfo.Free
    refine exists_congr fun i => and_congr_right fun hi => ?_
    rw [hsub]
    unfold SubFreeList.Has
    rw [(novaFillFreeList_wf hfit hi _).2.1]
    simp [RangeNode.Holds, novaFreshNode]
  · rintro t b ⟨-, e, he, -⟩
    exact absurd he (List.not_mem_nil)
  · intro e he
    exact absurd he (List.not_mem_nil)

end Steps

/--
**Conservation over every run.**  Started from lists of at least one block each, any
sequence of allocations and frees keeps every list in order and every block accounted
for, as long as no request is served with more blocks than an `int` counts.
-/
theorem novaNewFreeBlocks_conserved (hfit : g.ListsFit) (slab : Nat → AllocType → Nat)
    {σ : AllocState}
    (hrun : Runs (Guarded AllocCall.Fits (AllocStep env)) (AllocState.init env g slab) σ) :
    σ.Conserved env g :=
  hrun.invariant (fun _ _ _ h hstep => h.step hfit hstep) (AllocState.init_conserved hfit slab)

/-! ### Two runs -/

/-- No rebalancing, no checksums. -/
def plainEnv : BallocEnv where
  rb := RbOps.plain RangeNode
  dramStructCsum := false

/-- A small device: one CPU, 1024 blocks of each kind. -/
def smallGeometry : SbGeometry where
  cpus := 1
  cpus_pos := by decide
  initsize := 2 ^ 23
  metaNumBlocks := 1024
  dataNumBlocks := 1024
  initsize_lt := by decide
  metaNumBlocks_lt := by decide
  dataNumBlocks_lt := by decide

theorem smallGeometry_listsFit : smallGeometry.ListsFit := by
  intro t i hi
  have hi0 : i = 0 := by
    have : i < 1 := hi
    omega
  subst hi0
  cases t <;> decide

/-- Where the slab puts the first nodes. -/
def smallSlab (_cpu : Nat) : AllocType → Nat
  | .log => 1
  | .data => 2

theorem smallGeometry_fresh : (AllocState.init plainEnv smallGeometry smallSlab).Fresh 3 := by
  intro t i hi
  have hi0 : i = 0 := by
    have : i < 1 := hi
    omega
  subst hi0
  cases t <;> decide

/-- A superpage allocated on a small device. -/
theorem novaNewFreeBlocks_conserved_superpage :
    ((AllocState.init plainEnv smallGeometry smallSlab).new plainEnv .data 512 none 0
      .allocFromHead 3).Conserved plainEnv smallGeometry :=
  novaNewFreeBlocks_conserved smallGeometry_listsFit smallSlab
    (Runs.single (a := .new .data 512 none 0 .allocFromHead 3)
      ⟨Or.inl (by decide), AllocStep.new _ .data 512 none 0 .allocFromHead 3 (by decide) (by simp)
        smallGeometry_fresh⟩)

/-- One CPU with 2^31 + 1 data blocks, 8 TiB. -/
def largeGeometry : SbGeometry where
  cpus := 1
  cpus_pos := by decide
  initsize := 2 ^ 44
  metaNumBlocks := 2 ^ 26
  dataNumBlocks := 2 ^ 31 + 1
  initsize_lt := by decide
  metaNumBlocks_lt := by decide
  dataNumBlocks_lt := by decide

/-- **A request for all 2^31 + 1 blocks of a list loses them.**  They are off the list,
and the caller was told a negative number. -/
theorem novaNewBlocks_loses_blocks :
    largeGeometry.ListsFit ∧
      ∃ σ, Runs (AllocStep plainEnv) (AllocState.init plainEnv largeGeometry smallSlab) σ ∧
        ¬ σ.Conserved plainEnv largeGeometry := by
  have hone : ∀ i, i < largeGeometry.cpus → i = 0 := by
    intro i hi
    have : i < 1 := hi
    omega
  refine ⟨?_, (AllocState.init plainEnv largeGeometry smallSlab).new plainEnv .data (2 ^ 31 + 1)
    none 0 .allocFromHead 3, Runs.single (AllocStep.new _ .data (2 ^ 31 + 1) none 0 .allocFromHead 3
      (by decide) (by simp) ?_), ?_⟩
  · intro t i hi
    rw [hone i hi]
    cases t <;> decide
  · intro t i hi
    rw [hone i hi]
    cases t <;> decide
  · intro hcons
    have hinit : largeGeometry.Initial .data 0 := ⟨0, by decide, by decide, by decide⟩
    rcases (hcons.covered .data 0).mp hinit with ⟨i, hi, n, hn, -⟩ | ⟨e, he, -⟩
    · rw [hone i hi] at hn
      have hempty : (((AllocState.init plainEnv largeGeometry smallSlab).new plainEnv .data
          (2 ^ 31 + 1) none 0 .allocFromHead 3).sbi.sub .data 0).nodes = [] := by decide
      rw [hempty] at hn
      exact absurd hn (List.not_mem_nil)
    · have hempty : ((AllocState.init plainEnv largeGeometry smallSlab).new plainEnv .data
          (2 ^ 31 + 1) none 0 .allocFromHead 3).outstanding = [] := by decide
      rw [hempty] at he
      exact absurd he (List.not_mem_nil)

end Parfs
