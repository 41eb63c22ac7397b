/-
When a chain of log pages is freed whole.

A run of consecutive blocks goes to one call, and the call picks its list by the first of them.
That is right because a metadata list never starts at the first block of its CPU's share: the
blocks in front of it hold data checksums, so the pages of two CPUs are never neighbours.  What
is left is the width of the counters.
-/
import Parfs.LogFree
import Parfs.Proofs.LogPages
import Parfs.Proofs.CsumSlots
import Parfs.Proofs.BallocFail
import Mathlib.Algebra.Order.BigOperators.Group.List

namespace Parfs

open Lib ByteMem

variable {env : BallocEnv} {g : SbGeometry} {sbi : NovaSbInfo} {slab : RangeSlab} {m : ByteMem}
  {s n k b low : Nat} {pages : List Nat}

/-! ### The lists are never neighbours -/

/-- `initsize` counts the metadata area. -/
def SbGeometry.MetaInside (g : SbGeometry) : Prop := g.metaNumBlocks * 4096 ≤ g.initsize

/-- `nova_config_nvmm` adds up `initsize` from the metadata area and the data area. -/
theorem metaInside_of_config {l : NvmLayout} {metaSeparate : Bool} {devs : List PmemDevice}
    (hdevs : DevicesOk devs) (htotal : totalBytes devs < 2 ^ 63)
    (haccept : novaConfigNvmm metaSeparate devs = .ok l) (hgeo : GeometryOf g l) : g.MetaInside := by
  unfold SbGeometry.MetaInside
  rw [hgeo.initsize, hgeo.metaBlocks]
  unfold totalBytes at htotal
  match devs with
  | [] => cases haccept
  | [d] =>
      obtain rfl := checked_inj haccept
      have hpos := hdevs.nonempty d (by simp)
      have halign := (hdevs.aligned d (by simp)).2
      have hend := (hdevs.mapped d (by simp)).2
      have hround := roundupPowOfTwo_le (n := d.sizeInBytes / 3) (by omega)
      show roundupPowOfTwo (d.sizeInBytes / 3) / 4096 * 4096 ≤ (roundupPowOfTwo (d.sizeInBytes / 3) +
        subU64 d.sizeInBytes (roundupPowOfTwo (d.sizeInBytes / 3))) % 2 ^ 64
      rw [subU64_of_le (by omega) (by simp at htotal; omega)]
      simp at htotal
      omega
  | [d₀, d₁] =>
      obtain rfl := checked_inj haccept
      simp at htotal
      cases metaSeparate with
      | true =>
          show d₀.sizeInBytes / 4096 * 4096 ≤ (d₀.sizeInBytes + d₁.sizeInBytes) % 2 ^ 64
          omega
      | false =>
          show d₀.sizeInBytes / 2 / 4096 * 4096 ≤ (d₀.sizeInBytes / 2 + d₀.sizeInBytes) % 2 ^ 64
          omega
  | d₀ :: d₁ :: d₂ :: ds =>
      obtain rfl := checked_inj haccept
      have hpos : ∀ d ∈ d₁ :: d₂ :: ds, 0 < d.virtAddr :=
        fun d hd => (hdevs.mapped d (List.mem_cons_of_mem _ hd)).1
      have hsum := (lowestLoop_spec (d₁ :: d₂ :: ds) hpos 0 0 0 1 (by decide)).1
      show d₀.sizeInBytes / 4096 * 4096 ≤ (d₀.sizeInBytes + (lowestLoop 0 0 0 1 (d₁ :: d₂ :: ds)).1) % 2 ^ 64
      rw [hsum]
      unfold totalBytes
      simp only [List.map_cons, List.sum_cons] at htotal ⊢
      omega

/-- **Behind the first CPU a share begins with checksum blocks.** -/
theorem SbGeometry.MetaInside.notInitial (hinside : g.MetaInside) (hfit : g.ListsFit) {j : Nat} (hpos : 0 < j)
    (hj : j < g.cpus) : ¬g.Initial .log (g.perListBlocks .log * j) := by
  rintro ⟨i, hi, hstart, hend⟩
  obtain ⟨hlo, hhi, -⟩ := novaInitFreeList_bounds hfit (t := .log) hi
  have h1 : g.perListBlocks .log * i ≤ g.perListBlocks .log * j := by omega
  have h2 : g.perListBlocks .log * j < g.perListBlocks .log * (i + 1) := by omega
  have hper : 0 < g.perListBlocks .log := Nat.pos_of_mul_pos_right (Nat.zero_lt_of_lt h2)
  have hij : i = j := Nat.le_antisymm (Nat.le_of_mul_le_mul_left h1 hper)
    (Nat.lt_succ_iff.mp (Nat.lt_of_mul_lt_mul_left h2))
  subst hij
  -- the first CPU's list has a block behind the reserved ones, so there is a checksum block
  have hzero : 0 < g.cpus := g.cpus_pos
  have hfirst := (hfit .log 0 hzero).1
  have hcsum : 0 < g.dataCsumBlocks := by
    have hlarge : 65 ≤ g.perListBlocks .log := by
      unfold novaInitFreeList at hfirst
      dsimp only at hfirst
      have hlt := g.perListBlocks_mul_le .log hzero
      generalize g.perListBlocks .log = per at *
      generalize g.dataCsumBlocks / g.cpus = csum at *
      unfold subU64 headReservedBlocks tailReservedBlocks at hfirst
      split_ifs at hfirst <;> omega
    have hmul : 65 * 2 ≤ g.perListBlocks .log * g.cpus := Nat.mul_le_mul hlarge (by omega)
    have hall : g.perListBlocks .log * g.cpus ≤ g.metaNumBlocks := Nat.div_mul_le_self _ _
    have hsize := g.initsize_lt
    unfold SbGeometry.MetaInside at hinside
    unfold SbGeometry.dataCsumBlocks
    omega
  have hne : i ≠ 0 := by omega
  have hsome : 0 < g.dataCsumBlocks / g.cpus ∨ g.dataCsumBlocks % g.cpus ≠ 0 := by
    by_contra hnone
    have hdiv := Nat.div_add_mod g.dataCsumBlocks g.cpus
    rw [Nat.eq_zero_of_not_pos fun h => hnone (Or.inl h), not_not.mp fun h => hnone (Or.inr h)] at hdiv
    omega
  unfold novaInitFreeList at hstart
  simp only [hne, if_false] at hstart
  generalize g.dataCsumBlocks / g.cpus = csum at *
  split_ifs at hstart <;> omega

/-- **Consecutive blocks of the metadata lists are on one list.** -/
theorem SbGeometry.MetaInside.oneList (hinside : g.MetaInside) (hfit : g.ListsFit) (hn : 0 < n)
    (hrun : ∀ b, s ≤ b → b < s + n → g.Initial .log b) :
    ∃ i < g.cpus, (novaInitFreeList g i .log).blockStart ≤ s ∧ s + n ≤ (novaInitFreeList g i .log).blockEnd + 1 := by
  induction n with
  | zero => omega
  | succ n ih =>
      obtain ⟨j, hj, hjlo, hjhi⟩ := hrun (s + n) (by omega) (by omega)
      rcases Nat.eq_zero_or_pos n with rfl | hpos
      · exact ⟨j, hj, hjlo, by omega⟩
      obtain ⟨i, hi, hlo, hhi⟩ := ih hpos fun b h1 h2 => hrun b h1 (by omega)
      obtain ⟨hi1, hi2, -⟩ := novaInitFreeList_bounds hfit (t := .log) hi
      obtain ⟨hj1, hj2, -⟩ := novaInitFreeList_bounds hfit (t := .log) hj
      refine ⟨i, hi, hlo, ?_⟩
      by_contra hover
      -- the last block would be the first of the next share
      have hne : j ≠ i := by
        rintro rfl
        omega
      have hlt : i < j := by
        by_contra hle
        have hmul : g.perListBlocks .log * (j + 1) ≤ g.perListBlocks .log * i :=
          Nat.mul_le_mul_left _ (by omega)
        omega
      have hnext : g.perListBlocks .log * (i + 1) ≤ g.perListBlocks .log * j := Nat.mul_le_mul_left _ hlt
      have hfirst : s + n = g.perListBlocks .log * (i + 1) := by omega
      refine hinside.notInitial hfit (Nat.succ_pos i) (by omega) ?_
      rw [← hfirst]
      exact hrun (s + n) (by omega) (by omega)

theorem SbGeometry.Initial.lt (hfit : g.ListsFit) {t : AllocType} (h : g.Initial t b) : b < 2 ^ 52 := by
  obtain ⟨i, hi, -, hend⟩ := h
  have hbound := (novaInitFreeList_bounds hfit (t := t) hi).2.1
  have hlt := g.perListBlocks_mul_le t hi
  omega

/-! ### One run -/

/-- The slab always has room, at an address no list uses. -/
def RangeSlab.Succeeds (slab : RangeSlab) : Prop :=
  ∀ sbi : NovaSbInfo, ∃ addr, slab sbi = some addr ∧
    ∀ t, ∀ cpu < sbi.geo.cpus, addr ∉ (sbi.sub t cpu).nodes.map RangeNode.addr

/-- The pages collected so far: `n` blocks of the metadata lists that are not free. -/
structure ChainFree.Collected (env : BallocEnv) (g : SbGeometry) (f : ChainFree) (n : Nat) : Prop where
  lists : ListsOk env g f.sbi
  start : f.startBlocknr ≠ 0
  count : f.numFree = n
  pos : 0 < n
  initial : ∀ b, f.startBlocknr ≤ b → b < f.startBlocknr + n → g.Initial .log b
  taken : ∀ b, f.startBlocknr ≤ b → b < f.startBlocknr + n → ¬f.sbi.Free .log b

/-- The free blocks afterwards are those of before and `freed` more of metadata. -/
structure FreesBlocks (env : BallocEnv) (g : SbGeometry) (sbi sbi' : NovaSbInfo) (freed : Nat → Prop) :
    Prop where
  lists : ListsOk env g sbi'
  logFree : ∀ b, sbi'.Free .log b ↔ sbi.Free .log b ∨ freed b
  dataFree : ∀ b, sbi'.Free .data b ↔ sbi.Free .data b

/-- **A run is freed whole.** -/
theorem ChainFree.Collected.flush {f : ChainFree} (h : f.Collected env g n) (hinside : g.MetaInside)
    (hfit : g.ListsFit) (hslab : slab.Succeeds) :
    FreesBlocks env g f.sbi (f.flush env slab .b4K).sbi
      fun b => f.startBlocknr ≤ b ∧ b < f.startBlocknr + n := by
  obtain ⟨i, hi, hlo, hhi⟩ := hinside.oneList hfit h.pos h.initial
  obtain ⟨addr, haddr, hfresh⟩ := hslab f.sbi
  obtain ⟨s', hrun, hlists, hfree⟩ := h.lists.freeRange hfit hi h.pos hlo hhi h.taken
    (hfresh .log i (h.lists.geo ▸ hi))
  have hflush : (f.flush env slab .b4K).sbi = f.sbi.setSub .log i s' := by
    unfold ChainFree.flush novaFreeLogBlocks
    rw [if_neg h.start, haddr, h.count, hrun]
  rw [hflush]
  exact ⟨hlists, fun b => by simpa using hfree .log b, fun b => by simpa using hfree .data b⟩

/-! ### The chain -/

/-- The page's block is one of the metadata lists' and not free. -/
def NovaSbInfo.Holds (g : SbGeometry) (sbi : NovaSbInfo) (p : Nat) : Prop :=
  g.Initial .log (p / 4096) ∧ ¬sbi.Free .log (p / 4096)

theorem intToU64_run (hs : s < 2 ^ 52) (hn : n < 2 ^ 31) : intToU64 ((s : Int) + n) = s + n := by
  unfold intToU64
  omega

/-- The block behind a run is collected. -/
theorem ChainFree.Collected.extend {f : ChainFree} (h : f.Collected env g n) (hn : n + 1 < 2 ^ 31)
    (hb : g.Initial .log (f.startBlocknr + n)) (htaken : ¬f.sbi.Free .log (f.startBlocknr + n)) :
    ChainFree.Collected env g { f with numFree := toS32 (f.numFree + 1) } (n + 1) := by
  refine ⟨h.lists, h.start, ?_, by omega, ?_, ?_⟩
  · show toS32 (f.numFree + 1) = _
    rw [h.count]
    exact_mod_cast toS32_of_lt hn
  · intro b h1 h2
    by_cases hlast : b = f.startBlocknr + n
    · rw [hlast]
      exact hb
    · exact h.initial b h1 (by dsimp only at h2; omega)
  · intro b h1 h2
    by_cases hlast : b = f.startBlocknr + n
    · rw [hlast]
      exact htaken
    · exact h.taken b h1 (by dsimp only at h2; omega)

/-- One block is a run. -/
theorem ChainFree.Collected.single {freed : Int} (hlists : ListsOk env g sbi) (hfit : g.ListsFit)
    (hb : g.Initial .log b) (htaken : ¬sbi.Free .log b) :
    ChainFree.Collected env g ⟨sbi, b, 1, freed⟩ 1 := by
  have hpos : 0 < b := by
    obtain ⟨i, hi, hstart, -⟩ := hb
    have := (novaInitFreeList_bounds hfit (t := .log) hi).2.2 rfl
    omega
  have hone : ∀ b', b ≤ b' → b' < b + 1 → b' = b := fun b' h1 h2 => by omega
  refine ⟨hlists, ?_, rfl, by omega, ?_, ?_⟩
  · show b ≠ 0
    omega
  · intro b' h1 h2
    rw [hone b' h1 h2]
    exact hb
  · intro b' h1 h2
    rw [hone b' h1 h2]
    exact htaken

theorem FreesBlocks.trans {sbi' sbi'' : NovaSbInfo} {freed freed' : Nat → Prop}
    (h : FreesBlocks env g sbi sbi' freed) (h' : FreesBlocks env g sbi' sbi'' freed') :
    FreesBlocks env g sbi sbi'' fun b => freed b ∨ freed' b :=
  ⟨h'.lists, fun b => by rw [h'.logFree, h.logFree, or_assoc], fun b => by rw [h'.dataFree, h.dataFree]⟩

theorem FreesBlocks.congr {sbi' : NovaSbInfo} {freed freed' : Nat → Prop}
    (h : FreesBlocks env g sbi sbi' freed) (heq : ∀ b, freed b ↔ freed' b) :
    FreesBlocks env g sbi sbi' freed' :=
  ⟨h.lists, fun b => by rw [h.logFree, heq], h.dataFree⟩

/-- **The loop over the rest of a chain, and the last run.**  The induction is on the pages that
are left; `k` counts the pages of the runs that have been freed. -/
theorem ChainFree.Collected.loop (hinside : g.MetaInside) (hfit : g.ListsFit) (hslab : slab.Succeeds) :
    ∀ (pages : List Nat) (f : ChainFree) (n k fuel : Nat), f.Collected env g n → f.freed = k →
      k + n + pages.length < 2 ^ 31 → pages.length < fuel → LinkedTo m 0 pages → pages.Nodup →
      (∀ p ∈ pages, IsPage p ∧ f.sbi.Holds g p ∧
        ¬(f.startBlocknr ≤ p / 4096 ∧ p / 4096 < f.startBlocknr + n)) →
      ∃ f', novaFreeContiguousLogBlocksLoop env slab .b4K m fuel (pages.headD 0) f = .ok f' ∧
        f'.startBlocknr ≠ 0 ∧ (f'.flush env slab .b4K).freed = (k + n + pages.length : Nat) ∧
        FreesBlocks env g f.sbi (f'.flush env slab .b4K).sbi fun b =>
          (f.startBlocknr ≤ b ∧ b < f.startBlocknr + n) ∨ ∃ p ∈ pages, p / 4096 = b := by
  intro pages
  induction pages with
  | nil =>
      intro f n k fuel h hfreed hlt hfuel _ _ _
      obtain ⟨fuel, rfl⟩ := Nat.exists_eq_add_one.mpr hfuel
      refine ⟨f, by simp [novaFreeContiguousLogBlocksLoop], h.start, ?_, ?_⟩
      · show toS32 (f.freed + f.numFree) = _
        rw [hfreed, h.count]
        exact_mod_cast toS32_of_lt hlt
      · exact (h.flush hinside hfit hslab).congr fun b => by simp
  | cons p ps ih =>
      intro f n k fuel h hfreed hlt hfuel hlink hnodup hpages
      obtain ⟨fuel, rfl⟩ := Nat.exists_eq_add_one.mpr (Nat.zero_lt_of_lt hfuel)
      rw [List.length_cons] at hlt hfuel
      obtain ⟨⟨halign, hp0, -⟩, ⟨hinit, htaken⟩, houtside⟩ := hpages p (by simp)
      obtain ⟨hnotin, hnodup'⟩ := List.nodup_cons.mp hnodup
      have hblocks : ∀ q ∈ ps, q / 4096 ≠ p / 4096 := by
        intro q hq heq
        have hq' := (hpages q (by simp [hq])).1.1
        have hsame : q = p := by omega
        exact hnotin (hsame ▸ hq)
      have hstep : novaFreeContiguousLogBlocksLoop env slab .b4K m (fuel + 1) ((p :: ps).headD 0) f =
          novaFreeContiguousLogBlocksLoop env slab .b4K m fuel (ps.headD 0)
            (f.page env slab .b4K (novaGetBlocknr p)) := by
        rw [novaFreeContiguousLogBlocksLoop]
        have hloc : entryLoc p = 0 := halign
        simp only [List.headD_cons, hp0, if_false, hloc, ne_eq, not_true_eq_false]
        rw [hlink.headNext halign]
      rw [hstep]
      have hrest : ∀ q ∈ ps, IsPage q ∧ f.sbi.Holds g q ∧
          ¬(f.startBlocknr ≤ q / 4096 ∧ q / 4096 < f.startBlocknr + n) := fun q hq => hpages q (by simp [hq])
      have hsmall := (h.initial f.startBlocknr (le_refl _) (by have := h.pos; omega)).lt hfit
      have hnext : intToU64 (f.startBlocknr + f.numFree) = f.startBlocknr + n := by
        rw [h.count]
        exact intToU64_run hsmall (by omega)
      unfold ChainFree.page novaGetBlocknr
      rw [if_neg h.start, hnext]
      by_cases hcons : p / 4096 = f.startBlocknr + n
      · rw [if_pos hcons]
        rw [hcons] at hinit htaken hblocks
        obtain ⟨f', hrun, hstart, hcount, hfrees⟩ := ih _ (n + 1) k fuel (h.extend (by omega) hinit htaken)
          hfreed (by omega) (by omega) hlink.2 hnodup' fun q hq => by
            obtain ⟨h1, h2, h3⟩ := hrest q hq
            have := hblocks q hq
            exact ⟨h1, h2, by dsimp only; omega⟩
        refine ⟨f', hrun, hstart, ?_, ?_⟩
        · rw [hcount, List.length_cons]
          congr 1
          omega
        · refine hfrees.congr fun b => ?_
          simp only [List.mem_cons, exists_eq_or_imp, hcons]
          rw [← or_assoc]
          refine or_congr_left ?_
          have := h.pos
          omega
      · rw [if_neg hcons]
        have hflush := h.flush hinside hfit hslab
        have hfreed' : (f.flush env slab .b4K).freed = (k + n : Nat) := by
          show toS32 (f.freed + f.numFree) = _
          rw [hfreed, h.count]
          exact_mod_cast toS32_of_lt (by omega : k + n < 2 ^ 31)
        have hkept : ∀ b, ¬f.sbi.Free .log b → ¬(f.startBlocknr ≤ b ∧ b < f.startBlocknr + n) →
            ¬(f.flush env slab .b4K).sbi.Free .log b := fun b h1 h2 hb =>
          ((hflush.logFree b).mp hb).elim h1 h2
        obtain ⟨f', hrun, hstart, hcount, hfrees⟩ := ih
          ⟨(f.flush env slab .b4K).sbi, p / 4096, 1, (f.flush env slab .b4K).freed⟩ 1 (k + n) fuel
          (ChainFree.Collected.single hflush.lists hfit hinit (hkept _ htaken houtside)) hfreed'
          (by omega) (by omega) hlink.2 hnodup' fun q hq => by
            obtain ⟨h1, h2, h3⟩ := hrest q hq
            have := hblocks q hq
            exact ⟨h1, ⟨h2.1, hkept _ h2.2 h3⟩, by dsimp only; omega⟩
        refine ⟨f', hrun, hstart, ?_, ?_⟩
        · rw [hcount, List.length_cons]
          congr 1
          omega
        · refine (hflush.trans hfrees).congr fun b => or_congr_right ?_
          simp only [List.mem_cons, exists_eq_or_imp]
          refine or_congr_left ?_
          omega

/-- **A chain is freed**: it is counted, its blocks join the free blocks, and no other block's
status changes. -/
structure ChainFreed (env : BallocEnv) (g : SbGeometry) (sbi : NovaSbInfo) (pages : List Nat)
    (r : NovaSbInfo × Int) : Prop where
  counted : r.2 = pages.length
  freed : FreesBlocks env g sbi r.1 fun b => ∃ p ∈ pages, p / 4096 = b

theorem toS32_lt (a : Int) : toS32 a < 2 ^ 31 := by
  have := toNat_toS32_lt a
  omega

/-- The counter is an `int` all along. -/
theorem novaFreeContiguousLogBlocksLoop_freed_lt {btype : BlockType} : ∀ (fuel head : Nat) (f f' : ChainFree),
    f.freed < 2 ^ 31 → novaFreeContiguousLogBlocksLoop env slab btype m fuel head f = .ok f' →
      f'.freed < 2 ^ 31 := by
  intro fuel
  induction fuel with
  | zero =>
      intro head f f' _ hrun
      cases hrun
  | succ fuel ih =>
      intro head f f' hlt hrun
      rw [novaFreeContiguousLogBlocksLoop] at hrun
      split_ifs at hrun
      · exact Except.ok.inj hrun ▸ hlt
      · exact Except.ok.inj hrun ▸ hlt
      · refine ih _ _ f' ?_ hrun
        unfold ChainFree.page ChainFree.flush
        split_ifs
        · exact hlt
        · exact hlt
        · exact toS32_lt _

theorem novaFreeContiguousLogBlocks_returns_lt {btype : BlockType} {fuel head : Nat} {r : NovaSbInfo × Int}
    (hrun : novaFreeContiguousLogBlocks env slab btype m fuel sbi head = .ok r) : r.2 < 2 ^ 31 := by
  unfold novaFreeContiguousLogBlocks at hrun
  cases hloop : novaFreeContiguousLogBlocksLoop env slab btype m fuel head ⟨sbi, 0, 0, 0⟩ with
  | error e =>
      rw [hloop] at hrun
      cases hrun
  | ok f =>
      rw [hloop] at hrun
      have hr : _ = r := Except.ok.inj hrun
      rw [← hr]
      dsimp only
      split_ifs
      · exact toS32_lt _
      · exact novaFreeContiguousLogBlocksLoop_freed_lt fuel head _ f (by dsimp only; omega) hloop

/--
**A chain is freed whole just when an `int` counts its pages.**  The pages may have any order and
come from any CPU's list, and the walk ends.
-/
theorem novaFreeContiguousLogBlocks_exact_iff (hfit : g.ListsFit) (hinside : g.MetaInside)
    (hlists : ListsOk env g sbi) {head : Nat} (hchain : LogChain m head pages) (hnodup : pages.Nodup)
    (hpages : ∀ p ∈ pages, sbi.Holds g p) (hslab : slab.Succeeds) :
    (∀ fuel, pages.length < fuel →
      ∃ r, novaFreeContiguousLogBlocks env slab .b4K m fuel sbi head = .ok r ∧ ChainFreed env g sbi pages r) ↔
      pages.length < 2 ^ 31 := by
  constructor
  · intro h
    obtain ⟨r, hrun, hfreed⟩ := h (pages.length + 1) (by omega)
    have hlt := novaFreeContiguousLogBlocks_returns_lt hrun
    rw [hfreed.counted] at hlt
    omega
  · intro hlt fuel hfuel
    obtain ⟨fuel, rfl⟩ := Nat.exists_eq_add_one.mpr (Nat.zero_lt_of_lt hfuel)
    obtain ⟨hlink, rfl, hpage⟩ := hchain
    cases pages with
    | nil =>
        refine ⟨(sbi, 0), by simp [novaFreeContiguousLogBlocks, novaFreeContiguousLogBlocksLoop, Except.map], rfl,
          hlists, fun b => ?_, fun b => Iff.rfl⟩
        simp
    | cons p ps =>
        obtain ⟨hp, hps⟩ := List.forall_mem_cons.mp hpages
        obtain ⟨hnotin, hnodup'⟩ := List.nodup_cons.mp hnodup
        obtain ⟨halign, hp0, -⟩ := hpage p (by simp)
        have hfirst : ChainFree.Collected env g ⟨sbi, p / 4096, 1, 0⟩ 1 :=
          ChainFree.Collected.single hlists hfit hp.1 hp.2
        obtain ⟨f', hrun, hstart, hcount, hfrees⟩ := hfirst.loop hinside hfit hslab ps _ 1 0 fuel rfl
          (by rw [List.length_cons] at hlt; omega) (by rw [List.length_cons] at hfuel; omega) hlink.2 hnodup'
          fun q hq => by
            have hq' := (hpage q (by simp [hq])).1
            have hne : q ≠ p := fun heq => hnotin (heq ▸ hq)
            exact ⟨hpage q (by simp [hq]), hps q hq, by dsimp only; omega⟩
        have hloop : novaFreeContiguousLogBlocksLoop env slab .b4K m (fuel + 1) ((p :: ps).headD 0) ⟨sbi, 0, 0, 0⟩ =
            .ok f' := by
          have hloc : entryLoc p = 0 := halign
          rw [novaFreeContiguousLogBlocksLoop]
          simp only [List.headD_cons, hp0, if_false, hloc, ne_eq, not_true_eq_false]
          rw [hlink.headNext halign]
          exact hrun
        refine ⟨((f'.flush env slab .b4K).sbi, (f'.flush env slab .b4K).freed), ?_, ?_, ?_⟩
        · unfold novaFreeContiguousLogBlocks
          rw [hloop]
          show Except.ok _ = _
          simp only [hstart, ne_eq, not_false_eq_true, if_true]
        · show (f'.flush env slab .b4K).freed = _
          rw [hcount, List.length_cons]
          congr 1
          omega
        · refine hfrees.congr fun b => ?_
          simp only [List.mem_cons, exists_eq_or_imp]
          refine or_congr_left ?_
          omega

/-! ### Two chains -/

/-- Log pages that hold nothing but their next pointers, by block number. -/
def chainMem (next : Nat → Nat) : ByteMem :=
  fun x => (leBytes 8 (next (x / 4096))).getD (x % 4096 - 4088) 0

theorem nextPage_chainMem (next : Nat → Nat) (hnext : next b < 2 ^ 64) :
    nextPage (chainMem next) (b * 4096) = next b := by
  have hread : (chainMem next).read (b * 4096 + logBlockTail + 24) 8 = leBytes 8 (next b) := by
    refine List.ext_getElem (by simp) fun i hi hi' => ?_
    rw [read_length] at hi
    have hblock : (b * 4096 + logBlockTail + 24 + i) / 4096 = b := by
      unfold logBlockTail
      omega
    have hbyte : (b * 4096 + logBlockTail + 24 + i) % 4096 - 4088 = i := by
      unfold logBlockTail
      omega
    simp only [ByteMem.read, List.getElem_map, List.getElem_range, chainMem]
    rw [hblock, hbyte, List.getD_eq_getElem _ _ hi']
  unfold nextPage word
  rw [hread, leValue_leBytes, Nat.mod_eq_of_lt (by norm_num; exact hnext)]

/-- Every block is owned. -/
def allTaken (g : SbGeometry) : NovaSbInfo where
  geo := g
  freeLists i := ⟨novaInitFreeList g i .log, novaInitFreeList g i .data⟩

theorem allTaken_listsOk (hfit : g.ListsFit) : ListsOk env g (allTaken g) := by
  have hsub : ∀ t i, (allTaken g).sub t i = novaInitFreeList g i t := by
    intro t i
    cases t <;> rfl
  refine ⟨rfl, fun t i hi => ?_, fun t i hi => by rw [hsub]; exact ⟨rfl, rfl⟩⟩
  have hspan := (hfit t i hi).2
  rw [hsub]
  have hnodes : (novaInitFreeList g i t).nodes = [] := by
    cases t <;> rfl
  have hfields : (novaInitFreeList g i t).firstNode = none ∧ (novaInitFreeList g i t).lastNode = none ∧
      (novaInitFreeList g i t).numBlocknode = 0 ∧ (novaInitFreeList g i t).numFreeBlocks = 0 := by
    cases t <;> exact ⟨rfl, rfl, rfl, rfl⟩
  obtain ⟨hfirst, hlast, hcount, hfree⟩ := hfields
  exact ⟨by rw [hnodes]; exact ⟨by simp, by simp, by simp, by simp, by simp⟩, by rw [hfirst, hnodes]; rfl,
    by rw [hlast, hnodes]; rfl, by rw [hcount, hnodes]; rfl, by rw [hfree, hnodes]; rfl, hspan⟩

theorem not_free_allTaken {t : AllocType} : ¬(allTaken g).Free t b := by
  rintro ⟨i, -, n, hn, -⟩
  have hnil : ((allTaken g).sub t i).nodes = [] := by
    cases t <;> rfl
  rw [hnil] at hn
  exact absurd hn List.not_mem_nil

/-- A slab that goes above every address in use. -/
def freshSlab : RangeSlab := fun sbi =>
  some (1 + ((List.range sbi.geo.cpus).map fun i =>
    ((sbi.sub .log i).nodes.map RangeNode.addr).sum + ((sbi.sub .data i).nodes.map RangeNode.addr).sum).sum)

theorem freshSlab_succeeds : freshSlab.Succeeds := by
  intro sbi
  refine ⟨_, rfl, fun t i hi hmem => ?_⟩
  have h1 := List.le_sum_of_mem hmem
  have h2 := List.le_sum_of_mem (List.mem_map_of_mem (f := fun i =>
    ((sbi.sub .log i).nodes.map RangeNode.addr).sum + ((sbi.sub .data i).nodes.map RangeNode.addr).sum)
    (List.mem_range.mpr hi))
  cases t <;> omega

/-- Three pages, the last of them in front of the others. -/
theorem novaFreeContiguousLogBlocks_exact_three :
    ∃ r, novaFreeContiguousLogBlocks plainEnv freshSlab .b4K
        (chainMem fun b => if b = 200 then 201 * 4096 else if b = 201 then 100 * 4096 else 0) 4
        (allTaken smallGeometry) (200 * 4096) = .ok r ∧
      ChainFreed plainEnv smallGeometry (allTaken smallGeometry) [200 * 4096, 201 * 4096, 100 * 4096] r := by
  have hpages : ∀ p ∈ [200 * 4096, 201 * 4096, 100 * 4096], IsPage p ∧ smallGeometry.Initial .log (p / 4096) := by
    intro p hp
    simp only [List.mem_cons, List.not_mem_nil, or_false] at hp
    rcases hp with rfl | rfl | rfl
    · exact ⟨⟨by decide, by decide, by decide⟩, 0, by decide, by decide, by decide⟩
    · exact ⟨⟨by decide, by decide, by decide⟩, 0, by decide, by decide, by decide⟩
    · exact ⟨⟨by decide, by decide, by decide⟩, 0, by decide, by decide, by decide⟩
  refine (novaFreeContiguousLogBlocks_exact_iff smallGeometry_listsFit (Nat.le_of_ble_eq_true rfl)
    (allTaken_listsOk smallGeometry_listsFit) ⟨?_, rfl, fun p hp => (hpages p hp).1⟩ (by decide)
    (fun p hp => ⟨(hpages p hp).2, not_free_allTaken⟩) freshSlab_succeeds).mpr (by decide) 4 (by decide)
  exact ⟨nextPage_chainMem _ (by decide), nextPage_chainMem _ (by decide), nextPage_chainMem _ (by decide), trivial⟩

/-- One CPU with 16 TiB of metadata. -/
def wideGeometry : SbGeometry where
  cpus := 1
  cpus_pos := Nat.one_pos
  initsize := 2 ^ 44 + 2 ^ 30
  metaNumBlocks := 2 ^ 32
  dataNumBlocks := 2 ^ 18
  initsize_lt := by decide
  metaNumBlocks_lt := by decide
  dataNumBlocks_lt := by decide

theorem linkedTo_chainMem {e : Nat} (he : e ≤ 2 ^ 52) : ∀ n s, s + n = e →
    LinkedTo (chainMem fun b => if b + 1 < e then (b + 1) * 4096 else 0) 0 ((List.range' s n).map (· * 4096)) := by
  let next := fun b => if b + 1 < e then (b + 1) * 4096 else 0
  intro n
  induction n with
  | zero =>
      intro s _
      trivial
  | succ n ih =>
      intro s hs
      have hnext : next s < 2 ^ 64 := by
        show (if s + 1 < e then (s + 1) * 4096 else 0) < 2 ^ 64
        split_ifs <;> omega
      refine ⟨?_, ih (s + 1) (by omega)⟩
      refine (nextPage_chainMem next hnext).trans ?_
      cases n with
      | zero => exact if_neg (by omega)
      | succ n => exact if_pos (by omega)

/-- **A log of 2^31 pages.**  The number returned is not the number of pages. -/
theorem novaFreeContiguousLogBlocks_overflows :
    ¬∀ (env : BallocEnv) (g : SbGeometry) (slab : RangeSlab) (m : ByteMem) (sbi : NovaSbInfo) (head : Nat)
      (pages : List Nat), g.ListsFit → g.MetaInside → ListsOk env g sbi → LogChain m head pages → pages.Nodup →
      (∀ p ∈ pages, sbi.Holds g p) → slab.Succeeds →
      ∃ fuel r, novaFreeContiguousLogBlocks env slab .b4K m fuel sbi head = .ok r ∧ ChainFreed env g sbi pages r := by
  intro hall
  have hfit : wideGeometry.ListsFit := by
    intro t i hi
    have hi0 : i = 0 := by
      have : i < 1 := hi
      omega
    subst hi0
    cases t <;> decide
  have hlinked := linkedTo_chainMem (e := 2 ^ 26 + 2 ^ 31) (by decide) (2 ^ 31) (2 ^ 26) rfl
  have hmem : ∀ p ∈ (List.range' (2 ^ 26) (2 ^ 31)).map (· * 4096), ∃ b, 2 ^ 26 ≤ b ∧ b < 2 ^ 26 + 2 ^ 31 ∧ b * 4096 = p := by
    intro p hp
    obtain ⟨b, hb, rfl⟩ := List.mem_map.mp hp
    rw [List.mem_range'_1] at hb
    exact ⟨b, hb.1, hb.2, rfl⟩
  have hhead : 2 ^ 26 * 4096 = ((List.range' (2 ^ 26) (2 ^ 31)).map (· * 4096)).headD 0 := by
    rw [List.range'_eq_cons_iff.mpr ⟨rfl, by decide, rfl⟩]
    rfl
  have hpages : ∀ p ∈ (List.range' (2 ^ 26) (2 ^ 31)).map (· * 4096),
      IsPage p ∧ wideGeometry.Initial .log (p / 4096) := by
    intro p hp
    obtain ⟨b, h1, h2, rfl⟩ := hmem p hp
    have hstart : (novaInitFreeList wideGeometry 0 .log).blockStart ≤ 2 ^ 26 := by decide
    have hend : 2 ^ 26 + 2 ^ 31 ≤ (novaInitFreeList wideGeometry 0 .log).blockEnd := by decide
    rw [Nat.mul_div_cancel _ (by decide)]
    exact ⟨⟨by omega, by omega, by omega⟩, 0, by decide, by omega, by omega⟩
  have hnodup : ((List.range' (2 ^ 26) (2 ^ 31)).map (· * 4096)).Nodup :=
    (List.nodup_range').map fun a b (hab : a * 4096 = b * 4096) => by omega
  obtain ⟨fuel, r, hrun, hfreed⟩ := hall plainEnv wideGeometry freshSlab _ (allTaken wideGeometry) _ _ hfit
    (Nat.le_of_ble_eq_true rfl) (allTaken_listsOk hfit) ⟨hlinked, hhead, fun p hp => (hpages p hp).1⟩ hnodup
    (fun p hp => ⟨(hpages p hp).2, not_free_allTaken⟩) freshSlab_succeeds
  have hlt := novaFreeContiguousLogBlocks_returns_lt hrun
  rw [hfreed.counted, List.length_map, List.length_range'] at hlt
  omega

end Parfs
