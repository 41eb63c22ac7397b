/-
Striping over the devices that were mounted.

A block number picks a place by striping, the place is a device, and the address is the
device's base plus the page offset there.  `Places` is what a configuration has to get
right: at each place, the pages the address arithmetic reaches inside the device are
exactly the first `room`.  Striping then works precisely when no place is dealt more
blocks than it has room for, and that is a condition on the devices alone.

With one device, or with metadata on a device of its own, it always holds.  With two
shared devices, or three and more, it asks that the device sizes match what striping
deals to them and that the index base plus the place is a device at all.
-/
import Mathlib.Order.Interval.Finset.Nat
import Parfs.Lib.Striping
import Parfs.Layout

namespace Parfs

open Lib Lib.Striping

/-- Page-aligned, non-empty devices, mapped at addresses other than `NULL` and apart from
each other. -/
structure DevicesOk (devs : List PmemDevice) : Prop where
  aligned : ∀ d ∈ devs, d.virtAddr % 4096 = 0 ∧ d.sizeInBytes % 4096 = 0
  nonempty : ∀ d ∈ devs, 0 < d.sizeInBytes
  mapped : ∀ d ∈ devs, 0 < d.virtAddr ∧ d.virtAddr + d.sizeInBytes ≤ 2 ^ 64
  apart : devs.Pairwise fun a b =>
    a.virtAddr + a.sizeInBytes ≤ b.virtAddr ∨ b.virtAddr + b.sizeInBytes ≤ a.virtAddr

/-- The page lies in device `i` and outside the metadata area. -/
def PageIn (devs : List PmemDevice) (l : NvmLayout) (i page : Nat) : Prop :=
  ∃ d, devs[i]? = some d ∧ d.virtAddr ≤ page ∧ page + 4096 ≤ d.virtAddr + d.sizeInBytes ∧
    (page + 4096 ≤ l.metaStartVirt ∨ l.metaStartVirt + l.metaSize ≤ page)

/-- The address of a data block. -/
def NvmLayout.blockAddr (l : NvmLayout) (blocknr : Nat) (btype : BlockType) : Nat :=
  l.novaGetVirtAddrFromOffset (l.novaGetBlockOff blocknr btype .data) .data

/-- **Block striping is a bijection onto device pages.** -/
structure StripingOk (devs : List PmemDevice) (l : NvmLayout) (btype : BlockType) : Prop where
  /-- every block is a page of the data area of the device its index names -/
  inside : ∀ b < l.dataNumBlocks,
    PageIn devs l (l.novaBlknrToNvmidx b btype .data) (l.blockAddr b btype)
  /-- no two blocks share an address -/
  distinct : ∀ b < l.dataNumBlocks, ∀ b' < l.dataNumBlocks,
    l.blockAddr b btype = l.blockAddr b' btype → b = b'

/-- The pages of the `i`-th device of a list, none when there is no such device. -/
def pagesAt (ds : List PmemDevice) (i : Nat) : Nat := ((ds[i]?).map PmemDevice.sizeInBytes).getD 0 / 4096

/-- Device `h` is the one with the lowest address. -/
def IsLowest (ds : List PmemDevice) (h : Nat) : Prop :=
  ∃ d, ds[h]? = some d ∧ ∀ d' ∈ ds, d.virtAddr ≤ d'.virtAddr

/-- The bytes of all devices. -/
def totalBytes (ds : List PmemDevice) : Nat := (ds.map PmemDevice.sizeInBytes).sum

/-- When the devices suit the striping: every place is dealt no more than it has room for.
With one device or a metadata device of its own there is one place and nothing to ask. -/
def StripesFit (metaSeparate : Bool) (devs : List PmemDevice) (btype : BlockType) : Prop :=
  match devs with
  | [] => True
  | [_] => True
  | [d₀, d₁] => metaSeparate = true ∨ d₀.sizeInBytes % 8192 = 0 ∧
      share 2 (novaGetNumblocks btype) (d₀.sizeInBytes / 4096) 0 ≤ d₀.sizeInBytes / 2 / 4096 ∧
      share 2 (novaGetNumblocks btype) (d₀.sizeInBytes / 4096) 1 ≤ d₁.sizeInBytes / 4096
  | _ :: ds => ∀ h, IsLowest ds h → ∀ r < ds.length,
      share ds.length (novaGetNumblocks btype) (totalBytes ds / 4096) r ≤ pagesAt ds (h + r)

/-! ### The arithmetic all configurations share -/

section Places

variable {devs : List PmemDevice} {l : NvmLayout}

theorem novaGetNumblocks_pos (btype : BlockType) : 0 < novaGetNumblocks btype := by
  cases btype <;> decide

theorem novaGetNumblocks_le (btype : BlockType) : novaGetNumblocks btype ≤ 262144 := by
  cases btype <;> decide

/-- What a configuration has to get right at each place. -/
def Places (devs : List PmemDevice) (l : NvmLayout) (room : Nat → Nat) : Prop :=
  ∀ r < l.dataNvmNum, ∀ o < 2 ^ 52,
    PageIn devs l (r + l.dataHeadNvmIdx)
      ((l.dataStartVirt + (l.startBlock (r + l.dataHeadNvmIdx) + o) * 4096 % 2 ^ 64) % 2 ^ 64) ↔
      o < room r

/-- A page lies in one device only. -/
theorem PageIn.index_unique (hdevs : DevicesOk devs) {i j page : Nat} (hi : PageIn devs l i page)
    (hj : PageIn devs l j page) : i = j := by
  obtain ⟨d, hd, hd1, hd2, -⟩ := hi
  obtain ⟨e, he, he1, he2, -⟩ := hj
  by_contra hne
  obtain ⟨hilen, rfl⟩ := List.getElem?_eq_some_iff.mp hd
  obtain ⟨hjlen, rfl⟩ := List.getElem?_eq_some_iff.mp he
  have hpair := List.pairwise_iff_getElem.mp hdevs.apart
  rcases Nat.lt_or_gt_of_ne hne with hlt | hlt
  · have := hpair i j hilen hjlen hlt
    omega
  · have := hpair j i hjlen hilen hlt
    omega

/-- **Striping works exactly when every place has room for what it is dealt.** -/
theorem stripingOk_iff (hdevs : DevicesOk devs) {room : Nat → Nat} (btype : BlockType)
    (hnum : 0 < l.dataNvmNum) (hlt : l.dataNumBlocks ≤ 2 ^ 52) (hplaces : Places devs l room) :
    StripingOk devs l btype ↔
      ∀ r < l.dataNvmNum, share l.dataNvmNum (novaGetNumblocks btype) l.dataNumBlocks r ≤ room r := by
  have hg := novaGetNumblocks_pos btype
  have hoff : ∀ b, offset l.dataNvmNum (novaGetNumblocks btype) b ≤ b := by
    intro b
    unfold offset
    have h1 := Nat.div_mul_le_self b (novaGetNumblocks btype)
    have h2 := Nat.mul_le_mul_right (novaGetNumblocks btype)
      (Nat.div_le_self (b / novaGetNumblocks btype) l.dataNvmNum)
    have h3 := Nat.div_add_mod b (novaGetNumblocks btype)
    rw [Nat.mul_comm] at h3
    omega
  have hpage : ∀ b < l.dataNumBlocks,
      PageIn devs l (l.novaBlknrToNvmidx b btype .data) (l.blockAddr b btype) ↔
        offset l.dataNvmNum (novaGetNumblocks btype) b <
          room (place l.dataNvmNum (novaGetNumblocks btype) b) := by
    intro b hb
    have hle := hoff b
    exact hplaces _ (place_lt hnum) (offset l.dataNvmNum (novaGetNumblocks btype) b) (by omega)
  have hinside : (∀ b < l.dataNumBlocks,
      PageIn devs l (l.novaBlknrToNvmidx b btype .data) (l.blockAddr b btype)) ↔
      ∀ r < l.dataNvmNum, share l.dataNvmNum (novaGetNumblocks btype) l.dataNumBlocks r ≤ room r := by
    rw [forall₂_congr hpage, forall_lt_iff hnum hg (P := fun r o => o < room r)]
    refine forall₂_congr fun r _ => ?_
    constructor
    · intro h
      by_contra hcon
      exact lt_irrefl _ (h (room r) (by omega))
    · intro h o ho
      omega
  constructor
  · intro h
    exact hinside.mp h.inside
  · intro h
    have hin := hinside.mpr h
    refine ⟨hin, ?_⟩
    intro b hb b' hb' haddr
    have hb1 := hin b hb
    have hb2 := hin b' hb'
    rw [haddr] at hb1
    have hidx := PageIn.index_unique hdevs hb1 hb2
    have hplace : place l.dataNvmNum (novaGetNumblocks btype) b =
        place l.dataNvmNum (novaGetNumblocks btype) b' := Nat.add_right_cancel hidx
    refine place_offset_inj hg hplace ?_
    have h1 := hoff b
    have h2 := hoff b'
    have haddr' : (l.dataStartVirt + (l.startBlock (l.novaBlknrToNvmidx b btype .data) +
          offset l.dataNvmNum (novaGetNumblocks btype) b) * 4096 % 2 ^ 64) % 2 ^ 64 =
        (l.dataStartVirt + (l.startBlock (l.novaBlknrToNvmidx b' btype .data) +
          offset l.dataNvmNum (novaGetNumblocks btype) b') * 4096 % 2 ^ 64) % 2 ^ 64 := haddr
    rw [hidx] at haddr'
    generalize l.startBlock _ = sb at haddr'
    generalize offset _ _ b = o at *
    generalize offset _ _ b' = o' at *
    omega

/-- One place: a device whose pages start at `base`, reached by whole pages. -/
theorem pageIn_iff {i base room o : Nat} {d : PmemDevice} (hd : devs[i]? = some d)
    (hbase : d.virtAddr ≤ base) (hend : d.virtAddr + d.sizeInBytes ≤ 2 ^ 64)
    (hmeta : ∀ p, base ≤ p → p + 4096 ≤ d.virtAddr + d.sizeInBytes →
      p + 4096 ≤ l.metaStartVirt ∨ l.metaStartVirt + l.metaSize ≤ p)
    (hlow : ∀ p, d.virtAddr ≤ p → p + 4096 ≤ d.virtAddr + d.sizeInBytes → p < base →
      ¬ (p + 4096 ≤ l.metaStartVirt ∨ l.metaStartVirt + l.metaSize ≤ p))
    (hroom : room = (d.virtAddr + d.sizeInBytes - base) / 4096)
    (hle : base ≤ d.virtAddr + d.sizeInBytes) (ho : o < 2 ^ 52) :
    PageIn devs l i ((base + o * 4096) % 2 ^ 64) ↔ o < room := by
  constructor
  · rintro ⟨d', hd', h1, h2, h3⟩
    obtain rfl : d = d' := Option.some.inj (hd.symm.trans hd')
    by_cases hpb : (base + o * 4096) % 2 ^ 64 < base
    · exact absurd h3 (hlow _ h1 h2 hpb)
    · omega
  · intro h
    refine ⟨d, hd, by omega, by omega, hmeta _ (by omega) (by omega)⟩

end Places

/-! ### The configurations -/

section Configs

variable {d d₀ d₁ : PmemDevice} {ds : List PmemDevice}

/-- With one place, everything goes there. -/
theorem share_one {g n : Nat} (hg : 0 < g) : share 1 g n 0 = n := by
  unfold share
  rw [Nat.one_mul, Nat.zero_mul, Nat.sub_zero, Nat.min_eq_right (Nat.le_of_lt (Nat.mod_lt _ hg)),
    Nat.mul_comm]
  exact Nat.div_add_mod _ _

theorem roundupPowOfTwo_le {n : Nat} (hn : 0 < n) : roundupPowOfTwo n < 2 * n := by
  unfold roundupPowOfTwo
  split
  · omega
  · have := Nat.log2_self_le (n := n - 1) (by omega)
    rw [Nat.pow_succ]
    omega

theorem stripingOk_config1 (hdevs : DevicesOk [d]) (btype : BlockType) :
    StripingOk [d] (novaConfig1Nvmm d) btype := by
  have hpos := hdevs.nonempty d (by simp)
  obtain ⟨hvirt, hend⟩ := hdevs.mapped d (by simp)
  have halign := (hdevs.aligned d (by simp)).2
  have hround : roundupPowOfTwo (d.sizeInBytes / 3) ≤ d.sizeInBytes := by
    have := roundupPowOfTwo_le (n := d.sizeInBytes / 3) (by omega)
    omega
  have hdata : (novaConfig1Nvmm d).dataNumBlocks =
      (d.sizeInBytes - roundupPowOfTwo (d.sizeInBytes / 3)) / 4096 := by
    show subU64 d.sizeInBytes _ / 4096 = _
    rw [subU64_of_le hround (by omega)]
  have hplaces : Places [d] (novaConfig1Nvmm d)
      fun _ => (d.sizeInBytes - roundupPowOfTwo (d.sizeInBytes / 3)) / 4096 := by
    intro r hr o ho
    have hr0 : r = 0 := by
      have : r < 1 := hr
      omega
    subst hr0
    have hstart : (novaConfig1Nvmm d).metaStartVirt = d.virtAddr := rfl
    have hmeta : (novaConfig1Nvmm d).metaSize = roundupPowOfTwo (d.sizeInBytes / 3) := rfl
    have haddr : ((novaConfig1Nvmm d).dataStartVirt +
        ((novaConfig1Nvmm d).startBlock (0 + (novaConfig1Nvmm d).dataHeadNvmIdx) + o) * 4096 % 2 ^ 64)
          % 2 ^ 64 = (d.virtAddr + roundupPowOfTwo (d.sizeInBytes / 3) + o * 4096) % 2 ^ 64 := by
      show ((d.virtAddr + roundupPowOfTwo (d.sizeInBytes / 3)) % 2 ^ 64 + (0 + o) * 4096 % 2 ^ 64)
          % 2 ^ 64 = _
      omega
    rw [haddr]
    refine pageIn_iff (d := d) rfl (by omega) hend ?_ ?_ ?_ (by omega) ho
    · intro p hp _
      rw [hstart, hmeta]
      omega
    · intro p h1 h2 h3
      rw [hstart, hmeta]
      omega
    · dsimp only
      congr 1
      omega
  refine (stripingOk_iff hdevs btype Nat.one_pos (by rw [hdata]; omega) hplaces).mpr ?_
  intro r hr
  have hr0 : r = 0 := by
    have : r < 1 := hr
    omega
  subst hr0
  rw [show (novaConfig1Nvmm d).dataNvmNum = 1 from rfl, share_one (novaGetNumblocks_pos btype), hdata]

theorem apart_pair (hdevs : DevicesOk [d₀, d₁]) :
    d₀.virtAddr + d₀.sizeInBytes ≤ d₁.virtAddr ∨ d₁.virtAddr + d₁.sizeInBytes ≤ d₀.virtAddr := by
  have h := hdevs.apart
  rw [List.pairwise_cons] at h
  exact h.1 d₁ (by simp)

theorem stripingOk_config2Sep (hdevs : DevicesOk [d₀, d₁]) (btype : BlockType) :
    StripingOk [d₀, d₁] (novaConfig2NvmmMetaDataSep d₀ d₁) btype := by
  obtain ⟨-, hend⟩ := hdevs.mapped d₁ (by simp)
  have happart := apart_pair hdevs
  have hplaces : Places [d₀, d₁] (novaConfig2NvmmMetaDataSep d₀ d₁) fun _ => d₁.sizeInBytes / 4096 := by
    intro r hr o ho
    have hr0 : r = 0 := by
      have : r < 1 := hr
      omega
    subst hr0
    have haddr : ((novaConfig2NvmmMetaDataSep d₀ d₁).dataStartVirt +
        ((novaConfig2NvmmMetaDataSep d₀ d₁).startBlock
          (0 + (novaConfig2NvmmMetaDataSep d₀ d₁).dataHeadNvmIdx) + o) * 4096 % 2 ^ 64) % 2 ^ 64 =
        (d₁.virtAddr + o * 4096) % 2 ^ 64 := by
      show (d₁.virtAddr + (0 + o) * 4096 % 2 ^ 64) % 2 ^ 64 = _
      omega
    rw [haddr]
    refine pageIn_iff (d := d₁) rfl (le_refl _) hend ?_ (by omega) ?_ (by omega) ho
    · intro p h1 h2
      show p + 4096 ≤ d₀.virtAddr ∨ d₀.virtAddr + d₀.sizeInBytes ≤ p
      omega
    · dsimp only
      congr 1
      omega
  refine (stripingOk_iff hdevs btype Nat.one_pos ?_ hplaces).mpr ?_
  · show d₁.sizeInBytes / 4096 ≤ 2 ^ 52
    omega
  · intro r hr
    have hr0 : r = 0 := by
      have : r < 1 := hr
      omega
    subst hr0
    show share 1 _ (d₁.sizeInBytes / 4096) 0 ≤ _
    rw [share_one (novaGetNumblocks_pos btype)]

/-- A device's base found again from its wrapped page distance to the start. -/
theorem add_startBlock_page {a b o : Nat} (hab : a % 4096 = b % 4096) (ha : a ≤ 2 ^ 64)
    (hb : b ≤ 2 ^ 64) : (b + (subU64 a b / 4096 + o) * 4096 % 2 ^ 64) % 2 ^ 64 =
      (a + o * 4096) % 2 ^ 64 := by
  unfold subU64
  omega

theorem config2_dataStartVirt (hend : d₀.virtAddr + d₀.sizeInBytes ≤ 2 ^ 64)
    (hpos : 0 < d₀.sizeInBytes) :
    (novaConfig2Nvmm d₀ d₁).dataStartVirt = d₀.virtAddr + d₀.sizeInBytes / 2 := by
  have h : (novaConfig2Nvmm d₀ d₁).dataStartVirt = (d₀.virtAddr + d₀.sizeInBytes / 2) % 2 ^ 64 := rfl
  rw [h]
  exact Nat.mod_eq_of_lt (by omega)

theorem config2_startBlock_one : (novaConfig2Nvmm d₀ d₁).startBlock 1 =
    subU64 d₁.virtAddr (novaConfig2Nvmm d₀ d₁).dataStartVirt / 4096 := by
  simp [novaConfig2Nvmm]

theorem config2_startBlock_zero : (novaConfig2Nvmm d₀ d₁).startBlock 0 = 0 := by
  simp [novaConfig2Nvmm]

/-- The two shared devices, when the metadata half ends at a page boundary. -/
theorem places_config2 (hdevs : DevicesOk [d₀, d₁]) (heven : d₀.sizeInBytes % 8192 = 0) :
    Places [d₀, d₁] (novaConfig2Nvmm d₀ d₁)
      fun r => if r = 0 then d₀.sizeInBytes / 2 / 4096 else d₁.sizeInBytes / 4096 := by
  obtain ⟨hvirt₀, hend₀⟩ := hdevs.mapped d₀ (by simp)
  obtain ⟨hvirt₁, hend₁⟩ := hdevs.mapped d₁ (by simp)
  have halign₀ := (hdevs.aligned d₀ (by simp)).1
  have halign₁ := (hdevs.aligned d₁ (by simp)).1
  have hpos₀ := hdevs.nonempty d₀ (by simp)
  have hpos₁ := hdevs.nonempty d₁ (by simp)
  have happart := apart_pair hdevs
  have hstart : (novaConfig2Nvmm d₀ d₁).metaStartVirt = d₀.virtAddr := rfl
  have hmeta : (novaConfig2Nvmm d₀ d₁).metaSize = d₀.sizeInBytes / 2 := rfl
  intro r hr o ho
  have hr2 : r < 2 := hr
  by_cases hr0 : r = 0
  · subst hr0
    have haddr : ((novaConfig2Nvmm d₀ d₁).dataStartVirt + ((novaConfig2Nvmm d₀ d₁).startBlock
        (0 + (novaConfig2Nvmm d₀ d₁).dataHeadNvmIdx) + o) * 4096 % 2 ^ 64) % 2 ^ 64 =
        (d₀.virtAddr + d₀.sizeInBytes / 2 + o * 4096) % 2 ^ 64 := by
      show ((d₀.virtAddr + d₀.sizeInBytes / 2) % 2 ^ 64 + (0 + o) * 4096 % 2 ^ 64) % 2 ^ 64 = _
      omega
    rw [haddr]
    refine pageIn_iff (d := d₀) rfl (by omega) hend₀ ?_ ?_ ?_ (by omega) ho
    · intro p hp _
      rw [hstart, hmeta]
      omega
    · intro p h1 h2 h3
      rw [hstart, hmeta]
      omega
    · dsimp only
      rw [if_pos rfl]
      omega
  · have hr1 : r = 1 := by omega
    subst hr1
    have haddr : ((novaConfig2Nvmm d₀ d₁).dataStartVirt + ((novaConfig2Nvmm d₀ d₁).startBlock
        (1 + (novaConfig2Nvmm d₀ d₁).dataHeadNvmIdx) + o) * 4096 % 2 ^ 64) % 2 ^ 64 =
        (d₁.virtAddr + o * 4096) % 2 ^ 64 := by
      rw [show 1 + (novaConfig2Nvmm d₀ d₁).dataHeadNvmIdx = 1 from rfl, config2_startBlock_one]
      refine add_startBlock_page ?_ ?_ ?_
      · rw [config2_dataStartVirt hend₀ hpos₀]
        omega
      · omega
      · rw [config2_dataStartVirt hend₀ hpos₀]
        omega
    rw [haddr]
    refine pageIn_iff (d := d₁) rfl (le_refl _) hend₁ ?_ (by omega) ?_ (by omega) ho
    · intro p h1 h2
      rw [hstart, hmeta]
      omega
    · dsimp only
      rw [if_neg (by omega)]
      omega

/-- From a start half a page off, the wrapped page distance leads below the device. -/
theorem below_of_half_page {a b : Nat} (ha : a % 4096 = 0) (hb : b % 4096 = 2048)
    (hpos : 0 < a) (hlt : a < 2 ^ 64) (hblt : b < 2 ^ 64) :
    (b + (subU64 a b / 4096 + 0) * 4096 % 2 ^ 64) % 2 ^ 64 < a := by
  unfold subU64
  omega

/-- The last page of a device does not fit half the device further on. -/
theorem half_too_small {v size : Nat} (halign : size % 4096 = 0) (hpos : 0 < size)
    (hend : v + size ≤ 2 ^ 64) (hsmall : size / 4096 ≤ 262144)
    (h1 : v ≤ (v + size / 2 + (size / 4096 - 1) * 4096 % 2 ^ 64) % 2 ^ 64)
    (h2 : (v + size / 2 + (size / 4096 - 1) * 4096 % 2 ^ 64) % 2 ^ 64 + 4096 ≤ v + size) : False := by
  have hpages : (size / 4096 - 1) * 4096 = size - 4096 := by omega
  rw [hpages, Nat.mod_eq_of_lt (by omega : size - 4096 < 2 ^ 64)] at h1 h2
  by_cases hwrap : v + size / 2 + (size - 4096) < 2 ^ 64
  · rw [Nat.mod_eq_of_lt hwrap] at h2
    omega
  · omega

/-- With an odd number of pages the data area of the first device starts inside a page,
and some block ends up outside both devices. -/
theorem not_stripingOk_config2_odd (hdevs : DevicesOk [d₀, d₁]) (hodd : d₀.sizeInBytes % 8192 ≠ 0)
    (btype : BlockType) : ¬ StripingOk [d₀, d₁] (novaConfig2Nvmm d₀ d₁) btype := by
  intro h
  obtain ⟨hvirt₀, hend₀⟩ := hdevs.mapped d₀ (by simp)
  obtain ⟨hvirt₁, hend₁⟩ := hdevs.mapped d₁ (by simp)
  obtain ⟨halign₀, hsize₀⟩ := hdevs.aligned d₀ (by simp)
  have halign₁ := (hdevs.aligned d₁ (by simp)).1
  have hpos₀ := hdevs.nonempty d₀ (by simp)
  have hpos₁ := hdevs.nonempty d₁ (by simp)
  have hg := novaGetNumblocks_pos btype
  have hnum : (novaConfig2Nvmm d₀ d₁).dataNumBlocks = d₀.sizeInBytes / 4096 := rfl
  have hinside := h.inside
  rw [hnum] at hinside
  by_cases hmany : novaGetNumblocks btype < d₀.sizeInBytes / 4096
  · -- block number `g` is the first of the second device, and lies half a page below it
    obtain ⟨d, hd, h1, -⟩ := hinside (novaGetNumblocks btype) hmany
    have hidx : (novaConfig2Nvmm d₀ d₁).novaBlknrToNvmidx (novaGetNumblocks btype) btype .data = 1 := by
      show novaGetNumblocks btype / novaGetNumblocks btype % 2 + 0 = 1
      rw [Nat.div_self hg]
    rw [hidx] at hd
    obtain rfl : d₁ = d := Option.some.inj hd
    have hoff : (novaConfig2Nvmm d₀ d₁).novaBlockToNvmoff (novaGetNumblocks btype) btype .data = 0 := by
      show novaGetNumblocks btype / novaGetNumblocks btype / 2 * novaGetNumblocks btype +
        novaGetNumblocks btype % novaGetNumblocks btype = 0
      rw [Nat.div_self hg, Nat.mod_self]
      simp
    have haddr : (novaConfig2Nvmm d₀ d₁).blockAddr (novaGetNumblocks btype) btype =
        ((novaConfig2Nvmm d₀ d₁).dataStartVirt +
          ((novaConfig2Nvmm d₀ d₁).startBlock 1 + 0) * 4096 % 2 ^ 64) % 2 ^ 64 := by
      unfold NvmLayout.blockAddr NvmLayout.novaGetBlockOff NvmLayout.novaGetVirtAddrFromOffset
      rw [hidx, hoff]
    rw [haddr, config2_startBlock_one, config2_dataStartVirt hend₀ hpos₀] at h1
    have hbelow := below_of_half_page (b := d₀.virtAddr + d₀.sizeInBytes / 2) halign₁
      (by omega) (by omega) (by omega) (by omega)
    omega
  · -- all blocks go to the first device, which has room for half of them
    have hlast : d₀.sizeInBytes / 4096 - 1 < d₀.sizeInBytes / 4096 := by omega
    obtain ⟨d, hd, h1, h2, h3⟩ := hinside _ hlast
    have hblk : (d₀.sizeInBytes / 4096 - 1) / novaGetNumblocks btype = 0 :=
      Nat.div_eq_of_lt (by omega)
    have hidx : (novaConfig2Nvmm d₀ d₁).novaBlknrToNvmidx (d₀.sizeInBytes / 4096 - 1) btype .data = 0 := by
      show (d₀.sizeInBytes / 4096 - 1) / novaGetNumblocks btype % 2 + 0 = 0
      rw [hblk]
    rw [hidx] at hd
    obtain rfl : d₀ = d := Option.some.inj hd
    have hoff : (novaConfig2Nvmm d₀ d₁).novaBlockToNvmoff (d₀.sizeInBytes / 4096 - 1) btype .data =
        d₀.sizeInBytes / 4096 - 1 := by
      show (d₀.sizeInBytes / 4096 - 1) / novaGetNumblocks btype / 2 * novaGetNumblocks btype +
        (d₀.sizeInBytes / 4096 - 1) % novaGetNumblocks btype = _
      rw [hblk, Nat.mod_eq_of_lt (by omega)]
      simp
    have haddr : (novaConfig2Nvmm d₀ d₁).blockAddr (d₀.sizeInBytes / 4096 - 1) btype =
        ((novaConfig2Nvmm d₀ d₁).dataStartVirt + ((novaConfig2Nvmm d₀ d₁).startBlock 0 +
          (d₀.sizeInBytes / 4096 - 1)) * 4096 % 2 ^ 64) % 2 ^ 64 := by
      unfold NvmLayout.blockAddr NvmLayout.novaGetBlockOff NvmLayout.novaGetVirtAddrFromOffset
      rw [hidx, hoff]
    have hle := novaGetNumblocks_le btype
    rw [haddr, config2_startBlock_zero, config2_dataStartVirt hend₀ hpos₀, Nat.zero_add] at h1 h2
    exact half_too_small hsize₀ hpos₀ hend₀ (by omega) h1 h2

theorem stripingOk_config2_iff (hdevs : DevicesOk [d₀, d₁]) (btype : BlockType) :
    StripingOk [d₀, d₁] (novaConfig2Nvmm d₀ d₁) btype ↔ d₀.sizeInBytes % 8192 = 0 ∧
      share 2 (novaGetNumblocks btype) (d₀.sizeInBytes / 4096) 0 ≤ d₀.sizeInBytes / 2 / 4096 ∧
      share 2 (novaGetNumblocks btype) (d₀.sizeInBytes / 4096) 1 ≤ d₁.sizeInBytes / 4096 := by
  obtain ⟨-, hend₀⟩ := hdevs.mapped d₀ (by simp)
  by_cases heven : d₀.sizeInBytes % 8192 = 0
  · have hnum : (novaConfig2Nvmm d₀ d₁).dataNumBlocks ≤ 2 ^ 52 := by
      show d₀.sizeInBytes / 4096 ≤ 2 ^ 52
      omega
    rw [stripingOk_iff hdevs btype Nat.two_pos hnum (places_config2 hdevs heven)]
    show (∀ r < 2, share 2 _ (d₀.sizeInBytes / 4096) r ≤ _) ↔ _
    constructor
    · intro h
      exact ⟨heven, h 0 (by decide), h 1 (by decide)⟩
    · rintro ⟨-, h0, h1⟩ r hr
      rcases (by omega : r = 0 ∨ r = 1) with rfl | rfl
      · exact h0
      · exact h1
  · constructor
    · intro h
      exact absurd h (not_stripingOk_config2_odd hdevs heven btype)
    · rintro ⟨h, -⟩
      exact absurd h heven

/-- Devices that lie apart do not add up to more than the address space. -/
theorem totalBytes_lt : ∀ {ds : List PmemDevice}, DevicesOk ds → totalBytes ds < 2 ^ 64 := by
  have hcard : ∀ ds : List PmemDevice, DevicesOk ds →
      ∃ u : Finset Nat, u.card = totalBytes ds ∧
        ∀ x, x ∈ u ↔ ∃ d ∈ ds, d.virtAddr ≤ x ∧ x < d.virtAddr + d.sizeInBytes := by
    intro ds
    induction ds with
    | nil =>
        intro _
        exact ⟨∅, rfl, by simp⟩
    | cons d ds ih =>
        intro h
        have happart := List.pairwise_cons.mp h.apart
        obtain ⟨u, hu, hmem⟩ := ih ⟨fun e he => h.aligned e (by simp [he]),
          fun e he => h.nonempty e (by simp [he]), fun e he => h.mapped e (by simp [he]), happart.2⟩
        refine ⟨Finset.Ico d.virtAddr (d.virtAddr + d.sizeInBytes) ∪ u, ?_, ?_⟩
        · rw [Finset.card_union_of_disjoint, Nat.card_Ico, hu]
          · simp [totalBytes]
          · rw [Finset.disjoint_left]
            intro x hx hxu
            rw [Finset.mem_Ico] at hx
            obtain ⟨e, he, h1, h2⟩ := (hmem x).mp hxu
            have := happart.1 e he
            omega
        · intro x
          rw [Finset.mem_union, Finset.mem_Ico, hmem, List.exists_mem_cons_iff]
  intro ds h
  obtain ⟨u, hu, hmem⟩ := hcard ds h
  have hsub : u ⊆ Finset.Ico 1 (2 ^ 64) := by
    intro x hx
    obtain ⟨d, hd, h1, h2⟩ := (hmem x).mp hx
    have := h.mapped d hd
    rw [Finset.mem_Ico]
    omega
  have hle := Finset.card_le_card hsub
  rw [hu, Nat.card_Ico] at hle
  omega

/-- What the loop computes: the bytes of all devices, and the lowest device. -/
theorem lowestLoop_spec (ds : List PmemDevice) (hmapped : ∀ d ∈ ds, 0 < d.virtAddr) :
    ∀ (size start head i : Nat), size < 2 ^ 64 →
      (lowestLoop size start head i ds).1 = (size + totalBytes ds) % 2 ^ 64 ∧
      (((lowestLoop size start head i ds).2 = (start, head) ∧
          (ds ≠ [] → start ≠ 0) ∧ ∀ d ∈ ds, start ≤ d.virtAddr) ∨
        ∃ k d, ds[k]? = some d ∧ (lowestLoop size start head i ds).2 = (d.virtAddr, i + k) ∧
          (start = 0 ∨ d.virtAddr < start) ∧ ∀ d' ∈ ds, d.virtAddr ≤ d'.virtAddr) := by
  induction ds with
  | nil =>
      intro size start head i hsize
      refine ⟨?_, Or.inl ⟨rfl, by simp, by simp⟩⟩
      show size = (size + 0) % 2 ^ 64
      omega
  | cons d ds ih =>
      intro size start head i hsize
      have hd := hmapped d (by simp)
      have htotal : totalBytes (d :: ds) = d.sizeInBytes + totalBytes ds := by simp [totalBytes]
      have hlt : (size + d.sizeInBytes) % 2 ^ 64 < 2 ^ 64 := Nat.mod_lt _ (by decide)
      have hrec := ih (fun e he => hmapped e (by simp [he]))
      rw [lowestLoop]
      by_cases hlow : start > d.virtAddr ∨ start = 0
      · rw [if_pos hlow]
        obtain ⟨hsum, hrest⟩ := hrec _ d.virtAddr i (i + 1) hlt
        refine ⟨by rw [hsum, htotal]; omega, Or.inr ?_⟩
        rcases hrest with ⟨heq, -, hall⟩ | ⟨k, e, he, heq, hlt', hall⟩
        · refine ⟨0, d, rfl, heq, by omega, ?_⟩
          intro d' hd'
          rcases List.mem_cons.mp hd' with rfl | hd'
          · exact le_refl _
          · exact hall d' hd'
        · refine ⟨k + 1, e, he, ?_, by omega, ?_⟩
          · rw [heq]
            congr 1
            omega
          · intro d' hd'
            rcases List.mem_cons.mp hd' with rfl | hd'
            · omega
            · exact hall d' hd'
      · rw [if_neg hlow]
        obtain ⟨hsum, hrest⟩ := hrec _ start head (i + 1) hlt
        refine ⟨by rw [hsum, htotal]; omega, ?_⟩
        rcases hrest with ⟨heq, -, hall⟩ | ⟨k, e, he, heq, hlt', hall⟩
        · left
          refine ⟨heq, fun _ => by omega, ?_⟩
          intro d' hd'
          rcases List.mem_cons.mp hd' with rfl | hd'
          · omega
          · exact hall d' hd'
        · right
          refine ⟨k + 1, e, he, ?_, hlt', ?_⟩
          · rw [heq]
            congr 1
            omega
          · intro d' hd'
            rcases List.mem_cons.mp hd' with rfl | hd'
            · omega
            · exact hall d' hd'

/-- Three devices and more: the lowest data device, and what each place reaches. -/
theorem config3_spec (hdevs : DevicesOk (d₀ :: ds)) (hne : ds ≠ []) :
    ∃ h, IsLowest ds h ∧ (novaConfig3Nvmm d₀ ds).dataNumBlocks = totalBytes ds / 4096 ∧
      Places (d₀ :: ds) (novaConfig3Nvmm d₀ ds) fun r => pagesAt ds (h + r) := by
  have hds : DevicesOk ds := by
    have happart := List.pairwise_cons.mp hdevs.apart
    exact ⟨fun e he => hdevs.aligned e (by simp [he]), fun e he => hdevs.nonempty e (by simp [he]),
      fun e he => hdevs.mapped e (by simp [he]), happart.2⟩
  have hfirst := (List.pairwise_cons.mp hdevs.apart).1
  obtain ⟨hsum, hrest⟩ := lowestLoop_spec ds (fun d hd => (hds.mapped d hd).1) 0 0 0 1 (by decide)
  have htotal := totalBytes_lt hds
  rcases hrest with ⟨-, hzero, -⟩ | ⟨h, low, hlow, heq, -, hall⟩
  · exact absurd rfl (hzero hne)
  · have hlowmem : low ∈ ds := List.mem_of_getElem? hlow
    have halignLow := (hds.aligned low hlowmem).1
    refine ⟨h, ⟨low, hlow, hall⟩, ?_, ?_⟩
    · show (lowestLoop 0 0 0 1 ds).1 / 4096 = _
      rw [hsum]
      congr 1
      omega
    · intro r hr o ho
      have hstart : (novaConfig3Nvmm d₀ ds).dataStartVirt = low.virtAddr := by
        show (lowestLoop 0 0 0 1 ds).2.1 = _
        rw [heq]
      have hhead : (novaConfig3Nvmm d₀ ds).dataHeadNvmIdx = 1 + h := by
        show (lowestLoop 0 0 0 1 ds).2.2 = _
        rw [heq]
      have hidx : r + (novaConfig3Nvmm d₀ ds).dataHeadNvmIdx = (h + r) + 1 := by
        rw [hhead]
        omega
      rw [hidx]
      cases hget : ds[h + r]? with
      | none =>
          -- no such device
          constructor
          · rintro ⟨d, hd, -⟩
            rw [List.getElem?_cons_succ, hget] at hd
            cases hd
          · intro hlt
            simp [pagesAt, hget] at hlt
      | some d =>
          have hmem : d ∈ ds := List.mem_of_getElem? hget
          obtain ⟨hvirt, hend⟩ := hds.mapped d hmem
          have halign := (hds.aligned d hmem).1
          have happart := hfirst d hmem
          have hlowle := hall d hmem
          have hblock : (novaConfig3Nvmm d₀ ds).startBlock (h + r + 1) =
              subU64 d.virtAddr low.virtAddr / 4096 := by
            unfold novaConfig3Nvmm
            dsimp only
            rw [List.getElem?_cons_succ, hget, heq]
            simp
          have haddr : ((novaConfig3Nvmm d₀ ds).dataStartVirt +
              ((novaConfig3Nvmm d₀ ds).startBlock (h + r + 1) + o) * 4096 % 2 ^ 64) % 2 ^ 64 =
              (d.virtAddr + o * 4096) % 2 ^ 64 := by
            rw [hstart, hblock]
            unfold subU64
            omega
          rw [haddr]
          refine pageIn_iff (d := d) (by rw [List.getElem?_cons_succ]; exact hget) (le_refl _) hend
            ?_ (by omega) ?_ (by omega) ho
          · intro p h1 h2
            show p + 4096 ≤ d₀.virtAddr ∨ d₀.virtAddr + d₀.sizeInBytes ≤ p
            omega
          · simp only [pagesAt, hget, Option.map_some, Option.getD_some]
            congr 1
            omega

theorem stripingOk_config3_iff (hdevs : DevicesOk (d₀ :: ds)) (hne : ds ≠ []) (btype : BlockType) :
    StripingOk (d₀ :: ds) (novaConfig3Nvmm d₀ ds) btype ↔ ∀ h, IsLowest ds h → ∀ r < ds.length,
      share ds.length (novaGetNumblocks btype) (totalBytes ds / 4096) r ≤ pagesAt ds (h + r) := by
  obtain ⟨h, hlow, hnum, hplaces⟩ := config3_spec hdevs hne
  have hlen : 0 < ds.length := List.length_pos_of_ne_nil hne
  have hds : DevicesOk ds := by
    have happart := List.pairwise_cons.mp hdevs.apart
    exact ⟨fun e he => hdevs.aligned e (by simp [he]), fun e he => hdevs.nonempty e (by simp [he]),
      fun e he => hdevs.mapped e (by simp [he]), happart.2⟩
  have htotal := totalBytes_lt hds
  -- the lowest device is unique: two with one address would overlap
  have hunique : ∀ h', IsLowest ds h' → h' = h := by
    rintro h' ⟨d', hd', hall'⟩
    obtain ⟨d, hd, hall⟩ := hlow
    obtain ⟨hlen', rfl⟩ := List.getElem?_eq_some_iff.mp hd'
    obtain ⟨hlen, rfl⟩ := List.getElem?_eq_some_iff.mp hd
    have h1 := hall' _ (List.getElem_mem hlen)
    have h2 := hall _ (List.getElem_mem hlen')
    have hpos := hds.nonempty _ (List.getElem_mem hlen)
    have hpos' := hds.nonempty _ (List.getElem_mem hlen')
    have hpair := List.pairwise_iff_getElem.mp hds.apart
    by_contra hcon
    rcases Nat.lt_or_gt_of_ne hcon with hlt | hlt
    · have := hpair h' h hlen' hlen hlt
      omega
    · have := hpair h h' hlen hlen' hlt
      omega
  rw [stripingOk_iff hdevs btype hlen (by rw [hnum]; omega) hplaces, hnum]
  constructor
  · intro hfit h' hlow' r hr
    rw [hunique h' hlow']
    exact hfit r hr
  · intro hfit
    exact hfit h hlow

end Configs

/-- What is accepted is what was checked. -/
theorem checked_inj {l l' : NvmLayout} (h : (if l'.metaStartVirt = 0 ∨ l'.dataStartVirt = 0 then
    (Except.error Errno.einval : Except Errno NvmLayout) else .ok l') = .ok l) : l' = l := by
  by_cases hzero : l'.metaStartVirt = 0 ∨ l'.dataStartVirt = 0
  · rw [if_pos hzero] at h
    cases h
  · rw [if_neg hzero] at h
    exact Except.ok.inj h

/--
**Block striping.**  On a layout `nova_config_nvmm` accepts, distinct data blocks are
distinct pages of the data areas of the devices their indices name, exactly when the
devices suit the striping.
-/
theorem novaGetBlockOff_striping_iff {metaSeparate : Bool} {devs : List PmemDevice} {l : NvmLayout}
    (hdevs : DevicesOk devs) (haccept : novaConfigNvmm metaSeparate devs = .ok l)
    (btype : BlockType) : StripingOk devs l btype ↔ StripesFit metaSeparate devs btype := by
  match devs with
  | [] => cases haccept
  | [d] =>
      obtain rfl := checked_inj haccept
      exact iff_of_true (stripingOk_config1 hdevs btype) trivial
  | [d₀, d₁] =>
      obtain rfl := checked_inj haccept
      cases metaSeparate with
      | true => exact iff_of_true (stripingOk_config2Sep hdevs btype) (Or.inl rfl)
      | false =>
          show StripingOk [d₀, d₁] (novaConfig2Nvmm d₀ d₁) btype ↔ _
          rw [stripingOk_config2_iff hdevs btype]
          unfold StripesFit
          simp
  | d₀ :: d₁ :: d₂ :: ds =>
      obtain rfl := checked_inj haccept
      exact stripingOk_config3_iff hdevs (List.cons_ne_nil _ _) btype

/-- Two shared devices that suit the striping: four pages, two of them metadata, and two. -/
theorem novaGetBlockOff_striping_two :
    StripingOk [⟨0x10000, 0x4000⟩, ⟨0x20000, 0x2000⟩]
      (novaConfig2Nvmm ⟨0x10000, 0x4000⟩ ⟨0x20000, 0x2000⟩) .b4K :=
  (@novaGetBlockOff_striping_iff false _ _ ⟨by decide, by decide, by decide, by decide⟩ rfl
    .b4K).mpr (Or.inr (by decide))

/-- Two data devices of one size, the later one at the lower address: the index base is
the later device's, and the blocks of place 1 are sent to a device that does not exist. -/
theorem novaGetBlockOff_leaves_devices :
    ¬ ∀ (metaSeparate : Bool) (devs : List PmemDevice) (l : NvmLayout) (btype : BlockType),
      DevicesOk devs → novaConfigNvmm metaSeparate devs = .ok l → StripingOk devs l btype := by
  intro h
  have hdevs : DevicesOk [⟨0x10000, 0x2000⟩, ⟨0x30000, 0x2000⟩, ⟨0x20000, 0x2000⟩] :=
    ⟨by decide, by decide, by decide, by decide⟩
  have hbad := h false _ (novaConfig3Nvmm ⟨0x10000, 0x2000⟩ [⟨0x30000, 0x2000⟩, ⟨0x20000, 0x2000⟩])
    .b4K hdevs rfl
  rw [stripingOk_config3_iff hdevs (List.cons_ne_nil _ _)] at hbad
  have hlow : IsLowest [⟨0x30000, 0x2000⟩, ⟨0x20000, 0x2000⟩] 1 := ⟨_, rfl, by decide⟩
  exact absurd (hbad 1 hlow 1 (by decide)) (by decide)

end Parfs
