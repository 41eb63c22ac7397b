/-
When checksum slots are private.

Slots of one CPU never touch, and what they need is 32 bytes for each block of a CPU's share.  So
everything is a matter of room: the blocks set aside must have it, and they must lie in the CPU's
share of the metadata blocks, in front of the blocks reserved at the end.  None of this is checked
when the lists are made, and the number of blocks set aside follows from the size of all devices,
however small the share they are taken from.
-/
import Parfs.CsumSlots
import Parfs.Proofs.Layout
import Parfs.Proofs.BallocRun

namespace Parfs

open Lib

variable {l : NvmLayout} {g : SbGeometry} {r : ReservedBlocks} {cpu b : Nat}

/-- The allocator is set up for the layout. -/
structure GeometryOf (g : SbGeometry) (l : NvmLayout) : Prop where
  initsize : g.initsize = l.initsize
  metaBlocks : g.metaNumBlocks = l.metaNumBlocks
  dataBlocks : g.dataNumBlocks = l.dataNumBlocks

/-- What all configurations say of the metadata area. -/
structure MetaArea (l : NvmLayout) : Prop where
  one : l.metaNvmNum = 1
  head : l.metaHeadNvmIdx = 0
  start : l.startBlock 0 = 0
  blocks : l.metaNumBlocks = l.metaSize / 4096
  fits : l.metaStartVirt + l.metaSize ≤ 2 ^ 64

theorem metaArea_of_config {metaSeparate : Bool} {devs : List PmemDevice} (hdevs : DevicesOk devs)
    (haccept : novaConfigNvmm metaSeparate devs = .ok l) : MetaArea l := by
  match devs with
  | [] => cases haccept
  | [d] =>
      obtain rfl := checked_inj haccept
      have hpos := hdevs.nonempty d (by simp)
      have halign := (hdevs.aligned d (by simp)).2
      have hend := (hdevs.mapped d (by simp)).2
      have hround := roundupPowOfTwo_le (n := d.sizeInBytes / 3) (by omega)
      refine ⟨rfl, rfl, rfl, rfl, ?_⟩
      show d.virtAddr + roundupPowOfTwo (d.sizeInBytes / 3) ≤ 2 ^ 64
      omega
  | [d₀, d₁] =>
      obtain rfl := checked_inj haccept
      have hend := (hdevs.mapped d₀ (by simp)).2
      cases metaSeparate with
      | true => exact ⟨rfl, rfl, rfl, rfl, hend⟩
      | false =>
          refine ⟨rfl, rfl, config2_startBlock_zero, rfl, ?_⟩
          show d₀.virtAddr + d₀.sizeInBytes / 2 ≤ 2 ^ 64
          omega
  | d₀ :: d₁ :: d₂ :: ds =>
      obtain rfl := checked_inj haccept
      exact ⟨rfl, rfl, rfl, rfl, (hdevs.mapped d₀ (by simp)).2⟩

/-! ### One slot -/

/-- A block of the CPU's data list, by the bounds of the list. -/
def InDataList (g : SbGeometry) (cpu b : Nat) : Prop :=
  (novaInitFreeList g cpu .data).blockStart ≤ b ∧ b ≤ (novaInitFreeList g cpu .data).blockEnd

theorem perList_succ_le (g : SbGeometry) (t : AllocType) (hcpu : cpu < g.cpus) :
    g.perListBlocks t * (cpu + 1) < 2 ^ 52 :=
  g.perListBlocks_mul_le t hcpu

/-- The bounds of a data list, of a CPU that gets blocks. -/
theorem inDataList_iff (hper : 0 < g.perListBlocks .data) (hcpu : cpu < g.cpus) :
    InDataList g cpu b ↔ g.perListBlocks .data * cpu ≤ b ∧ b < g.perListBlocks .data * cpu + g.perListBlocks .data := by
  have hlt := perList_succ_le g .data hcpu
  rw [Nat.mul_succ] at hlt
  have hend : (novaInitFreeList g cpu .data).blockEnd = g.perListBlocks .data * cpu + g.perListBlocks .data - 1 := by
    show subU64 _ 1 = _
    rw [subU64_of_le (by omega) (by omega)]
  unfold InDataList
  rw [hend]
  show g.perListBlocks .data * cpu ≤ b ∧ _ ↔ _
  omega

/-- Where a slot is. -/
theorem novaGetDataCsumAddr_eq (harea : MetaArea l) (hcpu : cpu < g.cpus) (k : Nat) (hk : k < g.perListBlocks .data) :
    l.novaGetDataCsumAddr g r (g.perListBlocks .data * cpu + k) =
      some ((l.metaStartVirt + 4096 * (r.novaInitMetaList g cpu).csumStart + 32 * k) % 2 ^ 64) := by
  have hfound : (g.perListBlocks .data * cpu + k) / g.perListBlocks .data = cpu := by
    rw [Nat.add_comm, Nat.add_mul_div_left _ _ (by omega), Nat.div_eq_of_lt hk, Nat.zero_add]
  have hin : g.perListBlocks .data * cpu + k - cpu * g.perListBlocks .data = k := by
    rw [Nat.mul_comm cpu, Nat.add_sub_cancel_left]
  unfold NvmLayout.novaGetDataCsumAddr
  dsimp only
  rw [if_neg (by omega), hfound, if_neg (by omega), hin]
  unfold NvmLayout.novaGetVirtAddrFromOffset NvmLayout.novaGetBlockOff NvmLayout.novaBlknrToNvmidx
    NvmLayout.novaBlockToNvmoff novaBlknrToBlkidx
  simp only [harea.one, harea.head, harea.start, Nat.mod_one, Nat.div_one, novaGetNumblocks]
  congr 1
  omega

/-! ### All slots -/

/-- A slot is in the CPU's checksum area and nobody else's. -/
structure SlotOf (l : NvmLayout) (g : SbGeometry) (r : ReservedBlocks) (cpu a : Nat) : Prop where
  /-- in the csum region -/
  region : l.metaStartVirt + 4096 * (r.novaInitMetaList g cpu).csumStart ≤ a ∧
    a + 32 ≤ l.metaStartVirt + 4096 * ((r.novaInitMetaList g cpu).csumStart + (r.novaInitMetaList g cpu).numCsumBlocks)
  /-- in the CPU's share of the metadata blocks -/
  share : l.metaStartVirt + 4096 * (g.perListBlocks .log * cpu) ≤ a ∧
    a + 32 ≤ l.metaStartVirt + 4096 * (g.perListBlocks .log * (cpu + 1))
  /-- not in a block some CPU allocates -/
  allocatable : ∀ cpu' < g.cpus, ∀ blk, (r.novaInitMetaList g cpu').blockStart ≤ blk →
    blk ≤ (r.novaInitMetaList g cpu').blockEnd →
    a + 32 ≤ l.metaStartVirt + 4096 * blk ∨ l.metaStartVirt + 4096 * (blk + 1) ≤ a
  /-- behind the blocks reserved at the head -/
  head : l.metaStartVirt + 4096 * r.head ≤ a
  /-- in front of the ones at the end of the metadata -/
  tail : a + 32 + 4096 * r.tail ≤ l.metaStartVirt + l.metaSize

/-- **Checksum slots are private.** -/
structure SlotsPrivate (l : NvmLayout) (g : SbGeometry) (r : ReservedBlocks) : Prop where
  /-- every block of a data list has a slot -/
  slot : ∀ cpu < g.cpus, ∀ b, InDataList g cpu b → ∃ a, l.novaGetDataCsumAddr g r b = some a ∧ SlotOf l g r cpu a
  /-- no two slots touch -/
  apart : ∀ cpu < g.cpus, ∀ cpu' < g.cpus, ∀ b b', InDataList g cpu b → InDataList g cpu' b' → b ≠ b' →
    ∀ a a', l.novaGetDataCsumAddr g r b = some a → l.novaGetDataCsumAddr g r b' = some a' → a + 32 ≤ a' ∨ a' + 32 ≤ a

/-- Every CPU has blocks, and room for their checksums: in the blocks set aside, in its share of
the metadata, and in front of the reserved blocks at the end. -/
def CsumsFit (l : NvmLayout) (g : SbGeometry) (r : ReservedBlocks) : Prop :=
  0 < g.perListBlocks .data ∧ ∀ cpu < g.cpus,
    g.perListBlocks .data ≤ 128 * (r.novaInitMetaList g cpu).numCsumBlocks ∧
    4096 * (r.novaInitMetaList g cpu).csumStart + 32 * g.perListBlocks .data ≤
      4096 * (g.perListBlocks .log * (cpu + 1)) ∧
    4096 * (r.novaInitMetaList g cpu).csumStart + 32 * g.perListBlocks .data + 4096 * r.tail ≤ l.metaSize

section Lists

variable (r : ReservedBlocks) (g : SbGeometry) (cpu : Nat)

theorem csumStart_eq : (r.novaInitMetaList g cpu).csumStart =
    g.perListBlocks .log * cpu + if cpu = 0 then r.head else 0 := by
  show (if cpu = 0 then _ else _) = _
  split <;> rfl

theorem blockStart_eq : (r.novaInitMetaList g cpu).blockStart =
    (r.novaInitMetaList g cpu).csumStart + (r.novaInitMetaList g cpu).numCsumBlocks := by
  have hle : (r.novaInitMetaList g cpu).csumStart ≤ (r.novaInitMetaList g cpu).blockStart := by
    unfold ReservedBlocks.novaInitMetaList
    dsimp only
    generalize (if cpu = 0 then _ else _ : Nat) = start
    generalize g.dataCsumBlocks / g.cpus = blocks
    split <;> omega
  exact (Nat.add_sub_cancel' hle).symm

theorem numCsumBlocks_eq : (r.novaInitMetaList g cpu).numCsumBlocks =
    g.initsize / 2 ^ 19 / g.cpus + if g.initsize / 2 ^ 19 % g.cpus ≠ 0 then 1 else 0 := by
  have hlt := g.initsize_lt
  have hblocks : g.dataCsumBlocks = g.initsize / 2 ^ 19 := by
    unfold SbGeometry.dataCsumBlocks
    omega
  unfold ReservedBlocks.novaInitMetaList
  dsimp only
  rw [hblocks]
  generalize (if cpu = 0 then _ else _ : Nat) = start
  generalize g.initsize / 2 ^ 19 / g.cpus = blocks
  split <;> omega

/-- Of the lists only the last one has reserved blocks at its end. -/
theorem blockEnd_lt (hper : 0 < g.perListBlocks .log) (hcpu : cpu + 1 < g.cpus) :
    (r.novaInitMetaList g cpu).blockEnd < g.perListBlocks .log * (cpu + 1) := by
  have hlt := perList_succ_le g .log (Nat.lt_of_succ_lt hcpu)
  rw [Nat.mul_succ] at hlt ⊢
  show (if cpu = g.cpus - 1 then _ else subU64 _ 1) < _
  rw [if_neg (by omega), subU64_of_le (by omega) (by omega)]
  omega

end Lists

/-- The slots of a CPU with room, without the wrap-around. -/
theorem slot_addr (harea : MetaArea l) (hfit : CsumsFit l g r) (hcpu : cpu < g.cpus) {k : Nat}
    (hk : k < g.perListBlocks .data) : l.novaGetDataCsumAddr g r (g.perListBlocks .data * cpu + k) =
      some (l.metaStartVirt + 4096 * (r.novaInitMetaList g cpu).csumStart + 32 * k) := by
  have hroom := (hfit.2 cpu hcpu).2.2
  have hend := harea.fits
  rw [novaGetDataCsumAddr_eq harea hcpu k hk, Nat.mod_eq_of_lt (by omega)]

theorem slotOf_addr (hfit : CsumsFit l g r) (hcpu : cpu < g.cpus) {k : Nat} (hk : k < g.perListBlocks .data) :
    SlotOf l g r cpu (l.metaStartVirt + 4096 * (r.novaInitMetaList g cpu).csumStart + 32 * k) := by
  obtain ⟨hpages, hshare, hroom⟩ := hfit.2 cpu hcpu
  have hstart := csumStart_eq r g cpu
  have hper : 0 < g.perListBlocks .log := by
    rcases Nat.eq_zero_or_pos (g.perListBlocks .log) with hzero | hpos
    · rw [hzero, Nat.zero_mul] at hshare
      omega
    · exact hpos
  refine ⟨⟨by omega, by omega⟩, ⟨by omega, by omega⟩, fun cpu' hcpu' blk hlo hhi => ?_, ?_, by omega⟩
  · rw [blockStart_eq] at hlo
    have hstart' := csumStart_eq r g cpu'
    rcases lt_trichotomy cpu cpu' with hlt | rfl | hgt
    · have hmul : g.perListBlocks .log * (cpu + 1) ≤ g.perListBlocks .log * cpu' := Nat.mul_le_mul_left _ hlt
      exact Or.inl (by omega)
    · exact Or.inl (by omega)
    · have hmul : g.perListBlocks .log * (cpu' + 1) ≤ g.perListBlocks .log * cpu := Nat.mul_le_mul_left _ hgt
      have hlast := blockEnd_lt r g cpu' hper (by omega)
      exact Or.inr (by omega)
  · by_cases hzero : cpu = 0
    · rw [if_pos hzero] at hstart
      omega
    · -- the head is in the share of the first CPU, beside its slots
      obtain ⟨-, hfirst, -⟩ := hfit.2 0 (by omega)
      have hstart₀ := csumStart_eq r g 0
      rw [if_pos rfl] at hstart₀
      have hmul : g.perListBlocks .log * (0 + 1) ≤ g.perListBlocks .log * cpu :=
        Nat.mul_le_mul_left _ (Nat.pos_of_ne_zero hzero)
      omega

theorem slotsPrivate_of_fit (harea : MetaArea l) (hfit : CsumsFit l g r) : SlotsPrivate l g r := by
  have hin : ∀ cpu < g.cpus, ∀ b, InDataList g cpu b →
      ∃ k < g.perListBlocks .data, b = g.perListBlocks .data * cpu + k := by
    intro cpu hcpu b hb
    rw [inDataList_iff hfit.1 hcpu] at hb
    exact ⟨b - g.perListBlocks .data * cpu, by omega, by omega⟩
  constructor
  · intro cpu hcpu b hb
    obtain ⟨k, hk, rfl⟩ := hin cpu hcpu b hb
    exact ⟨_, slot_addr harea hfit hcpu hk, slotOf_addr hfit hcpu hk⟩
  · intro cpu hcpu cpu' hcpu' b b' hb hb' hne a a' ha ha'
    obtain ⟨k, hk, rfl⟩ := hin cpu hcpu b hb
    obtain ⟨k', hk', rfl⟩ := hin cpu' hcpu' b' hb'
    rw [slot_addr harea hfit hcpu hk] at ha
    rw [slot_addr harea hfit hcpu' hk'] at ha'
    cases ha
    cases ha'
    have hslot := (slotOf_addr hfit hcpu hk).share
    have hslot' := (slotOf_addr hfit hcpu' hk').share
    rcases lt_trichotomy cpu cpu' with hlt | rfl | hgt
    · have hmul : g.perListBlocks .log * (cpu + 1) ≤ g.perListBlocks .log * cpu' := Nat.mul_le_mul_left _ hlt
      exact Or.inl (by omega)
    · omega
    · have hmul : g.perListBlocks .log * (cpu' + 1) ≤ g.perListBlocks .log * cpu := Nat.mul_le_mul_left _ hgt
      exact Or.inr (by omega)

theorem fit_of_slotsPrivate (harea : MetaArea l) (hpriv : SlotsPrivate l g r) : CsumsFit l g r := by
  have hper : 0 < g.perListBlocks .data := by
    rcases Nat.eq_zero_or_pos (g.perListBlocks .data) with hzero | hpos
    · -- the list of no blocks runs to the end of the block numbers
      have hb : InDataList g 0 0 := ⟨by show g.perListBlocks .data * 0 ≤ 0; omega, Nat.zero_le _⟩
      obtain ⟨a, ha, -⟩ := hpriv.slot 0 g.cpus_pos 0 hb
      simp [NvmLayout.novaGetDataCsumAddr, hzero] at ha
    · exact hpos
  refine ⟨hper, fun cpu hcpu => ?_⟩
  have hlt := perList_succ_le g .data hcpu
  rw [Nat.mul_succ] at hlt
  have hslot : ∀ k < g.perListBlocks .data,
      SlotOf l g r cpu ((l.metaStartVirt + 4096 * (r.novaInitMetaList g cpu).csumStart + 32 * k) % 2 ^ 64) := by
    intro k hk
    obtain ⟨a, ha, hslot⟩ := hpriv.slot cpu hcpu (g.perListBlocks .data * cpu + k)
      ((inDataList_iff hper hcpu).2 ⟨by omega, by omega⟩)
    rw [novaGetDataCsumAddr_eq harea hcpu k hk] at ha
    cases ha
    exact hslot
  -- the first and the last slot of the CPU
  have hfirst := (hslot 0 hper).region
  have hlast := hslot (g.perListBlocks .data - 1) (by omega)
  have hregion := hlast.region
  have hshare := hlast.share
  have htail := hlast.tail
  omega

/-- The room for checksums, in the numbers of the layout: every CPU has data blocks, as many
blocks are set aside as their checksums fill, and these lie in the CPU's share of the metadata and
in front of the blocks reserved at its end. -/
def RoomForCsums (l : NvmLayout) (cpus : Nat) (r : ReservedBlocks) : Prop :=
  0 < l.dataNumBlocks / cpus ∧ ∀ cpu < cpus,
    l.dataNumBlocks / cpus ≤
      128 * (l.initsize / 2 ^ 19 / cpus + if l.initsize / 2 ^ 19 % cpus ≠ 0 then 1 else 0) ∧
    4096 * (l.metaNumBlocks / cpus * cpu + if cpu = 0 then r.head else 0) + 32 * (l.dataNumBlocks / cpus) ≤
      4096 * (l.metaNumBlocks / cpus * (cpu + 1)) ∧
    4096 * (l.metaNumBlocks / cpus * cpu + if cpu = 0 then r.head else 0) + 32 * (l.dataNumBlocks / cpus) +
      4096 * r.tail ≤ l.metaSize

instance (l : NvmLayout) (cpus : Nat) (r : ReservedBlocks) : Decidable (RoomForCsums l cpus r) :=
  inferInstanceAs (Decidable (_ ∧ _))

theorem csumsFit_iff (hgeo : GeometryOf g l) : CsumsFit l g r ↔ RoomForCsums l g.cpus r := by
  unfold CsumsFit RoomForCsums
  simp only [csumStart_eq, numCsumBlocks_eq, SbGeometry.perListBlocks, hgeo.initsize, hgeo.metaBlocks, hgeo.dataBlocks]

/-- **Slots are private exactly when there is room for them.** -/
theorem novaGetDataCsumAddr_private_iff {metaSeparate : Bool} {devs : List PmemDevice} (hdevs : DevicesOk devs)
    (haccept : novaConfigNvmm metaSeparate devs = .ok l) (hgeo : GeometryOf g l) (r : ReservedBlocks) :
    SlotsPrivate l g r ↔ RoomForCsums l g.cpus r := by
  have harea := metaArea_of_config hdevs haccept
  rw [← csumsFit_iff hgeo]
  exact ⟨fit_of_slotsPrivate harea, slotsPrivate_of_fit harea⟩

/-- The allocator's geometry for a layout, with two CPUs. -/
def twoCpus (l : NvmLayout) (hinit : l.initsize < 2 ^ 64) (hmeta : l.metaNumBlocks < 2 ^ 52)
    (hdata : l.dataNumBlocks < 2 ^ 52) : SbGeometry :=
  ⟨2, by decide, l.initsize, l.metaNumBlocks, l.dataNumBlocks, hinit, hmeta, hdata⟩

/-- One gigabyte of metadata and one of data. -/
def evenLayout : NvmLayout := novaConfig2NvmmMetaDataSep ⟨0x100000000, 0x40000000⟩ ⟨0x200000000, 0x40000000⟩

/-- One gigabyte of metadata, and two devices of 128 for data. -/
def smallMeta : NvmLayout :=
  novaConfig3Nvmm ⟨0x100000000, 0x40000000⟩ [⟨0x2000000000, 0x2000000000⟩, ⟨0x4000000000, 0x2000000000⟩]

theorem novaGetDataCsumAddr_private_even : SlotsPrivate evenLayout
    (twoCpus evenLayout (by decide) (by decide) (by decide)) ⟨headReservedBlocks, tailReservedBlocks⟩ := by
  have haccept : novaConfigNvmm true [⟨0x100000000, 0x40000000⟩, ⟨0x200000000, 0x40000000⟩] = .ok evenLayout := rfl
  exact (novaGetDataCsumAddr_private_iff ⟨by decide, by decide, by decide, by decide⟩ haccept ⟨rfl, rfl, rfl⟩ _).2
    (by decide)

/-- The checksums of the first CPU's blocks go on into the second CPU's metadata: block 16769024
and the first block of the second CPU have one slot. -/
theorem novaGetDataCsumAddr_shared :
    ¬∀ (metaSeparate : Bool) (devs : List PmemDevice) (l : NvmLayout) (g : SbGeometry) (r : ReservedBlocks),
      DevicesOk devs → novaConfigNvmm metaSeparate devs = .ok l → GeometryOf g l → SlotsPrivate l g r := by
  intro h
  have hpriv := h true [⟨0x100000000, 0x40000000⟩, ⟨0x2000000000, 0x2000000000⟩, ⟨0x4000000000, 0x2000000000⟩]
    smallMeta (twoCpus smallMeta (by decide) (by decide) (by decide)) ⟨headReservedBlocks, tailReservedBlocks⟩
    ⟨by decide, by decide, by decide, by decide⟩ rfl ⟨rfl, rfl, rfl⟩
  have hapart := hpriv.apart 0 (by decide) 1 (by decide) 16769024 33554432 ⟨by decide, by decide⟩ ⟨by decide, by decide⟩
    (by decide) (0x100000000 + 4096 * 131072) (0x100000000 + 4096 * 131072)
    (by decide +kernel) (by decide +kernel)
  omega

end Parfs
