/-
Where blocks live.

The mounted device array is turned into one metadata area and one or more data areas,
and block numbers into addresses: a block number picks a device by striping, the
device's `start_block` is added, and the result is an offset from the start of the
lowest data device.  `start_block` may be a "negative" distance; it is stored as an
unsigned page number and the final addition wraps back, so all address arithmetic here
is modulo 2^64.
-/
import Parfs.Balloc

namespace Parfs

open Lib

/-- One entry of `pmem_ar_dev`: `virt_addr[i]` and `size_in_bytes[i]`. -/
structure PmemDevice where
  virtAddr : Nat
  sizeInBytes : Nat
  deriving DecidableEq, Repr

/-- What `nova_config_nvmm` sets in `struct nova_sb_info`. -/
structure NvmLayout where
  metaStartVirt : Nat
  /-- `meta_size`, a local variable there -/
  metaSize : Nat
  metaNumBlocks : Nat
  metaHeadNvmIdx : Nat
  metaNvmNum : Nat
  dataStartVirt : Nat
  dataNumBlocks : Nat
  dataHeadNvmIdx : Nat
  dataNvmNum : Nat
  initsize : Nat
  /-- `block_info[i].start_block` -/
  startBlock : Nat → Nat

/-- `roundup_pow_of_two` -/
def roundupPowOfTwo (n : Nat) : Nat := if n ≤ 1 then 1 else 2 ^ (Nat.log2 (n - 1) + 1)

/-- `nova_config_1_nvmm` -/
def novaConfig1Nvmm (d : PmemDevice) : NvmLayout :=
  let metaSize := roundupPowOfTwo (d.sizeInBytes / 3)
  let dataSize := subU64 d.sizeInBytes metaSize
  { metaStartVirt := d.virtAddr
    metaSize := metaSize
    metaNumBlocks := metaSize / 4096
    metaHeadNvmIdx := 0
    metaNvmNum := 1
    dataStartVirt := (d.virtAddr + metaSize) % 2 ^ 64
    dataNumBlocks := dataSize / 4096
    dataHeadNvmIdx := 0
    dataNvmNum := 1
    initsize := (metaSize + dataSize) % 2 ^ 64
    startBlock := fun _ => 0 }

/-- `nova_config_2_nvmm_meta_data_sep` -/
def novaConfig2NvmmMetaDataSep (d₀ d₁ : PmemDevice) : NvmLayout where
  metaStartVirt := d₀.virtAddr
  metaSize := d₀.sizeInBytes
  metaNumBlocks := d₀.sizeInBytes / 4096
  metaHeadNvmIdx := 0
  metaNvmNum := 1
  dataStartVirt := d₁.virtAddr
  dataNumBlocks := d₁.sizeInBytes / 4096
  dataHeadNvmIdx := 1
  dataNvmNum := 1
  initsize := (d₀.sizeInBytes + d₁.sizeInBytes) % 2 ^ 64
  startBlock := fun _ => 0

/-- `nova_config_2_nvmm` -/
def novaConfig2Nvmm (d₀ d₁ : PmemDevice) : NvmLayout :=
  let metaSize := d₀.sizeInBytes / 2
  let dataSize := d₀.sizeInBytes
  let dataStartVirt := (d₀.virtAddr + metaSize) % 2 ^ 64
  { metaStartVirt := d₀.virtAddr
    metaSize := metaSize
    metaNumBlocks := metaSize / 4096
    metaHeadNvmIdx := 0
    metaNvmNum := 1
    dataStartVirt := dataStartVirt
    dataNumBlocks := dataSize / 4096
    dataHeadNvmIdx := 0
    dataNvmNum := 2
    initsize := (metaSize + dataSize) % 2 ^ 64
    startBlock := fun i => if i = 1 then subU64 d₁.virtAddr dataStartVirt / 4096 else 0 }

/-- The first loop of `nova_config_3_nvmm`: `data_size`, `data_start_virt` (0 for `NULL`)
and `data_head_nvm_idx`, with `i` the next index. -/
def lowestLoop (dataSize dataStartVirt dataHeadNvmIdx : Nat) : Nat → List PmemDevice → Nat × Nat × Nat
  | _, [] => (dataSize, dataStartVirt, dataHeadNvmIdx)
  | i, d :: ds =>
    if dataStartVirt > d.virtAddr ∨ dataStartVirt = 0 then
      lowestLoop ((dataSize + d.sizeInBytes) % 2 ^ 64) d.virtAddr i (i + 1) ds
    else
      lowestLoop ((dataSize + d.sizeInBytes) % 2 ^ 64) dataStartVirt dataHeadNvmIdx (i + 1) ds

/-- `nova_config_3_nvmm`: the first device for metadata, the others for data. -/
def novaConfig3Nvmm (d₀ : PmemDevice) (ds : List PmemDevice) : NvmLayout :=
  let lowest := lowestLoop 0 0 0 1 ds
  { metaStartVirt := d₀.virtAddr
    metaSize := d₀.sizeInBytes
    metaNumBlocks := d₀.sizeInBytes / 4096
    metaHeadNvmIdx := 0
    metaNvmNum := 1
    dataStartVirt := lowest.2.1
    dataNumBlocks := lowest.1 / 4096
    dataHeadNvmIdx := lowest.2.2
    dataNvmNum := ds.length
    initsize := (d₀.sizeInBytes + lowest.1) % 2 ^ 64
    startBlock := fun i =>
      match (d₀ :: ds)[i]? with
      | some d => if i = 0 then 0 else subU64 d.virtAddr lowest.2.1 / 4096
      | none => 0 }

/-- `nova_config_nvmm`; `metaSeparate` is `NOVA_META_SEPARATE`. -/
def novaConfigNvmm (metaSeparate : Bool) (devs : List PmemDevice) : Except Errno NvmLayout :=
  let checked (l : NvmLayout) : Except Errno NvmLayout :=
    if l.metaStartVirt = 0 ∨ l.dataStartVirt = 0 then .error .einval else .ok l
  match devs with
  | [] => .error .einval
  | [d] => checked (novaConfig1Nvmm d)
  | [d₀, d₁] =>
    checked (if metaSeparate then novaConfig2NvmmMetaDataSep d₀ d₁ else novaConfig2Nvmm d₀ d₁)
  | d₀ :: ds => checked (novaConfig3Nvmm d₀ ds)

/-- `nova_blknr_to_blkidx` -/
def novaBlknrToBlkidx (blknr : Nat) (btype : BlockType) : Nat := blknr / novaGetNumblocks btype

namespace NvmLayout

variable (l : NvmLayout)

/-- `nova_blknr_to_nvmidx` -/
def novaBlknrToNvmidx (blknr : Nat) (btype : BlockType) : AllocType → Nat
  | .log => novaBlknrToBlkidx blknr btype % l.metaNvmNum + l.metaHeadNvmIdx
  | .data => novaBlknrToBlkidx blknr btype % l.dataNvmNum + l.dataHeadNvmIdx

/-- `nova_block_to_nvmoff` -/
def novaBlockToNvmoff (blocknr : Nat) (btype : BlockType) (atype : AllocType) : Nat :=
  let blkidx := novaBlknrToBlkidx blocknr btype
  let off := match atype with
    | .log => blkidx / l.metaNvmNum
    | .data => blkidx / l.dataNvmNum
  off * novaGetNumblocks btype + blocknr % novaGetNumblocks btype

/-- `nova_get_block_off` -/
def novaGetBlockOff (blocknr : Nat) (btype : BlockType) (atype : AllocType) : Nat :=
  (l.startBlock (l.novaBlknrToNvmidx blocknr btype atype) +
    l.novaBlockToNvmoff blocknr btype atype) * 4096 % 2 ^ 64

/-- `nova_get_virt_addr_from_offset` -/
def novaGetVirtAddrFromOffset (off : Nat) : AllocType → Nat
  | .log => (l.metaStartVirt + off) % 2 ^ 64
  | .data => (l.dataStartVirt + off) % 2 ^ 64

end NvmLayout

end Parfs
