/-
Where the checksums of data blocks lie.

Every CPU has a share of the metadata blocks.  Its first blocks are set aside for the checksums of
the CPU's share of the data blocks, 32 bytes a block, one slot behind the other.  How many are set
aside follows from the size of all devices, where a slot is from the number of data blocks.
-/
import Parfs.Layout

namespace Parfs

open Lib

/-- `head_reserved_blocks` and `tail_reserved_blocks` -/
structure ReservedBlocks where
  head : Nat
  tail : Nat
  deriving DecidableEq, Repr

/-- `nova_init_free_list` for a metadata list, with the `nova_data_csum_init_free_list` in it. -/
def ReservedBlocks.novaInitMetaList (r : ReservedBlocks) (g : SbGeometry) (index : Nat) : SubFreeList :=
  let perListBlocks := g.perListBlocks .log
  let blockStart := perListBlocks * index
  let blockEnd := subU64 (blockStart + perListBlocks) 1
  let blockStart := if index = 0 then blockStart + r.head else blockStart
  let blockEnd := if index = g.cpus - 1 then subU64 blockEnd r.tail else blockEnd
  let csumStart := blockStart
  let blockStart := blockStart + g.dataCsumBlocks / g.cpus
  let blockStart := if g.dataCsumBlocks % g.cpus ≠ 0 then blockStart + 1 else blockStart
  { SubFreeList.zero with
    csumStart := csumStart
    numCsumBlocks := blockStart - csumStart
    blockStart := blockStart
    blockEnd := blockEnd }

/-- The list of the module about allocation is the one with the numbers the mount sets. -/
theorem novaInitFreeList_log (g : SbGeometry) (index : Nat) :
    novaInitFreeList g index .log =
      ReservedBlocks.novaInitMetaList ⟨headReservedBlocks, tailReservedBlocks⟩ g index := rfl

/-- `nova_get_data_csum_addr(sb, blocknr, 0)`: none for `NULL`, and when the CPU is not found
because lists of no blocks divide by zero. -/
def NvmLayout.novaGetDataCsumAddr (l : NvmLayout) (g : SbGeometry) (r : ReservedBlocks) (blocknr : Nat) : Option Nat :=
  let perDataListBlocks := g.perListBlocks .data
  if perDataListBlocks = 0 then none
  else
    -- `nova_block_to_cpu`
    let cpu := blocknr / perDataListBlocks
    if cpu ≥ g.cpus then none
    else
      let strpNr := (blocknr - cpu * perDataListBlocks) * 8
      let strpBlock := strpNr * 4 / 4096
      let strpBlockOff := strpNr * 4 % 4096
      let blockoff := l.novaGetBlockOff ((r.novaInitMetaList g cpu).csumStart + strpBlock) .b4K .log
      some ((l.novaGetVirtAddrFromOffset blockoff .log + strpBlockOff) % 2 ^ 64)

end Parfs
