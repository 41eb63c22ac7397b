/-
Changing the size of a file.

When a file shrinks into a page, the rest of the page is cleared, and with checksums its block is
protected again; the pages behind are cut.  The memory here is that of the data area, by offsets
from its start: a block is at the offset `nova_get_block_off` gives.

It is a regular file.  Parity and the counters are left out.
-/
import Parfs.Checksum
import Parfs.FileHoles
import Parfs.Layout

namespace Parfs

open Lib

/-- The call; the old size is `inode->i_size` too. -/
structure SetsizeCall where
  oldsize : Nat
  newsize : Nat
  epochId : Nat
  /-- the epochs in `snapshot_info_tree` -/
  snapshots : List Nat
  /-- `data_csum > 0` -/
  dataCsum : Bool
  /-- whether there is a buffer for a block -/
  kmalloc : Bool
  zeroCsum : Nat → UInt32

/-- What it comes to: the file, the data area, the size, and what was done to the checksums. -/
structure SetsizeResult where
  file : FileTree
  mem : ByteMem
  iSize : Nat
  csums : CsumSlots → CsumSlots

/-- `nova_find_nvmm_block`: zero for a hole. -/
def NvmLayout.novaFindNvmmBlock (l : NvmLayout) (f : FileTree) (pgoff : Nat) : Nat :=
  match f.tree.slot pgoff with
  | none => 0
  | some entry => l.novaGetBlockOff (getNvmm (f.entries entry) pgoff) .b4K .data

/-- `nova_get_blocknr` -/
def novaGetBlocknr (block : Nat) : Nat := block / 4096

namespace SetsizeCall

variable (c : SetsizeCall) (l : NvmLayout) (f : FileTree) (m : ByteMem)

/-- `nova_update_truncated_block_csum`, with the block copied to a buffer. -/
def novaUpdateTruncatedBlockCsum (s : CsumSlots) : CsumSlots :=
  let nvmm := l.novaFindNvmmBlock f (c.newsize / 4096)
  if !c.kmalloc then s
  else (novaUpdateBlockCsum c.zeroCsum (fun o => m (nvmm + o)) false 4096 (novaGetBlocknr nvmm) 0 s).2

/-- `nova_clear_last_page_tail` -/
def novaClearLastPageTail : ByteMem × (CsumSlots → CsumSlots) :=
  let offset := c.newsize % 4096
  if offset = 0 ∨ c.newsize > c.oldsize then (m, id)
  else
    let nvmm := l.novaFindNvmmBlock f (c.newsize / 4096)
    let m := m.write (nvmm + offset) (List.replicate (4096 - offset) 0)
    (m, if c.dataCsum then c.novaUpdateTruncatedBlockCsum l f m else id)

/-- `nova_setsize` -/
def novaSetsize : SetsizeResult :=
  let cleared := if c.newsize ≠ c.oldsize then c.novaClearLastPageTail l f m else (m, id)
  { file := novaTruncateFileBlocks c.snapshots f c.newsize c.oldsize c.epochId
    mem := cleared.1
    iSize := c.newsize
    csums := cleared.2 }

end SetsizeCall

end Parfs
