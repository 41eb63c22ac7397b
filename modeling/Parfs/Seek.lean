/-
Seeking to data and to holes.

`nova_find_region` looks at the pages from the one of the offset to the one of the size, the page
behind the last one when the size is a whole number of pages.  What it returns is an error code
or zero, and `nova_llseek` keeps 32 bits of it.
-/
import Parfs.FileHoles

namespace Parfs

open Lib

/-- What a seek reads of an inode and its header. -/
structure SeekInode where
  file : FileTree
  /-- `inode->i_size` -/
  isize : Nat
  /-- `inode->i_blocks` -/
  iblocks : Nat
  /-- `sih->i_size` -/
  sihSize : Nat

/-- `nova_find_region`: what it returns, and the offset after it. -/
def novaFindRegion (i : SeekInode) (offset : Nat) (hole : Bool) : Nat × Nat :=
  if offset ≥ i.isize then (intToU64 (-Errno.enxio.code), offset)
  else if i.iblocks = 0 ∨ i.sihSize = 0 then
    if hole then (i.isize, offset) else (intToU64 (-Errno.enxio.code), offset)
  else
    let offsetInBlock := offset % 4096
    let r := novaLookupHoleInRange i.file (offset / 4096) (i.isize / 4096) hole
    -- searching data but only hole found till the end
    if !hole && !r.dataFound && r.holeFound then (intToU64 (-Errno.enxio.code), offset)
    else if r.dataFound && !r.holeFound then
      -- searching hole but only data found, go to the end
      (0, if hole then i.isize else offset)
    else if hole && r.holeFound && decide (r.blocks = 0) then
      -- starting inside a hole, the last one when no data is behind it
      (0, if !r.dataFound then i.isize else offset)
    else if offsetInBlock ≠ 0 then (0, offset + (r.blocks - 1) * 4096 + (4096 - offsetInBlock))
    else (0, offset + r.blocks * 4096)

/-- The `SEEK_DATA` and `SEEK_HOLE` of `nova_llseek`: what it returns, and the position of the file
after it. -/
def novaLlseek (sMaxbytes : Nat) (i : SeekInode) (fPos offset : Nat) (hole : Bool) : Int × Nat :=
  let region := novaFindRegion i offset hole
  let retval := toS32 region.1
  if retval ≠ 0 then (retval, fPos)
  else if region.2 > sMaxbytes then (-Errno.enxio.code, fPos)
  else (region.2, region.2)

end Parfs
