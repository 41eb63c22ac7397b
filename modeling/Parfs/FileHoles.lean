/-
Holes of a file.

Where a page is not mapped, the code looks for the next entry of the tree and goes by the page
that entry starts at, not by the page it was found under: a write in place and
`nova_fallocate` take the pages up to there for the hole, and the search for holes goes on
from there.

As in the module about the pages, entries in memory verify their checksums.
-/
import Parfs.FileWrite
import Parfs.Log

namespace Parfs

open Lib

/-- What `nova_check_existing_entry` comes to. -/
structure ExistingEntry where
  /-- `*ret_entry` -/
  entry : Option Nat
  inplace : Bool
  entBlks : Nat
  deriving DecidableEq, Repr

/-- `nova_check_existing_entry` -/
def novaCheckExistingEntry (f : FileTree) (numBlocks startBlk : Nat) (checkNext : Bool) (epochId : Nat) :
    Except Fault ExistingEntry :=
  match f.tree.slot startBlk with
  | some entry =>
    .ok ⟨some entry, decide ((f.entries entry).epochId = epochId), entBlks (f.entries entry) numBlocks startBlk⟩
  | none =>
    if checkNext then
      -- possible hole
      match novaFindNextEntry f startBlk with
      | some entry =>
        let nextPgoff := (f.entries entry).pgoff
        if nextPgoff ≤ startBlk then .error .bug
        else .ok ⟨none, false, min (nextPgoff - startBlk) numBlocks⟩
      | none => .ok ⟨none, false, numBlocks⟩
    else .ok ⟨none, false, 0⟩

/-! ### Searching -/

/-- What `nova_lookup_hole_in_range` comes to. -/
structure HoleLookup where
  blocks : Nat
  dataFound : Bool
  holeFound : Bool
  deriving DecidableEq, Repr

/-- The loop of `nova_lookup_hole_in_range`, with a bound on its turns. -/
def lookupHoleLoop (f : FileTree) (lastBlocknr : Nat) (hole : Bool) : Nat → Nat → HoleLookup → HoleLookup
  | 0, _, r => r
  | fuel + 1, pgoff, r =>
    if pgoff ≤ lastBlocknr then
      match f.tree.slot pgoff with
      | some _ =>
        let r := { r with dataFound := true }
        if !hole then r
        else
          let r := if !r.holeFound ∨ !hole then { r with blocks := r.blocks + 1 } else r
          lookupHoleLoop f lastBlocknr hole fuel (pgoff + 1) r
      | none =>
        let r := { r with holeFound := true }
        let next :=
          match novaFindNextEntry f pgoff with
          | some entry =>
            let next := if pgoff + 1 > (f.entries entry).pgoff then pgoff + 1 else (f.entries entry).pgoff
            if next > lastBlocknr then lastBlocknr + 1 else next
          | none => pgoff + 1
        let r := if !r.holeFound ∨ !hole then { r with blocks := r.blocks + (next - pgoff) } else r
        lookupHoleLoop f lastBlocknr hole fuel next r
    else r

/-- `nova_lookup_hole_in_range` -/
def novaLookupHoleInRange (f : FileTree) (firstBlocknr lastBlocknr : Nat) (hole : Bool) : HoleLookup :=
  lookupHoleLoop f lastBlocknr hole (lastBlocknr + 1 - firstBlocknr) firstBlocknr ⟨0, false, false⟩

/-! ### Truncation -/

/-- `nova_truncate_file_blocks`, of the file's pages; `end` is the old size. -/
def novaTruncateFileBlocks (snapshots : List Nat) (f : FileTree) (start endp epochId : Nat) : FileTree :=
  let firstBlocknr := (start + 4095) / 4096
  let lastBlocknr := if endp = 0 then 0 else (endp - 1) / 4096
  if firstBlocknr > lastBlocknr then f else novaDeleteFileTree snapshots f firstBlocknr true false epochId

/-! ### Reserving pages -/

/-- The variables of the loop of `nova_fallocate`. -/
structure FallocLoop where
  file : FileTree
  startBlk : Nat
  numBlocks : Nat

/-- What stays the same in it. -/
structure FallocCall where
  newSize : Nat
  epochId : Nat
  time : Nat
  /-- `sih->trans_id` -/
  transId : Nat
  /-- the epochs in `snapshot_info_tree` -/
  snapshots : List Nat

/-- What happens in a turn, where it gets so far. -/
structure FallocTurn where
  /-- `nova_new_data_blocks` -/
  alloc : NewBlocks
  append : AppendWrite
  /-- the checksum of the entry, and that of one that is updated -/
  entryCsum : Nat

/-- `nova_init_file_write_entry` -/
def fallocEntry (c : FallocCall) (w : FallocLoop) (t : FallocTurn) : NovaFileWriteEntry where
  reassigned := 0
  updating := 0
  numPages := t.alloc.ret.toNat
  blocknr := t.alloc.blocknr
  pgoff := w.startBlk
  invalidPages := 0
  mtime := c.time
  size := c.newSize
  epochId := c.epochId
  transId := c.transId
  csum := t.entryCsum

/-- The turn is over. -/
def FallocLoop.advance (w : FallocLoop) (file : FileTree) (allocated : Nat) : FallocLoop :=
  ⟨file, w.startBlk + allocated, w.numBlocks - allocated⟩

/-- One turn of the loop. -/
def fallocTurn (c : FallocCall) (w : FallocLoop) (t : FallocTurn) : Except Fault (FallocLoop × Except Int Unit) :=
  (novaCheckExistingEntry w.file w.numBlocks w.startBlk true c.epochId).map fun r =>
    match r.entry, r.inplace with
    | some entry, true =>
      let e := w.file.entries entry
      let file := if e.size < c.newSize then
        { w.file with
          entries := Function.update w.file.entries entry { e with size := c.newSize, csum := t.entryCsum } }
        else w.file
      (w.advance file r.entBlks, .ok ())
    | _, _ =>
      if t.alloc.ret ≤ 0 then (w, .error t.alloc.ret)
      else
        let e := fallocEntry c w t
        match t.append with
        | .refused => (w, .error (-Errno.enospc.code))
        | .unmirrored currP =>
          ({ w with file := { w.file with entries := Function.update w.file.entries currP e } },
            .error (-Errno.enospc.code))
        | .appended currP =>
          let stored : FileTree := { w.file with entries := Function.update w.file.entries currP e }
          (w.advance (novaAssignWriteEntry c.snapshots stored currP e true fun _ => true).1 t.alloc.ret.toNat, .ok ())

/-- The loop of `nova_fallocate`, as far as its turns are told. -/
def fallocTurns (c : FallocCall) (w : FallocLoop) : List FallocTurn → Except Fault (FallocLoop × Except Int Unit)
  | [] => .ok (w, .ok ())
  | t :: ts =>
    if w.numBlocks = 0 then .ok (w, .ok ())
    else
      match fallocTurn c w t with
      | .error f => .error f
      | .ok (w, .error ret) => .ok (w, .error ret)
      | .ok (w, .ok ()) => fallocTurns c w ts

end Parfs
