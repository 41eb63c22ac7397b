/-
A file's pages.

The radix tree maps page offsets to the write entries of the log, by their addresses.  A new
entry is put into the tree as soon as it is appended.  The pages it takes from older entries
go to a list, run by run, and their blocks are freed when the next entry is put into the tree
or the tree is cut.

Only what the entries say about pages is here.  The page counters of the log are in the
module about logs; that an entry in memory verifies its checksum is assumed.
-/
import Parfs.Lib.Machine
import Parfs.Lib.Radix
import Parfs.LogEntry

namespace Parfs

open Lib

/-- `struct old_entry` -/
structure OldEntry where
  entry : Nat
  startPgoff : Nat
  numFree : Nat
  deriving DecidableEq, Repr

/-- A call of `nova_free_data_blocks`, and whose blocks it frees: pages of an entry from
`pgoff` on. -/
structure FreedBlocks where
  entry : Nat
  pgoff : Nat
  blocknr : Nat
  num : Nat
  deriving DecidableEq, Repr

/-- What `nova_append_snapshot_file_write_entry` records in the list of a snapshot. -/
structure SnapshotData where
  /-- of the snapshot -/
  epochId : Nat
  nvmm : Nat
  numPages : Nat
  deleteEpochId : Nat
  deriving DecidableEq, Repr

/-- The part of `struct nova_inode_info_header` about pages, the write entries it points to,
and the calls made so far. -/
structure FileTree where
  tree : Radix Nat
  entries : Nat → NovaFileWriteEntry
  oldEntryList : List OldEntry
  freed : List FreedBlocks
  recorded : List SnapshotData

/-! ### Snapshots -/

section Snapshots

-- the epochs in `snapshot_info_tree`
variable (snapshots : List Nat)

/-- `nova_find_target_snapshot_info`: the first snapshot from an epoch on. -/
def novaFindTargetSnapshotInfo (epochId : Nat) : Option Nat :=
  (snapshots.filter fun s => epochId ≤ s).min?

/-- `nova_old_entry_deleteable`: none when it is, else `*ret_info`. -/
def novaOldEntryDeleteable (createEpochId deleteEpochId : Nat) : Option Nat :=
  if createEpochId = deleteEpochId then none
  else
    match novaFindTargetSnapshotInfo snapshots createEpochId with
    | none => none
    | some info => if info ≥ deleteEpochId then none else some info

/-! ### Freeing -/

/-- `nova_invalidate_write_entry` -/
def novaInvalidateWriteEntry (f : FileTree) (entry : Nat) (reassign : Bool) (numFree : Nat) : FileTree :=
  let e := f.entries entry
  if numFree = 0 ∧ e.reassigned = 1 then f
  else
    let e := { e with
      reassigned := if reassign then 1 else e.reassigned
      invalidPages := toU32 (e.invalidPages + numFree) }
    { f with entries := Function.update f.entries entry e }

/-- `nova_free_old_entry` -/
def novaFreeOldEntry (f : FileTree) (entry pgoff numFree : Nat) (deleteDead : Bool) (epochId : Nat) :
    FileTree :=
  let oldNvmm := getNvmm (f.entries entry) pgoff
  let free (f : FileTree) : FileTree := { f with freed := f.freed ++ [⟨entry, pgoff, oldNvmm, numFree⟩] }
  if deleteDead then free f
  else
    -- `nova_append_data_to_snapshot`
    match novaOldEntryDeleteable snapshots (f.entries entry).epochId epochId with
    | some info =>
      novaInvalidateWriteEntry { f with recorded := f.recorded ++ [⟨info, oldNvmm, numFree, epochId⟩] }
        entry true 0
    | none => free (novaInvalidateWriteEntry f entry true numFree)

/-- `insert_old_entry` -/
def insertOldEntry (l : List OldEntry) (entry startPgoff numFree : Nat) : List OldEntry :=
  ⟨entry, startPgoff, numFree⟩ :: l

/-- `free_old_entry` -/
def freeOldEntry (f : FileTree) (epochId : Nat) : FileTree :=
  { f.oldEntryList.foldl (fun f old =>
      novaInvalidateWriteEntry
        (novaFreeOldEntry snapshots f old.entry old.startPgoff old.numFree true epochId) old.entry true 0) f
    with oldEntryList := [] }

/-! ### Putting an entry into the tree -/

/-- The variables of the loop of `nova_assign_write_entry`. -/
structure Assigning where
  tree : Radix Nat
  oldEntryList : List OldEntry
  startOldEntry : Option Nat
  startOldPgoff : Nat
  numFree : Nat

/-- The run collected so far goes to the list. -/
def Assigning.flush (a : Assigning) (free : Bool) : Assigning :=
  match a.startOldEntry with
  | some start =>
    if free then { a with oldEntryList := insertOldEntry a.oldEntryList start a.startOldPgoff a.numFree }
    else a
  | none => a

/-- One page. -/
def assignPage (entry : Nat) (free : Bool) (a : Assigning) (currPgoff : Nat) : Assigning :=
  match a.tree.slot currPgoff with
  | some old =>
    if a.startOldEntry ≠ some old then
      { a.flush free with
        tree := a.tree.set currPgoff entry
        startOldEntry := some old
        startOldPgoff := currPgoff
        numFree := 1 }
    else { a with tree := a.tree.set currPgoff entry, numFree := a.numFree + 1 }
  | none => { a with tree := a.tree.set currPgoff entry }

/-- The loop over the pages, with whether it came to its end: `inserts` says at which empty
slots `radix_tree_insert` succeeds. -/
def assignPages (entry : Nat) (free : Bool) (inserts : Nat → Bool) : List Nat → Assigning → Assigning × Bool
  | [], a => (a, true)
  | p :: ps, a =>
    if a.tree.slot p = none ∧ inserts p = false then (a, false)
    else assignPages entry free inserts ps (assignPage entry free a p)

/-- `nova_assign_write_entry` of the entry at `entry`, going by the copy `entryc`; with
whether it succeeded. -/
def novaAssignWriteEntry (f : FileTree) (entry : Nat) (entryc : NovaFileWriteEntry) (free : Bool)
    (inserts : Nat → Bool) : FileTree × Bool :=
  let f := freeOldEntry snapshots f entryc.epochId
  let r := assignPages entry free inserts (List.range' entryc.pgoff entryc.numPages)
    ⟨f.tree, f.oldEntryList, none, 0, 0⟩
  let a := if r.2 then r.1.flush free else r.1
  ({ f with tree := a.tree, oldEntryList := a.oldEntryList }, r.2)

/-! ### Cutting the tree -/

/-- `nova_find_next_entry` -/
def novaFindNextEntry (f : FileTree) (pgoff : Nat) : Option Nat := f.tree.next pgoff

/-- The variables of the loop of `nova_delete_file_tree`. -/
structure Deleting where
  file : FileTree
  oldEntry : Option Nat
  oldPgoff : Nat
  numFree : Nat

/-- The run collected so far is freed. -/
def Deleting.flush (d : Deleting) (deleteNvmm deleteDead : Bool) (epochId : Nat) : Deleting :=
  match d.oldEntry with
  | some old =>
    if deleteNvmm then
      { d with file := novaFreeOldEntry snapshots d.file old d.oldPgoff d.numFree deleteDead epochId }
    else d
  | none => d

/-- The loop of `nova_delete_file_tree`, with a bound on its turns. -/
def deleteLoop (deleteNvmm deleteDead : Bool) (epochId : Nat) : Nat → Nat → Deleting → Deleting
  | 0, _, d => d
  | fuel + 1, pgoff, d =>
    match d.file.tree.slot pgoff with
    | some entry =>
      let cut (d : Deleting) : Deleting := { d with file := { d.file with tree := d.file.tree.erase pgoff } }
      if d.oldEntry ≠ some entry then
        deleteLoop deleteNvmm deleteDead epochId fuel (pgoff + 1)
          { (cut d).flush snapshots deleteNvmm deleteDead epochId with
            oldEntry := some entry
            oldPgoff := pgoff
            numFree := 1 }
      else deleteLoop deleteNvmm deleteDead epochId fuel (pgoff + 1) { cut d with numFree := d.numFree + 1 }
    | none =>
      match novaFindNextEntry d.file pgoff with
      | none => d
      | some entry =>
        deleteLoop deleteNvmm deleteDead epochId fuel
          (if pgoff + 1 > (d.file.entries entry).pgoff then pgoff + 1 else (d.file.entries entry).pgoff) d

/-- `nova_delete_file_tree`, from `start_blocknr` on; the last block number is only printed.
The epoch that goes to `free_old_entry` comes from a pointer not set yet, and is not used. -/
def novaDeleteFileTree (f : FileTree) (startBlocknr : Nat) (deleteNvmm deleteDead : Bool) (epochId : Nat) :
    FileTree :=
  let f := freeOldEntry snapshots f 0
  let d := deleteLoop snapshots deleteNvmm deleteDead epochId (f.tree.size - startBlocknr + 1) startBlocknr
    ⟨f, none, 0, 0⟩
  (d.flush snapshots deleteNvmm deleteDead epochId).file

end Snapshots

end Parfs
