/-
The blocks of a file, counted.

A file in memory has two counters of its blocks.  Every call of `nova_free_old_entry` takes the
pages it is given off `sih->i_blocks`.  At its end a write or a reservation adds the blocks it was
given, and `inode->i_blocks` follows.  A truncation takes the pages it has cut off the second
counter and copies it to the first, and a rebuild sets both by the size of the file.

Blocks are pages.
-/
import Parfs.Fallocate
import Parfs.Rebuild

namespace Parfs

open Lib

/-- `num_free` of the calls of `nova_free_old_entry` so far, summed up: what a call is given it
frees, or has recorded for a snapshot. -/
def FileTree.numFreed (f : FileTree) : Nat :=
  (f.freed.map FreedBlocks.num).sum + (f.recorded.map SnapshotData.numPages).sum

/-- `total_blocks` of the loop of `nova_fallocate` -/
def fallocTotal (c : FallocCall) : FallocLoop → List FallocTurn → Nat
  | _, [] => 0
  | w, t :: ts =>
    if w.numBlocks = 0 then 0
    else
      match novaCheckExistingEntry w.file w.numBlocks w.startBlk true c.epochId, fallocTurn c w t with
      | .ok r, .ok (w', .ok ()) =>
        (if r.entry.isSome && r.inplace then 0 else t.alloc.ret.toNat) + fallocTotal c w' ts
      | _, _ => 0

/-- Whether `nova_fallocate` returns before its loop. -/
def FallocateCall.refused (a : FallocateCall) : Bool :=
  decide (a.mode / 2 ≠ 0) || a.isDir || (a.newsizeOk.isSome && a.grows) || !a.inode

/-- A regular file in memory. -/
structure CountedFile where
  file : FileTree
  /-- `sih->i_blocks` -/
  sihBlocks : Nat
  /-- `inode->i_blocks` -/
  inodeBlocks : Nat

namespace CountedFile

variable (s : CountedFile)

/-- `sih->i_blocks` after the calls of `nova_free_old_entry` on the way to `f`. -/
def freeOld (f : FileTree) : Nat := subU64 s.sihBlocks (f.numFreed - s.file.numFreed)

/-- `do_nova_cow_file_write` or `do_nova_inplace_file_write`; `early` is the error it leaves with
before the loop. -/
def doNovaFileWrite (mode : WriteMode) (c : WriteCall) (early : Option Errno) (turns : List WriteTurn) :
    CountedFile :=
  match early with
  | some _ => s
  | none =>
    match writeTurns mode c (c.start s.file) turns with
    | (w, .ok ()) =>
      let total := match mode with
        | .cow => writeNumBlocks c.pos c.count
        -- `new_blocks`
        | .inplace => (w.given.map Prod.snd).sum
      let blocks := s.freeOld w.file + total
      ⟨w.file, blocks, blocks⟩
    | (w, .error _) => ⟨w.file, s.freeOld w.file, s.inodeBlocks⟩

/-- `nova_fallocate` -/
def novaFallocate (a : FallocateCall) (data : Nat → Nat → UInt8) (turns : List FallocTurn) :
    Except Fault CountedFile :=
  if a.refused then .ok s
  else
    (reserveTurns a.loop ⟨s.file, a.startBlk, a.numBlocks⟩ data turns).map fun r =>
      match r.1 with
      | (w, .ok ()) =>
        let blocks := s.freeOld w.file + fallocTotal a.loop ⟨s.file, a.startBlk, a.numBlocks⟩ turns
        ⟨w.file, blocks, blocks⟩
      | (w, .error _) => ⟨w.file, s.freeOld w.file, s.inodeBlocks⟩

/-- `nova_truncate_file_blocks` -/
def novaTruncateFileBlocks (snapshots : List Nat) (start endp epochId : Nat) : CountedFile :=
  let f := Parfs.novaTruncateFileBlocks snapshots s.file start endp epochId
  let firstBlocknr := (start + 4095) / 4096
  let lastBlocknr := if endp = 0 then 0 else (endp - 1) / 4096
  if firstBlocknr > lastBlocknr then { s with file := f }
  else
    -- an `int`: what was cut, without what `free_old_entry` freed before
    let freed := toS32 ((f.numFreed - (freeOldEntry snapshots s.file 0).numFreed : Nat) : Int)
    let blocks := subU64 s.inodeBlocks (intToU64 freed)
    ⟨f, blocks, blocks⟩

end CountedFile

/-- `nova_rebuild_file_inode_tree`, and `nova_read_inode` after it. -/
def rebuildCounted (snapshots : List Nat) (m : ByteMem) (fuel : Nat) (pi : RecoverInode) (reb : NovaInodeRebuild)
    (transCurr : Nat) : Except Fault CountedFile :=
  let s := novaInitHeader m reb transCurr
  (novaRebuildFileInodeTree snapshots m fuel pi s).map fun r =>
    match r with
    | none => ⟨s.file, 0, 0⟩
    | some r =>
      let blocks := r.final.iSize / 4096 + if r.final.iSize % 4096 > 0 then 1 else 0
      ⟨r.final.file, blocks, blocks⟩

/-- An operation on a file. -/
inductive BlockOp where
  | write (mode : WriteMode) (c : WriteCall) (early : Option Errno) (turns : List WriteTurn)
  | fallocate (a : FallocateCall) (data : Nat → Nat → UInt8) (turns : List FallocTurn)
  | truncate (snapshots : List Nat) (start endp epochId : Nat)
  | rebuild (snapshots : List Nat) (m : ByteMem) (fuel : Nat) (pi : RecoverInode) (reb : NovaInodeRebuild)
      (transCurr : Nat)

def CountedFile.apply (s : CountedFile) : BlockOp → Except Fault CountedFile
  | .write mode c early turns => .ok (s.doNovaFileWrite mode c early turns)
  | .fallocate a data turns => s.novaFallocate a data turns
  | .truncate snapshots start endp epochId => .ok (s.novaTruncateFileBlocks snapshots start endp epochId)
  | .rebuild snapshots m fuel pi reb transCurr => rebuildCounted snapshots m fuel pi reb transCurr

end Parfs
