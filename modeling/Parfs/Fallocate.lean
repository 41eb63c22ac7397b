/-
Reserving pages, the whole call.

The loop is in the module about holes.  Here is what is around it: the page count, the new size,
and what the blocks hold, since the allocator is asked for zeroed ones.

As for writes, blocks are pages.  What the cleanup after an error frees is left out.
-/
import Parfs.FileHoles
import Parfs.FileRead

namespace Parfs

open Lib

/-- `EOPNOTSUPP` -/
def eopnotsupp : Int := 95

/-- `ENODEV` -/
def enodev : Int := 19

/-- The call, with what is not the file's pages. -/
structure FallocateCall where
  mode : Nat
  offset : Nat
  len : Nat
  isDir : Bool
  /-- `inode->i_size` -/
  iSize : Nat
  /-- the error of `inode_newsize_ok` -/
  newsizeOk : Option Errno
  /-- whether `nova_get_inode` finds the inode -/
  inode : Bool
  epochId : Nat
  time : Nat
  /-- `sih->trans_id` -/
  transId : Nat
  /-- the epochs in `snapshot_info_tree` -/
  snapshots : List Nat

namespace FallocateCall

variable (a : FallocateCall)

/-- `mode & FALLOC_FL_KEEP_SIZE` -/
def keepSize : Bool := decide (a.mode % 2 = 1)

/-- The test that is made twice: on the way in, and before the size is set. -/
def grows : Bool := !a.keepSize && decide (a.offset + a.len > a.iSize)

/-- `new_size` -/
def newSize : Nat := if a.grows then a.offset + a.len else a.iSize

/-- `start_blk` -/
def startBlk : Nat := a.offset / 4096

/-- `blocksize_mask`: the shift of a block, less one -/
def blocksizeMask : Nat := 12 - 1

/-- `num_blocks` -/
def numBlocks : Nat := ((a.offset &&& blocksizeMask) + a.len - 1) / 4096 + 1

def loop : FallocCall := ⟨a.newSize, a.epochId, a.time, a.transId, a.snapshots⟩

end FallocateCall

/-- Blocks that are taken with `ALLOC_INIT_ZERO`. -/
def zeroBlocks (data : Nat → Nat → UInt8) (blocknr num : Nat) (b o : Nat) : UInt8 :=
  if blocknr ≤ b ∧ b < blocknr + num then 0 else data b o

/-- What the blocks hold after a turn. -/
def fallocTurnData (c : FallocCall) (w : FallocLoop) (t : FallocTurn) (data : Nat → Nat → UInt8) : Nat → Nat → UInt8 :=
  match novaCheckExistingEntry w.file w.numBlocks w.startBlk true c.epochId with
  | .error _ => data
  | .ok r =>
    if r.entry.isSome && r.inplace then data
    else if t.alloc.ret ≤ 0 then data
    else zeroBlocks data t.alloc.blocknr t.alloc.ret.toNat

/-- The loop with the blocks; turns have to be told until there are no pages left. -/
def reserveTurns (c : FallocCall) : FallocLoop → (Nat → Nat → UInt8) → List FallocTurn →
    Except Fault ((FallocLoop × Except Int Unit) × (Nat → Nat → UInt8))
  | w, data, [] => if w.numBlocks = 0 then .ok ((w, .ok ()), data) else .error .loops
  | w, data, t :: ts =>
    if w.numBlocks = 0 then .ok ((w, .ok ()), data)
    else
      match fallocTurn c w t with
      | .error f => .error f
      | .ok (w', .error ret) => .ok ((w', .error ret), fallocTurnData c w t data)
      | .ok (w', .ok ()) => reserveTurns c w' (fallocTurnData c w t data) ts

/-- What a call comes to. -/
structure FallocateResult where
  ret : Int
  file : FileTree
  data : Nat → Nat → UInt8
  iSize : Nat

/-- `nova_fallocate` from the lock on. -/
def fallocateLocked (a : FallocateCall) (f : FileTree) (data : Nat → Nat → UInt8) (turns : List FallocTurn) :
    Except Fault FallocateResult :=
  if !a.inode then .ok ⟨-Errno.eacces.code, f, data, a.iSize⟩
  else
    match reserveTurns a.loop ⟨f, a.startBlk, a.numBlocks⟩ data turns with
    | .error fault => .error fault
    | .ok ((w, .error ret), data) => .ok ⟨ret, w.file, data, a.iSize⟩
    | .ok ((w, .ok ()), data) =>
      .ok ⟨0, w.file, data, if !a.keepSize && decide (a.newSize > a.iSize) then a.newSize else a.iSize⟩

/-- `nova_fallocate` -/
def novaFallocate (a : FallocateCall) (f : FileTree) (data : Nat → Nat → UInt8) (turns : List FallocTurn) :
    Except Fault FallocateResult :=
  if a.mode / 2 ≠ 0 then .ok ⟨-eopnotsupp, f, data, a.iSize⟩
  else if a.isDir then .ok ⟨-enodev, f, data, a.iSize⟩
  else
    match a.newsizeOk, a.grows with
    | some e, true => .ok ⟨-e.code, f, data, a.iSize⟩
    | _, _ => fallocateLocked a f data turns

end Parfs
