/-
The journaled part of a rename.

`nova_rename` appends to the logs first.  Then it creates one transaction for up to four
inodes and three dentries, stores to them, and commits.  The renamed inode and the target
were copied before their link changes were appended, and are stored back whole.

Checksums and replicas of inodes are off, so a dentry that is reassigned is one byte and an
inode that is updated is its tail, or the whole copy.
-/
import Parfs.Inplace

namespace Parfs

open Lib

/-- `offsetof(struct nova_inode, log_head)` -/
def NovaInode.logHeadAt : Nat := 64
/-- `offsetof(struct nova_inode, alter_log_head)` -/
def NovaInode.alterLogHeadAt : Nat := 80

/-- `old_pic` or `new_pic`: the inode as it was copied, but for the heads of its logs, which
starting or cleaning the log stores into the copy, and the tail. -/
structure InodeCopy where
  pi : Nat
  /-- `pic->log_head` -/
  logHead : UInt64
  /-- `pic->alter_log_head` -/
  alterLogHead : UInt64
  /-- `update.tail`, of the link change that was appended -/
  tail : UInt64
  deriving DecidableEq

/-- The word of the copy at an offset; the inode has not changed since it was copied. -/
def InodeCopy.word (c : InodeCopy) (m : JournalMem) (offset : Nat) : Nat :=
  if offset = NovaInode.logHeadAt then c.logHead.toNat
  else if offset = NovaInode.alterLogHeadAt then c.alterLogHead.toNat
  else if offset = NovaInode.logTailAt then c.tail.toNat
  else m.words (c.pi + offset)

/-- A directory whose log grew. -/
structure DirUpdate where
  pi : Nat
  /-- `update_dir.tail` -/
  tail : UInt64
  deriving DecidableEq

/-- The target of a rename. -/
structure RenameTarget where
  copy : InodeCopy
  /-- `new_inode->i_nlink`, after the link was dropped -/
  nlink : Nat
  /-- `update_dir_new.create_dentry` -/
  createDentry : Nat
  deriving DecidableEq

/-- What `nova_rename` has when it creates its transaction. -/
structure RenameCall where
  oldInode : InodeCopy
  oldDir : DirUpdate
  /-- none when it is the old one -/
  newDir : Option DirUpdate
  newInode : Option RenameTarget
  /-- `father_entry`, when `change_parent` is set, else none -/
  fatherEntry : Option Nat
  /-- `new_dir->i_ino` -/
  newDirIno : UInt64
  /-- `update_dir_old.create_dentry` -/
  createDentry : Nat
  epochId : UInt64

/-- `invalidate_new_inode` -/
def RenameCall.invalidateNewInode (r : RenameCall) : Bool :=
  match r.newInode with
  | some n => n.nlink = 0
  | none => false

/-- An inode of the call, to the journal. -/
def renameInode (pi : Nat) : JournalInode := ⟨some pi, pi, 0⟩

/-- The transaction. -/
def RenameCall.create (env : JournalEnv) (r : RenameCall) (pair : JournalPtrPair) (cpu : Nat) : Option Journaling :=
  novaCreateRenameTransaction env pair (renameInode r.oldInode.pi) (renameInode r.oldDir.pi)
    (r.newInode.map fun n => renameInode n.copy.pi) (r.newDir.map fun d => renameInode d.pi) r.fatherEntry
    (r.newInode.map RenameTarget.createDentry) (some r.createDentry) r.invalidateNewInode cpu

/-- `nova_reassign_logentry` of a dentry -/
def novaReassignDentry (dentry : Nat) : List InplaceStore := [.field (dentry + NovaDentry.reassignedAt) 1 1]

/-- `nova_update_inode` without a copy -/
def novaUpdateInodeTail (d : DirUpdate) : List InplaceStore :=
  [.field (d.pi + NovaInode.logTailAt) 8 d.tail.toNat]

/-- `nova_update_inode` with a copy: `memcpy_to_pmem_nocache`, word by word -/
def novaUpdateInodeCopy (m : JournalMem) (c : InodeCopy) : List InplaceStore :=
  (List.range (NovaInode.size / 8)).map fun i => .field (c.pi + 8 * i) 8 (c.word m (8 * i))

/-- `new_pi->valid = 0` and `new_pi->delete_epoch_id = epoch_id` -/
def invalidateNewPi (epochId : UInt64) (n : RenameTarget) : List InplaceStore :=
  if n.nlink = 0 then
    [.field (n.copy.pi + NovaInode.validAt) 1 0, .field (n.copy.pi + NovaInode.deleteEpochIdAt) 8 epochId.toNat]
  else []

/-- The stores of `nova_rename` between the creation of the transaction and the commit. -/
def RenameCall.stores (m : JournalMem) (r : RenameCall) : List InplaceStore :=
  (r.newInode.elim [] fun n => novaReassignDentry n.createDentry) ++ novaReassignDentry r.createDentry ++
    novaUpdateInodeCopy m r.oldInode ++ novaUpdateInodeTail r.oldDir ++ r.newDir.elim [] novaUpdateInodeTail ++
    (r.fatherEntry.elim [] fun p => [.field (p + NovaDentry.inoAt) 8 r.newDirIno.toNat]) ++
    (r.newInode.elim [] fun n => invalidateNewPi r.epochId n ++ novaUpdateInodeCopy m n.copy)

end Parfs
