/-
What an inode log is made of.

The types of log entries, their sizes and the places of the fields the modelled code
reaches by address.  All structures are packed, so a place is the sum of the widths in
front of it.
-/
import Parfs.Lib.Memory

namespace Parfs

open Lib

/-- `enum nova_entry_type` -/
inductive NovaEntryType where
  | fileWrite | dirLog | setAttr | linkChange | mmapWrite | snapshotInfo | nextPage
  deriving DecidableEq, Repr

/-- The byte an entry of this type starts with. -/
def NovaEntryType.code : NovaEntryType → Nat
  | .fileWrite => 1
  | .dirLog => 2
  | .setAttr => 3
  | .linkChange => 4
  | .mmapWrite => 5
  | .snapshotInfo => 6
  | .nextPage => 7

/-- `nova_get_log_entry_size` -/
def novaGetLogEntrySize : NovaEntryType → Nat
  | .fileWrite => 64
  | .dirLog => 48
  | .setAttr => 56
  | .linkChange => 40
  | .mmapWrite => 40
  | .snapshotInfo => 40
  | .nextPage => 0

/-- `NOVA_DIR_LOG_REC_LEN` -/
def novaDirLogRecLen (nameLen : Nat) : Nat := (nameLen + 1 + 48 + 7) / 8 * 8

/-! ### The entries as they are laid out -/

/-- `struct nova_file_write_entry`, without the entry type and the padding. -/
structure NovaFileWriteEntry where
  reassigned : Nat
  updating : Nat
  numPages : Nat
  blocknr : Nat
  pgoff : Nat
  invalidPages : Nat
  mtime : Nat
  size : Nat
  epochId : Nat
  transId : Nat
  csum : Nat
  deriving DecidableEq, Repr

def NovaFileWriteEntry.bytes (e : NovaFileWriteEntry) : List UInt8 :=
  leBytes 1 NovaEntryType.fileWrite.code ++ leBytes 1 e.reassigned ++ leBytes 1 e.updating ++
    leBytes 1 0 ++ leBytes 4 e.numPages ++ leBytes 8 e.blocknr ++ leBytes 8 e.pgoff ++
    leBytes 4 e.invalidPages ++ leBytes 4 e.mtime ++ leBytes 8 e.size ++ leBytes 8 e.epochId ++
    leBytes 8 e.transId ++ leBytes 4 0 ++ leBytes 4 e.csum

/-- `get_nvmm`, of a page of the entry -/
def getNvmm (e : NovaFileWriteEntry) (pgoff : Nat) : Nat := e.blocknr + (pgoff - e.pgoff)

/-- What `nova_update_new_dentry` fills in of `struct nova_dentry`. -/
structure NovaDentry where
  name : List UInt8
  ino : Nat
  deLen : Nat
  linksCount : Nat
  mtime : Nat
  epochId : Nat
  transId : Nat
  deriving DecidableEq, Repr

def NovaDentry.bytes (e : NovaDentry) : List UInt8 :=
  leBytes 1 NovaEntryType.dirLog.code ++ leBytes 1 e.name.length ++ leBytes 1 0 ++ leBytes 1 0 ++
    leBytes 2 e.deLen ++ leBytes 2 e.linksCount ++ leBytes 4 e.mtime ++ leBytes 4 0 ++
    leBytes 8 e.ino ++ leBytes 8 0 ++ leBytes 8 e.epochId ++ leBytes 8 e.transId ++ e.name ++
    leBytes 1 0

/-- What `nova_update_setattr_entry` fills in of `struct nova_setattr_logentry`. -/
structure NovaSetattrLogentry where
  attr : Nat
  mode : Nat
  uid : Nat
  gid : Nat
  atime : Nat
  mtime : Nat
  ctime : Nat
  size : Nat
  epochId : Nat
  transId : Nat
  deriving DecidableEq, Repr

/-- All of it up to `invalid`, which is cleared. -/
def NovaSetattrLogentry.bytes (e : NovaSetattrLogentry) : List UInt8 :=
  leBytes 1 NovaEntryType.setAttr.code ++ leBytes 1 e.attr ++ leBytes 2 e.mode ++ leBytes 4 e.uid ++
    leBytes 4 e.gid ++ leBytes 4 e.atime ++ leBytes 4 e.mtime ++ leBytes 4 e.ctime ++
    leBytes 8 e.size ++ leBytes 8 e.epochId ++ leBytes 8 e.transId ++ leBytes 1 0

/-- What `nova_update_link_change_entry` fills in of `struct nova_link_change_entry`. -/
structure NovaLinkChangeEntry where
  links : Nat
  ctime : Nat
  flags : Nat
  generation : Nat
  epochId : Nat
  transId : Nat
  deriving DecidableEq, Repr

/-- All of it up to the checksum; `invalid` is cleared. -/
def NovaLinkChangeEntry.bytes (e : NovaLinkChangeEntry) : List UInt8 :=
  leBytes 1 NovaEntryType.linkChange.code ++ leBytes 1 0 ++ leBytes 2 e.links ++ leBytes 4 e.ctime ++
    leBytes 4 e.flags ++ leBytes 4 e.generation ++ leBytes 8 e.epochId ++ leBytes 8 e.transId

/-- `struct nova_mmap_entry` -/
structure NovaMmapEntry where
  epochId : Nat
  pgoff : Nat
  numPages : Nat
  csum : Nat
  deriving DecidableEq, Repr

def NovaMmapEntry.bytes (e : NovaMmapEntry) : List UInt8 :=
  leBytes 1 NovaEntryType.mmapWrite.code ++ leBytes 7 0 ++ leBytes 8 e.epochId ++
    leBytes 8 e.pgoff ++ leBytes 8 e.numPages ++ leBytes 4 0 ++ leBytes 4 e.csum

/-- `struct nova_snapshot_info_entry` -/
structure NovaSnapshotInfoEntry where
  epochId : Nat
  timestamp : Nat
  nvmmPageAddr : Nat
  csum : Nat
  deriving DecidableEq, Repr

def NovaSnapshotInfoEntry.bytes (e : NovaSnapshotInfoEntry) : List UInt8 :=
  leBytes 1 NovaEntryType.snapshotInfo.code ++ leBytes 7 0 ++ leBytes 8 e.epochId ++
    leBytes 8 e.timestamp ++ leBytes 8 e.nvmmPageAddr ++ leBytes 4 0 ++ leBytes 4 e.csum

/-- An entry to append: `type`, `data` and the other fields of `struct nova_log_entry_info`
its type uses. -/
inductive NovaLogEntryInfo where
  | fileWrite (data : NovaFileWriteEntry)
  | dirLog (dentry : NovaDentry)
  | setAttr (attr : NovaSetattrLogentry)
  | linkChange (change : NovaLinkChangeEntry)
  | mmapWrite (data : NovaMmapEntry)
  | snapshotInfo (data : NovaSnapshotInfoEntry)
  deriving DecidableEq, Repr

namespace NovaLogEntryInfo

def type : NovaLogEntryInfo → NovaEntryType
  | .fileWrite _ => .fileWrite
  | .dirLog _ => .dirLog
  | .setAttr _ => .setAttr
  | .linkChange _ => .linkChange
  | .mmapWrite _ => .mmapWrite
  | .snapshotInfo _ => .snapshotInfo

/-- The size `nova_append_log_entry` takes: a dentry brings its own. -/
def size : NovaLogEntryInfo → Nat
  | .dirLog dentry => dentry.deLen
  | e => novaGetLogEntrySize e.type

/-- The bytes `nova_update_log_entry` stores at the start of a zeroed entry. -/
def bytes : NovaLogEntryInfo → List UInt8
  | .fileWrite data => data.bytes
  | .dirLog dentry => dentry.bytes
  | .setAttr attr => attr.bytes
  | .linkChange change => change.bytes
  | .mmapWrite data => data.bytes
  | .snapshotInfo data => data.bytes

/-- The whole entry as it stands in the log. -/
def padded (e : NovaLogEntryInfo) : List UInt8 :=
  e.bytes ++ List.replicate (e.size - e.bytes.length) 0

end NovaLogEntryInfo

/-! ### Field places -/

/-- `offsetof(struct nova_inode, valid)` -/
def NovaInode.validAt : Nat := 1
/-- `offsetof(struct nova_inode, log_tail)` -/
def NovaInode.logTailAt : Nat := 72
/-- `offsetof(struct nova_inode, alter_log_tail)` -/
def NovaInode.alterLogTailAt : Nat := 88
/-- `offsetof(struct nova_inode, delete_epoch_id)` -/
def NovaInode.deleteEpochIdAt : Nat := 104
/-- `sizeof(struct nova_inode)` -/
def NovaInode.size : Nat := 120

/-- `offsetof(struct nova_file_write_entry, reassigned)` -/
def NovaFileWriteEntry.reassignedAt : Nat := 1
/-- `offsetof(struct nova_file_write_entry, updating)` -/
def NovaFileWriteEntry.updatingAt : Nat := 2
/-- `offsetof(struct nova_file_write_entry, num_pages)` -/
def NovaFileWriteEntry.numPagesAt : Nat := 4
/-- `offsetof(struct nova_file_write_entry, blocknr)` -/
def NovaFileWriteEntry.blocknrAt : Nat := 8
/-- `offsetof(struct nova_file_write_entry, pgoff)` -/
def NovaFileWriteEntry.pgoffAt : Nat := 16
/-- `offsetof(struct nova_file_write_entry, invalid_pages)` -/
def NovaFileWriteEntry.invalidPagesAt : Nat := 24
/-- `offsetof(struct nova_file_write_entry, mtime)` -/
def NovaFileWriteEntry.mtimeAt : Nat := 28
/-- `offsetof(struct nova_file_write_entry, size)` -/
def NovaFileWriteEntry.sizeAt : Nat := 32
/-- `offsetof(struct nova_file_write_entry, epoch_id)` -/
def NovaFileWriteEntry.epochIdAt : Nat := 40
/-- `offsetof(struct nova_file_write_entry, trans_id)` -/
def NovaFileWriteEntry.transIdAt : Nat := 48

/-- `offsetof(struct nova_dentry, reassigned)` -/
def NovaDentry.reassignedAt : Nat := 2
/-- `offsetof(struct nova_dentry, invalid)` -/
def NovaDentry.invalidAt : Nat := 3
/-- `offsetof(struct nova_dentry, de_len)` -/
def NovaDentry.deLenAt : Nat := 4
/-- `offsetof(struct nova_dentry, links_count)` -/
def NovaDentry.linksCountAt : Nat := 6
/-- `offsetof(struct nova_dentry, mtime)` -/
def NovaDentry.mtimeAt : Nat := 8
/-- `offsetof(struct nova_dentry, csum)` -/
def NovaDentry.csumAt : Nat := 12
/-- `offsetof(struct nova_dentry, ino)` -/
def NovaDentry.inoAt : Nat := 16
/-- `offsetof(struct nova_dentry, epoch_id)` -/
def NovaDentry.epochIdAt : Nat := 32
/-- `offsetof(struct nova_dentry, trans_id)` -/
def NovaDentry.transIdAt : Nat := 40

/-- `offsetof(struct nova_setattr_logentry, size)` -/
def NovaSetattrLogentry.sizeAt : Nat := 24
/-- `offsetof(struct nova_setattr_logentry, trans_id)` -/
def NovaSetattrLogentry.transIdAt : Nat := 40
/-- `offsetof(struct nova_setattr_logentry, invalid)` -/
def NovaSetattrLogentry.invalidAt : Nat := 48
/-- `offsetof(struct nova_link_change_entry, invalid)` -/
def NovaLinkChangeEntry.invalidAt : Nat := 1
/-- `offsetof(struct nova_mmap_entry, invalid)` -/
def NovaMmapEntry.invalidAt : Nat := 1
/-- `offsetof(struct nova_snapshot_info_entry, deleted)` -/
def NovaSnapshotInfoEntry.deletedAt : Nat := 1

end Parfs
