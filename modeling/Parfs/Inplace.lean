/-
Updating a log entry in place.

The words of the entry are journaled, its fields are stored one after another, and the
transaction is committed.  The words of the journal's memory are the machine's 8-byte words;
a field is part of one of them.  How many words are journaled comes from the type of the
entry, which for a dentry is its size without the name.
-/
import Parfs.Lib.Field
import Parfs.Journal

namespace Parfs

open Lib

/-! ### Fields of words -/

namespace JournalMem

variable (m : JournalMem)

/-- A field of `k` bytes at `a`, none of them in another word. -/
def field (a k : Nat) : Nat := getField (m.words (a / 8 * 8)) (a % 8) k

def setField (a k v : Nat) : JournalMem :=
  m.setWord (a / 8 * 8) (putField (m.words (a / 8 * 8)) (a % 8) k v)

/-- The byte at `x`. -/
def byteAt (x : Nat) : Nat := m.field x 1

end JournalMem

/-! ### The stores -/

/-- One store of an update in place. -/
inductive InplaceStore where
  | journal (st : JournalStore)
  | field (a k v : Nat)
  /-- `curr_page->page_tail.invalid_entries++` -/
  | incInvalid (page : Nat)
  | commit (cpu tail : Nat)
  deriving DecidableEq, Repr

/-- `offsetof(struct nova_inode_log_page, page_tail.invalid_entries)` -/
def invalidEntriesAt : Nat := 4064

def InplaceStore.apply (env : JournalEnv) (m : JournalMem) : InplaceStore → JournalMem
  | .journal st => st.apply env m
  | .field a k v => m.setField a k v
  | .incInvalid page => m.setField (page + invalidEntriesAt) 4 (m.field (page + invalidEntriesAt) 4 + 1)
  | .commit cpu tail => (novaCommitLiteTransaction m tail cpu).getD m

/-- Offset, width and value of fields, stored in this order into the entry at `p`. -/
def fieldStores (p : Nat) (fields : List (Nat × Nat × Nat)) : List InplaceStore :=
  fields.map fun f => .field (p + f.1) f.2.1 f.2.2

/-- What `nova_update_write_entry` takes of `struct nova_log_entry_info`. -/
structure WriteUpdate where
  epochId : Nat
  transId : Nat
  time : Nat
  fileSize : Nat
  deriving DecidableEq, Repr

/-- `nova_update_write_entry` -/
def novaUpdateWriteEntry (p : Nat) (info : WriteUpdate) : List InplaceStore :=
  fieldStores p
    [(NovaFileWriteEntry.epochIdAt, 8, info.epochId), (NovaFileWriteEntry.transIdAt, 8, info.transId),
      (NovaFileWriteEntry.mtimeAt, 4, info.time), (NovaFileWriteEntry.sizeAt, 8, info.fileSize),
      (NovaFileWriteEntry.updatingAt, 1, 0)]

/-- `nova_update_setattr_entry` -/
def novaUpdateSetattrEntry (p : Nat) (e : NovaSetattrLogentry) : List InplaceStore :=
  fieldStores p
    [(0, 1, NovaEntryType.setAttr.code), (1, 1, e.attr), (2, 2, e.mode), (4, 4, e.uid), (8, 4, e.gid),
      (12, 4, e.atime), (20, 4, e.ctime), (16, 4, e.mtime), (32, 8, e.epochId),
      (NovaSetattrLogentry.transIdAt, 8, e.transId), (NovaSetattrLogentry.invalidAt, 1, 0),
      (NovaSetattrLogentry.sizeAt, 8, e.size)]

/-- `nova_update_link_change_entry` -/
def novaUpdateLinkChangeEntry (p : Nat) (e : NovaLinkChangeEntry) : List InplaceStore :=
  fieldStores p
    [(0, 1, NovaEntryType.linkChange.code), (16, 8, e.epochId), (24, 8, e.transId),
      (NovaLinkChangeEntry.invalidAt, 1, 0), (2, 2, e.links), (4, 4, e.ctime), (8, 4, e.flags),
      (12, 4, e.generation)]

/-- What `nova_update_old_dentry` takes of `struct nova_log_entry_info` and of the directory. -/
structure DentryUpdate where
  epochId : Nat
  transId : Nat
  mtime : Nat
  /-- `dir->i_nlink` -/
  nlink : Nat
  linkChange : Int
  deriving DecidableEq, Repr

/-- `links_count` of `nova_update_old_dentry`, an `unsigned short` -/
def DentryUpdate.linksCount (info : DentryUpdate) : Nat :=
  if info.nlink % 2 ^ 16 = 0 ∧ info.linkChange = -1 then 0
  else ((info.nlink + info.linkChange) % 2 ^ 16).toNat

/-- `nova_update_old_dentry` -/
def novaUpdateOldDentry (p : Nat) (info : DentryUpdate) : List InplaceStore :=
  fieldStores p
      [(NovaDentry.epochIdAt, 8, info.epochId), (NovaDentry.transIdAt, 8, info.transId),
        (NovaDentry.inoAt, 8, 0), (NovaDentry.invalidAt, 1, 1), (NovaDentry.mtimeAt, 4, info.mtime),
        (NovaDentry.linksCountAt, 2, info.linksCount)] ++
    [.incInvalid (p / 4096 * 4096)]

/-- The entry types that are updated in place, each with what its update takes. -/
inductive InplaceUpdate where
  | fileWrite (info : WriteUpdate)
  | dirLog (info : DentryUpdate)
  | setAttr (e : NovaSetattrLogentry)
  | linkChange (e : NovaLinkChangeEntry)
  deriving DecidableEq, Repr

def InplaceUpdate.type : InplaceUpdate → NovaEntryType
  | .fileWrite _ => .fileWrite
  | .dirLog _ => .dirLog
  | .setAttr _ => .setAttr
  | .linkChange _ => .linkChange

/-- `nova_update_log_entry` in place, without `metadata_csum`: no checksum is stored then. -/
def novaUpdateLogEntry (p : Nat) : InplaceUpdate → List InplaceStore
  | .fileWrite info => novaUpdateWriteEntry p info
  | .dirLog info => novaUpdateOldDentry p info
  | .setAttr e => novaUpdateSetattrEntry p e
  | .linkChange e => novaUpdateLinkChangeEntry p e

/-- `nova_inplace_update_log_entry` without `metadata_csum`: all its stores, in order. -/
def novaInplaceUpdateLogEntry (m : JournalMem) (cpu p : Nat) (u : InplaceUpdate) :
    Option (List InplaceStore) :=
  (novaCreateLogentryTransaction (m.pairs cpu) p u.type cpu).map fun b =>
    b.stores.map .journal ++ novaUpdateLogEntry p u ++ [.commit cpu b.currP]

end Parfs
