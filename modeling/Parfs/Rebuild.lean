/-
Rebuilding the inode of a file.

When a file is used for the first time after a mount, its log is replayed into a header that
knows nothing yet.  The main loop goes from the log head to the log tail.  A second loop goes
over the last transaction again, to find the pages it took from older entries.

This is a mount that is not one of a snapshot, with every entry in memory verifying its
checksum; `radix_tree_insert` gets the memory it needs.  The count of log pages and the
checksums of the data are left out.  `trans_curr` holds anything before it is assigned.
-/
import Parfs.FileTree
import Parfs.Recovery

namespace Parfs

open Lib

/-- `SENTRY` -/
def sentry (m : ByteMem) (p : Nat) : NovaSetattrLogentry where
  attr := m.word (p + 1) 1
  mode := m.word (p + 2) 2
  uid := m.word (p + 4) 4
  gid := m.word (p + 8) 4
  atime := m.word (p + 12) 4
  mtime := m.word (p + 16) 4
  ctime := m.word (p + 20) 4
  size := m.word (p + NovaSetattrLogentry.sizeAt) 8
  epochId := m.word (p + 32) 8
  transId := m.word (p + NovaSetattrLogentry.transIdAt) 8

/-- `LCENTRY` -/
def lcentry (m : ByteMem) (p : Nat) : NovaLinkChangeEntry where
  links := m.word (p + 2) 2
  ctime := m.word (p + 4) 4
  flags := m.word (p + 8) 4
  generation := m.word (p + 12) 4
  epochId := m.word (p + 16) 8
  transId := m.word (p + 24) 8

/-- `struct nova_inode_rebuild` -/
structure NovaInodeRebuild where
  iSize : Nat
  iFlags : Nat
  iCtime : Nat
  iMtime : Nat
  iAtime : Nat
  iUid : Nat
  iGid : Nat
  iGeneration : Nat
  iLinksCount : Nat
  iMode : Nat
  transId : Nat
  deriving DecidableEq, Repr

/-- The header and the variables of `nova_rebuild_file_inode_tree`. -/
structure FileRebuild where
  file : FileTree
  reb : NovaInodeRebuild
  iSize : Nat
  iMode : Nat
  iFlags : Nat
  transId : Nat
  lastSetattr : Nat
  lastLinkChange : Nat
  transCurr : Nat
  /-- where `entryc` points -/
  entryc : Nat

/-- `S_ISREG` -/
def isReg (mode : Nat) : Bool := mode / 4096 % 16 = 8

/-! ### Entries -/

/-- `nova_rebuild_file_time_and_size` -/
def novaRebuildFileTimeAndSize (reb : NovaInodeRebuild) (mtime ctime size : Nat) : NovaInodeRebuild :=
  { reb with iMtime := mtime, iCtime := ctime, iSize := size }

/-- `nova_apply_link_change_entry` -/
def novaApplyLinkChangeEntry (reb : NovaInodeRebuild) (entry : NovaLinkChangeEntry) : NovaInodeRebuild :=
  { reb with
    iLinksCount := entry.links
    iCtime := entry.ctime
    iFlags := entry.flags
    iGeneration := entry.generation }

/-- `nova_set_write_entry_updating`, to 0 -/
def novaClearUpdating (f : FileTree) (entry : Nat) : FileTree :=
  { f with entries := Function.update f.entries entry { f.entries entry with updating := 0 } }

section

-- the epochs in `snapshot_info_tree`
variable (snapshots : List Nat)

/-- `nova_apply_setattr_entry` -/
def novaApplySetattrEntry (s : FileRebuild) (entry : NovaSetattrLogentry) : FileRebuild :=
  let reb := { s.reb with iMode := entry.mode, iUid := entry.uid, iGid := entry.gid, iAtime := entry.atime }
  if isReg reb.iMode then
    { s with
      reb := reb
      file := novaDeleteFileTree snapshots s.file ((entry.size + 4095) / 4096) false false 0 }
  else { s with reb := reb }

/-- `nova_rebuild_handle_write_entry`; the entry is read once, as `entryc` is. -/
def novaRebuildHandleWriteEntry (s : FileRebuild) (entry : Nat) : FileRebuild :=
  let e := s.file.entries entry
  let f := if e.numPages ≠ e.invalidPages then
    (novaAssignWriteEntry snapshots s.file entry e false fun _ => true).1 else s.file
  let reb := if e.transId ≥ s.reb.transId then
    { novaRebuildFileTimeAndSize s.reb e.mtime e.mtime e.size with transId := e.transId } else s.reb
  let f := if e.updating ≠ 0 then novaClearUpdating f entry else f
  { s with file := f, reb := reb, iSize := reb.iSize }

/-- The cases of the switch. -/
def FileRebuild.handle (m : ByteMem) (latestTransValid : Bool) (s : FileRebuild) (currP : Nat) : FileRebuild :=
  let s := { s with entryc := currP }
  if novaGetEntryType m currP = NovaEntryType.setAttr.code then
    let entry := sentry m currP
    let s := { novaApplySetattrEntry snapshots s entry with lastSetattr := currP }
    let reb := if entry.transId ≥ s.reb.transId then
      { novaRebuildFileTimeAndSize s.reb entry.mtime entry.ctime entry.size with transId := entry.transId }
      else s.reb
    { s with reb := reb, iSize := reb.iSize }
  else if novaGetEntryType m currP = NovaEntryType.linkChange.code then
    { s with reb := novaApplyLinkChangeEntry s.reb (lcentry m currP), lastLinkChange := currP }
  else if novaGetEntryType m currP = NovaEntryType.fileWrite.code then
    let transId := (s.file.entries currP).transId
    let s := if latestTransValid ∧ transId ≠ s.transId then { s with transId := transId, transCurr := currP }
      else s
    novaRebuildHandleWriteEntry snapshots s currP
  else s

/-! ### The loops -/

/-- The main loop. -/
def rebuildFileLoop (m : ByteMem) (logTail : Nat) (latestTransValid : Bool) :
    Nat → Nat → FileRebuild → Except Fault FileRebuild
  | 0, _, _ => .error .loops
  | fuel + 1, currP, s =>
    if currP = logTail then .ok s
    else
      let p := scanFrom m currP
      if p = 0 then .error .bug
      else
        let s := s.handle snapshots m latestTransValid p
        match scanEntrySize m p .file with
        | some size => rebuildFileLoop m logTail latestTransValid fuel (p + size) s
        | none => rebuildFileLoop m logTail latestTransValid fuel (p + 64) s

/-- The loop over the last transaction, with the addresses it takes for entries. -/
def lastTransactionLoop (m : ByteMem) (currP entryc : Nat) :
    Nat → Nat → FileTree → Except Fault (FileTree × List Nat)
  | 0, _, _ => .error .loops
  | fuel + 1, transCurr, f =>
    if transCurr = currP then .ok (f, [])
    else
      let p := scanFrom m transCurr
      let f := if novaGetEntryType m p = NovaEntryType.fileWrite.code then
        (novaAssignWriteEntry snapshots f p (f.entries entryc) true fun _ => true).1 else f
      (lastTransactionLoop m currP entryc fuel (p + 64) f).map fun r => (r.1, p :: r.2)

/-! ### The rebuild -/

/-- `nova_init_header`, with a tree that is empty. -/
def novaInitHeader (m : ByteMem) (reb : NovaInodeRebuild) (transCurr : Nat) : FileRebuild where
  file := ⟨Radix.empty Nat, wentry m, [], [], []⟩
  reb := reb
  iSize := 0
  iMode := reb.iMode
  iFlags := 0
  transId := 0
  lastSetattr := 0
  lastLinkChange := 0
  transCurr := transCurr
  entryc := 0

/-- The part of `nova_rebuild_inode_finish` about the header. -/
def novaRebuildInodeFinish (s : FileRebuild) : FileRebuild :=
  { s with
    iSize := s.reb.iSize
    iMode := s.reb.iMode
    iFlags := s.reb.iFlags
    transId := s.reb.transId + 1 }

/-- What the rebuild comes to, and how. -/
structure FileRebuilt where
  /-- after the main loop -/
  replayed : FileRebuild
  /-- what the second loop took for entries, none if there was no second loop -/
  pass : Option (List Nat)
  final : FileRebuild

/-- `nova_rebuild_file_inode_tree`, from a header that is fresh except for the fields `s` gives;
none when the inode has no log. -/
def novaRebuildFileInodeTree (m : ByteMem) (fuel : Nat) (pi : RecoverInode) (s : FileRebuild) :
    Except Fault (Option FileRebuilt) :=
  if pi.logHead = 0 ∨ pi.logTail = 0 then .ok none
  else
    let latestTransValid := !pi.recoveryLatestTransInvalid
    (rebuildFileLoop snapshots m pi.logTail latestTransValid fuel pi.logHead s).bind fun replayed =>
      if latestTransValid then
        (lastTransactionLoop snapshots m pi.logTail replayed.entryc fuel replayed.transCurr
          replayed.file).map fun r =>
            some ⟨replayed, some r.2, novaRebuildInodeFinish { replayed with file := r.1 }⟩
      else .ok (some ⟨replayed, none, novaRebuildInodeFinish replayed⟩)

end

end Parfs
