/-
Scanning a log.

The loops that read a log back: the two of the inode rebuild, which go from the log head to
the log tail, and the one of the crash recovery, which does not trust the tail and goes on
until it meets something that is no entry.  What a loop does with an entry is left to the
modules about that; here it is which addresses it takes for entries, and where it ends.
-/
import Parfs.Log

namespace Parfs

open Lib

/-- The inodes whose logs are scanned: the types of entries the loops know differ. -/
inductive LogKind where
  | file | dir
  deriving DecidableEq, Repr

def LogKind.handles : LogKind → NovaEntryType → Bool
  | .file, .fileWrite => true
  | .file, .mmapWrite => true
  | .dir, .dirLog => true
  | _, .setAttr => true
  | _, .linkChange => true
  | _, _ => false

/-- The cases of the loop's switch: how far it goes on, `none` for an unknown type. -/
def scanEntrySize (m : ByteMem) (p : Nat) : LogKind → Option Nat
  | .file =>
    if novaGetEntryType m p = NovaEntryType.setAttr.code then some 56
    else if novaGetEntryType m p = NovaEntryType.linkChange.code then some 40
    else if novaGetEntryType m p = NovaEntryType.fileWrite.code then some 64
    else if novaGetEntryType m p = NovaEntryType.mmapWrite.code then some 40
    else none
  | .dir =>
    if novaGetEntryType m p = NovaEntryType.setAttr.code then some 56
    else if novaGetEntryType m p = NovaEntryType.linkChange.code then some 40
    else if novaGetEntryType m p = NovaEntryType.dirLog.code then some (m.word (p + NovaDentry.deLenAt) 2)
    else none

/-- Where a loop looks for an entry: here, or at the start of the next page. -/
def scanFrom (m : ByteMem) (currP : Nat) : Nat :=
  if gotoNextPage m currP then nextLogPage m currP else currP

/-- The loop of `nova_rebuild_file_inode_tree` and of `nova_rebuild_dir_inode_tree`: the
addresses of the entries it handles.  At an unknown type the first one skips the size of a
write entry, the second one stays where it is. -/
def novaRebuildInodeTreeLoop (kind : LogKind) (m : ByteMem) (logTail : Nat) :
    Nat → Nat → Except Fault (List Nat)
  | 0, _ => .error .loops
  | fuel + 1, currP =>
    if currP = logTail then .ok []
    else
      let p := scanFrom m currP
      if p = 0 then .error .bug
      else
        match scanEntrySize m p kind with
        | some size =>
          (novaRebuildInodeTreeLoop kind m logTail fuel (p + size)).map fun visited => p :: visited
        | none =>
          match kind with
          | .file => novaRebuildInodeTreeLoop kind m logTail fuel (p + 64)
          | .dir => novaRebuildInodeTreeLoop kind m logTail fuel p

/-- The first loop of `nova_traverse_file_inode_log`: the addresses of the entries it
handles and the address where it stops. -/
def novaTraverseFileInodeLogLoop (m : ByteMem) : Nat → Nat → Except Fault (List Nat × Nat)
  | 0, _ => .error .loops
  | fuel + 1, currP =>
    let p := scanFrom m currP
    if p = 0 then .error .bug
    else
      match scanEntrySize m p .file with
      | some size =>
        (novaTraverseFileInodeLogLoop m fuel (p + size)).map fun r => (p :: r.1, r.2)
      | none => .ok ([], p)

end Parfs
