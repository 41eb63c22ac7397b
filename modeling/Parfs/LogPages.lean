/-
The page counter of a log.

`log_pages` of the inode header counts the pages of the log and of its replica.  It is set when
the log gets its first page, and counted again when the inode is rebuilt: the rebuild loop
counts the pages it enters, and what follows it the pages behind the last entry.
-/
import Parfs.LogScan

namespace Parfs

open Lib

/-- `log_pages` in the loop of `nova_rebuild_file_inode_tree` and of
`nova_rebuild_dir_inode_tree`, which is the loop of `novaRebuildInodeTreeLoop`. -/
def rebuildPagesLoop (kind : LogKind) (m : ByteMem) (logTail : Nat) : Nat → Nat → Nat → Except Fault Nat
  | 0, _, _ => .error .loops
  | fuel + 1, currP, logPages =>
    if currP = logTail then .ok logPages
    else
      let logPages := if gotoNextPage m currP then logPages + 1 else logPages
      let p := scanFrom m currP
      if p = 0 then .error .bug
      else
        match scanEntrySize m p kind with
        | some size => rebuildPagesLoop kind m logTail fuel (p + size) logPages
        | none =>
          match kind with
          | .file => rebuildPagesLoop kind m logTail fuel (p + 64) logPages
          | .dir => rebuildPagesLoop kind m logTail fuel p logPages

/-- The loop of `nova_rebuild_inode_finish`. -/
def rebuildFinishPagesLoop (m : ByteMem) : Nat → Nat → Nat → Except Fault Nat
  | 0, _, _ => .error .loops
  | fuel + 1, currP, logPages =>
    if nextLogPage m currP > 0 then rebuildFinishPagesLoop m fuel (nextLogPage m currP) (logPages + 1)
    else .ok logPages

/-- `sih->log_pages` after `nova_rebuild_file_inode_tree` or `nova_rebuild_dir_inode_tree` -/
def novaRebuildLogPages (env : LogEnv) (kind : LogKind) (fuel : Nat) (m : ByteMem) (sih : LogSih) :
    Except Fault Nat :=
  -- nova_rebuild_inode_start
  let logPages := 1
  if sih.logHead = 0 ∨ (kind = .file ∧ sih.logTail = 0) then .ok logPages
  else
    (rebuildPagesLoop kind m sih.logTail fuel sih.logHead logPages).bind fun logPages =>
      (rebuildFinishPagesLoop m fuel sih.logTail logPages).map fun logPages =>
        if env.metadataCsum then logPages * 2 else logPages

end Parfs
