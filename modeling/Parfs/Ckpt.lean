/-
The checkpoint table.

For an inode the table keeps the id of the last transaction that is known to be complete.  The
entries stand in the log of an inode of their own, and a radix tree in DRAM says where.  An
entry is stored in place when the tree has one for the inode, and appended otherwise.

There are two log tails, one in the DRAM header and one in the inode on the device.  The log
heads of the two are always set together, so one is kept here.
-/
import Parfs.Lib.Radix
import Parfs.Log

namespace Parfs

open Lib

/-- `struct nova_ckpt_entry` -/
structure NovaCkptEntry where
  ino : UInt64
  latestTransId : UInt64
  deriving DecidableEq, Repr

/-- `sizeof(struct nova_ckpt_entry)` -/
def novaCkptEntrySize : Nat := 16

/-- `struct nova_ckpt`, with the memory its log is in. -/
structure NovaCkpt where
  /-- the memory, `ckpt->sih`, and what the allocator is going to answer -/
  log : LogState
  /-- `ckpt->pi->log_tail` -/
  piLogTail : Nat
  /-- inode numbers to the addresses of their entries -/
  tree : Radix Nat

/-- `nova_ckpt_init`, on an inode that was just cleared -/
def novaCkptInit (m : ByteMem) (grants : Grants) : NovaCkpt where
  log := ⟨m, ⟨0, 0, 0, 0, 0⟩, grants⟩
  piLogTail := 0
  tree := Radix.empty Nat

/-- `nova_write_ckpt_entry` -/
def novaWriteCkptEntry (env : LogEnv) (ckpt : NovaCkpt) (entry : NovaCkptEntry) : Except Fault NovaCkpt :=
  match ckpt.tree.slot entry.ino.toNat with
  | some entryInNvm =>
    .ok { ckpt with
      log := { ckpt.log with
        mem := ckpt.log.mem.setWord (entryInNvm + 8) 8 entry.latestTransId.toNat } }
  | none =>
    (novaGetAppendHead env ckpt.log ckpt.log.sih.logTail novaCkptEntrySize .main).map fun head =>
      let curr := head.2
      let m := head.1.mem.setWord curr 8 entry.ino.toNat
      let m := m.setWord (curr + 8) 8 entry.latestTransId.toNat
      { log := { head.1 with mem := m }
        piLogTail := curr + novaCkptEntrySize
        tree := ckpt.tree.set entry.ino.toNat curr }

/-- `nova_get_ckpt_id`; the id -1 is an `u64` -/
def novaGetCkptId (ckpt : NovaCkpt) (ino : UInt64) : Nat :=
  match ckpt.tree.slot ino.toNat with
  | some entryInNvm => ckpt.log.mem.word (entryInNvm + 8) 8
  | none => 2 ^ 64 - 1

/-- The loop of `nova_ckpt_restore`; `radix_tree_insert` does not replace anything. -/
def ckptRestoreLoop (m : ByteMem) (logTail : Nat) : Nat → Nat → Radix Nat → Except Fault (Radix Nat)
  | 0, _, _ => .error .loops
  | fuel + 1, curr, tree =>
    if curr = logTail then .ok tree
    else
      let p := if isLastEntry curr novaCkptEntrySize then nextLogPage m curr else curr
      if p = 0 then .ok tree
      else
        let ino := m.word p 8
        let tree := if (tree.slot ino).isSome then tree else tree.set ino p
        ckptRestoreLoop m logTail fuel (p + novaCkptEntrySize) tree

/-- `nova_ckpt_restore` -/
def novaCkptRestore (fuel : Nat) (ckpt : NovaCkpt) : Except Fault NovaCkpt :=
  let sih : LogSih := ⟨ckpt.log.sih.logHead, ckpt.piLogTail, 0, 0, 0⟩
  (ckptRestoreLoop ckpt.log.mem sih.logTail fuel sih.logHead (Radix.empty Nat)).map fun tree =>
    { log := { ckpt.log with sih := sih }, piLogTail := ckpt.piLogTail, tree := tree }

end Parfs
