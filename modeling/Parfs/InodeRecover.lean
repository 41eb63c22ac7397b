/-
Recovering the inode numbers in use.

After a crash the maps of the inode allocator start over with the reserved numbers, and one
thread per CPU goes through the pages of that CPU's inode table.  It collects the numbers of
the inodes it finds into ranges, as far as they follow one another in a page, and puts each
range into the map.  The threads run side by side; each call takes the lock of the one map it
changes.
-/
import Parfs.InodeMap
import Parfs.Log

namespace Parfs

open Lib

section

variable (env : BallocEnv)

/-- `nova_find_free_slot` for inode numbers: all it is given is the tree. -/
def novaFindFreeInodeSlot (tree : RbTree RangeNode) (rangeLow rangeHigh : Nat) :
    Except Errno (Option RangeNode × Option RangeNode) :=
  novaFindFreeSlot env { SubFreeList.zero with blockFreeTree := tree } rangeLow rangeHigh

/-- What `nova_failure_insert_inodetree` does to the map; `newNode` is where the slab makes a
node. -/
def failureInsertIn (m : InodeMap) (internalLow internalHigh newNode : Nat) :
    InodeMap × Except Errno Unit :=
  match novaFindFreeInodeSlot env m.inodeInuseTree internalLow internalHigh with
  | .error e => (m, .error e)
  | .ok (prev, next) =>
    let alignsLeft := prev.any fun p => internalLow == p.rangeHigh + 1
    let alignsRight := next.any fun n => internalHigh + 1 == n.rangeLow
    match prev, next, alignsLeft, alignsRight with
    | some p, some n, true, true =>
      -- fits the hole
      ((m.rbErase env n.addr).modify p.addr fun q =>
        novaUpdateRangeNodeChecksum env { q with rangeHigh := n.rangeHigh }, .ok ())
    | some p, _, true, _ =>
      (m.modify p.addr fun q => novaUpdateRangeNodeChecksum env
        { q with rangeHigh := q.rangeHigh + (internalHigh - internalLow + 1) }, .ok ())
    | _, some n, _, true =>
      (m.modify n.addr fun q => novaUpdateRangeNodeChecksum env
        { q with rangeLow := q.rangeLow - (internalHigh - internalLow + 1) }, .ok ())
    | _, _, _, _ =>
      -- aligns somewhere in the middle
      match novaInsertInodetree env m.inodeInuseTree
          (novaFreshNode env newNode internalLow internalHigh) with
      | .error e => (m, .error e)
      | .ok tree =>
        ({ m with
            inodeInuseTree := tree
            numRangeNodeInode := m.numRangeNodeInode + 1 }, .ok ())

/-- `nova_failure_insert_inodetree` -/
def novaFailureInsertInodetree (s : InodeMaps) (inoLow inoHigh newNode : Nat) :
    Except Fault (InodeMaps × Except Errno Unit) :=
  if inoLow > inoHigh then .error .bug
  else
    let cpu := inoLow % s.cpus
    if inoHigh % s.cpus ≠ cpu then .error .bug
    else
      let r := failureInsertIn env (s.inodeMaps cpu) (inoLow / s.cpus) (inoHigh / s.cpus) newNode
      .ok (s.set cpu r.1, r.2)

/-- The calls of all threads in the order in which they get at the maps.  `slab i s` is where
call number `i` gets its node; what a call returns is not looked at. -/
def failureInserts (slab : Nat → InodeMaps → Nat) :
    List (Nat × Nat) → Nat → InodeMaps → Except Fault InodeMaps
  | [], _, s => .ok s
  | call :: calls, i, s =>
    (novaFailureInsertInodetree env s call.1 call.2 (slab i s)).bind fun r =>
      failureInserts slab calls (i + 1) r.1

end

/-! ### The threads -/

/-- `struct nova_inode`, as far as the threads look at it to tell whether it is an inode -/
structure TableInode where
  novaIno : Nat
  iMode : Nat
  deleted : Nat
  valid : Nat
  deriving DecidableEq, Repr

/-- The inode is there, and not to be deleted: `appendInodeToSnapshot` says whether
`nova_append_inode_to_snapshot` returns 0. -/
def TableInode.found (appendInodeToSnapshot : TableInode → Bool) (pi : TableInode) : Bool :=
  pi.iMode ≠ 0 && pi.deleted = 0 && (pi.valid ≠ 0 || appendInodeToSnapshot pi)

/-- `num_inodes_per_page` -/
def numInodesPerPage : Nat := 2 ^ (21 - 7)

section

variable (cpus : Nat)

/-- `nova_failure_update_inodetree`: the range it calls `nova_failure_insert_inodetree` with, if
it does, and `*ino_low` and `*ino_high` after it. -/
def novaFailureUpdateInodetree (novaIno inoLow inoHigh : Nat) : Option (Nat × Nat) × (Nat × Nat) :=
  if inoLow = 0 then (none, (novaIno, novaIno))
  else if novaIno = inoHigh + cpus then (none, (inoLow, novaIno))
  else
    -- a new start
    (some (inoLow, inoHigh), (novaIno, novaIno))

/-- The inner loop of `failure_thread_func`, over the inodes of one page that are found, with
the call after the loop. -/
def failurePageLoop : List Nat → (inoLow inoHigh : Nat) → List (Nat × Nat)
  | [], inoLow, inoHigh => if inoLow ≠ 0 ∧ inoHigh ≠ 0 then [(inoLow, inoHigh)] else []
  | novaIno :: rest, inoLow, inoHigh =>
    let r := novaFailureUpdateInodetree cpus novaIno inoLow inoHigh
    r.1.toList ++ failurePageLoop rest r.2.1 r.2.2

/-- The calls `failure_thread_func` makes, with the inode table's `num` pages. -/
def failureThreadCalls (appendInodeToSnapshot : TableInode → Bool) (table : Nat → Nat → TableInode)
    (num : Nat) : List (Nat × Nat) :=
  (List.range num).flatMap fun count =>
    failurePageLoop cpus (((List.range numInodesPerPage).map (table count)).filter
      (TableInode.found appendInodeToSnapshot) |>.map TableInode.novaIno) 0 0

end

end Parfs
