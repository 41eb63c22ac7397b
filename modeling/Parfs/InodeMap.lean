/-
The inode number allocator.

Inode numbers are dealt out to the CPUs round robin: number `ino` belongs to map
`ino % cpus`, where it is the internal number `ino / cpus`.  Each map keeps the
internal numbers in use as a tree of ranges, the same range nodes and the same tree
functions the block allocator uses, and a pointer to the lowest range.
-/
import Parfs.Balloc

namespace Parfs

open Lib

/-- `NOVA_NORMAL_INODE_START` -/
def novaNormalInodeStart : Nat := 32

/-- `MAX_INODE` of `nova_alloc_unused_inode` -/
def maxInode : Nat := 2 ^ 31

variable (env : BallocEnv)

/-- `struct inode_map` -/
structure InodeMap where
  inodeInuseTree : RbTree RangeNode
  numRangeNodeInode : Nat
  firstInodeRange : Option Nat
  allocated : Nat
  freed : Nat

namespace InodeMap

/-- As `kzalloc` leaves it. -/
def zero : InodeMap where
  inodeInuseTree := .nil
  numRangeNodeInode := 0
  firstInodeRange := none
  allocated := 0
  freed := 0

/-- The ranges in use, lowest first. -/
def nodes (m : InodeMap) : List RangeNode := m.inodeInuseTree.toList

/-- The node a pointer points to. -/
def node (m : InodeMap) (addr : Nat) : Option RangeNode := m.nodes.find? fun n => n.addr = addr

/-- A store through a pointer to one node. -/
def modify (m : InodeMap) (addr : Nat) (f : RangeNode → RangeNode) : InodeMap :=
  { m with inodeInuseTree := m.inodeInuseTree.map fun n => if n.addr = addr then f n else n }

/-- `rb_next` -/
def rbNext (m : InodeMap) (addr : Nat) : Option RangeNode :=
  (m.nodes.dropWhile fun n => n.addr ≠ addr).tail.head?

/-- `rb_erase` and `nova_free_inode_node`, with the count that follows them -/
def rbErase (m : InodeMap) (addr : Nat) : InodeMap :=
  { m with
    inodeInuseTree := env.rb.erase (fun n => n.addr == addr) m.inodeInuseTree
    numRangeNodeInode := m.numRangeNodeInode - 1 }

end InodeMap

/-- The inode allocator's part of `struct nova_sb_info`. -/
structure InodeMaps where
  cpus : Nat
  cpus_pos : 0 < cpus
  inodeMaps : Nat → InodeMap
  sInodesUsedCount : Nat

/-- A store to one map. -/
def InodeMaps.set (s : InodeMaps) (cpu : Nat) (m : InodeMap) : InodeMaps :=
  { s with inodeMaps := fun i => if i = cpu then m else s.inodeMaps i }

/-- `range_high` of `nova_init_inode_inuse_list` -/
def initialRangeHigh (cpus : Nat) : Nat :=
  if novaNormalInodeStart % cpus ≠ 0 then novaNormalInodeStart / cpus + 1
  else novaNormalInodeStart / cpus

/-- `nova_insert_inodetree`: the tree functions are those of the block allocator. -/
def novaInsertInodetree (tree : RbTree RangeNode) (newNode : RangeNode) :
    Except Errno (RbTree RangeNode) :=
  novaInsertBlocktree env tree newNode

/-- `nova_search_inodetree` -/
def novaSearchInodetree (s : InodeMaps) (ino : Nat) : Bool × Option RangeNode :=
  novaFindRangeNode env (s.inodeMaps (ino % s.cpus)).inodeInuseTree (ino / s.cpus)

/-- `nova_init_inode_inuse_list`; `slab i` is where the node of map `i` is made.  The
trees are empty, so no insertion fails. -/
def novaInitInodeInuseList (cpus : Nat) (hpos : 0 < cpus) (slab : Nat → Nat) : InodeMaps where
  cpus := cpus
  cpus_pos := hpos
  sInodesUsedCount := novaNormalInodeStart
  inodeMaps i :=
    match novaInsertInodetree env .nil (novaFreshNode env (slab i) 0 (initialRangeHigh cpus)) with
    | .error _ => InodeMap.zero
    | .ok tree =>
      { InodeMap.zero with
        inodeInuseTree := tree
        numRangeNodeInode := 1
        firstInodeRange := some (slab i) }

/-- What `nova_alloc_unused_inode` does to one map: the new internal number.  The first
range is asserted to exist. -/
def allocUnusedIn (m : InodeMap) : InodeMap × Except Errno Nat :=
  match m.firstInodeRange.bind m.node with
  | none => (m, .error .eio)
  | some i =>
    if !novaRangeNodeChecksumOk env i then (m, .error .eio)
    else
      let newIno := i.rangeHigh + 1
      let grow : InodeMap := m.modify i.addr fun q =>
        novaUpdateRangeNodeChecksum env { q with rangeHigh := newIno }
      match m.rbNext i.addr with
      | none =>
        if newIno < maxInode - 1 then (grow, .ok newIno) else (m, .error .enospc)
      | some nextI =>
        if !novaRangeNodeChecksumOk env nextI then (m, .error .eio)
        else if newIno = nextI.rangeLow - 1 then
          -- fill the gap completely
          let filled := m.modify i.addr fun q =>
            novaUpdateRangeNodeChecksum env { q with rangeHigh := nextI.rangeHigh }
          (filled.rbErase env nextI.addr, .ok newIno)
        else if newIno < nextI.rangeLow - 1 then (grow, .ok newIno)
        else (m, .error .enospc)

/-- `nova_alloc_unused_inode`: `*ino`. -/
def novaAllocUnusedInode (s : InodeMaps) (cpuid : Nat) : InodeMaps × Except Errno Nat :=
  match allocUnusedIn env (s.inodeMaps cpuid) with
  | (_, .error e) => (s, .error e)
  | (m, .ok newIno) =>
    ({ s.set cpuid { m with allocated := m.allocated + 1 } with
        sInodesUsedCount := s.sInodesUsedCount + 1 }, .ok (newIno * s.cpus + cpuid))

/-- What `nova_free_inuse_inode` does to the map, with the range it found. -/
def freeInuseIn (m : InodeMap) (i : RangeNode) (internalIno : Nat) (blocknode : Option Nat) :
    InodeMap × Except Errno Unit :=
  if internalIno = i.rangeLow ∧ internalIno = i.rangeHigh then
    -- fits entire node
    (m.rbErase env i.addr, .ok ())
  else if internalIno = i.rangeLow ∧ internalIno < i.rangeHigh then
    (m.modify i.addr fun q =>
      novaUpdateRangeNodeChecksum env { q with rangeLow := internalIno + 1 }, .ok ())
  else if internalIno > i.rangeLow ∧ internalIno = i.rangeHigh then
    (m.modify i.addr fun q =>
      novaUpdateRangeNodeChecksum env { q with rangeHigh := internalIno - 1 }, .ok ())
  else
    -- the search found the number in the range, so what is left is the middle
    match blocknode with
    | none => (m, .ok ())
    | some addr =>
      let cut := m.modify i.addr fun q =>
        novaUpdateRangeNodeChecksum env { q with rangeHigh := internalIno - 1 }
      match novaInsertInodetree env cut.inodeInuseTree
          (novaFreshNode env addr (internalIno + 1) i.rangeHigh) with
      | .error e => (cut, .error e)
      | .ok tree =>
        ({ cut with
            inodeInuseTree := tree
            numRangeNodeInode := cut.numRangeNodeInode + 1 }, .ok ())

/-- `nova_free_inuse_inode` -/
def novaFreeInuseInode (s : InodeMaps) (ino : Nat) (blocknode : Option Nat) :
    InodeMaps × Except Errno Unit :=
  let cpuid := ino % s.cpus
  match novaSearchInodetree env s ino with
  | (true, some i) =>
    let freed := freeInuseIn env (s.inodeMaps cpuid) i (ino / s.cpus) blocknode
    match freed.2 with
    | .error e => (s.set cpuid freed.1, .error e)
    | .ok _ =>
      ({ s.set cpuid { freed.1 with freed := freed.1.freed + 1 } with
          sInodesUsedCount := s.sInodesUsedCount - 1 }, .ok ())
  | _ => (s, .error .einval)

end Parfs
