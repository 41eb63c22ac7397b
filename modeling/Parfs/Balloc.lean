/-
The block allocator.

Free blocks live in per-CPU lists, one for metadata and one for data, each a
red-black tree of ranges with its two end nodes cached and two counters kept by
hand.  The functions here are `balloc.c`'s, branch for branch; a node is identified
by its address, as the C code compares pointers, and a pointer into a tree is that
address.

Two things come from outside.  The kernel's tree rebalancing is an `RbOps`, and the
address `nova_alloc_blocknode` returns is an argument of the call that makes it:
`none` when the slab allocator has no memory.
-/
import Parfs.Lib.Machine
import Parfs.Lib.RbTree
import Parfs.Lib.Bytes

namespace Parfs

open Lib

/-! ### Constants -/

/-- `HEAD_RESERVED_BLOCKS` -/
def headReservedBlocks : Nat := 64

/-- `TAIL_RESERVED_BLOCKS` -/
def tailReservedBlocks : Nat := 2

/-- `DEAD_ZONE_BLOCKS` -/
def deadZoneBlocks : Nat := 256

/-- `PAGES_PER_2MB` -/
def pagesPer2MB : Nat := 512

/-- `enum nova_alloc_direction` -/
inductive AllocDirection where
  | allocFromHead | allocFromTail
  deriving DecidableEq, Repr

/-- `enum alloc_type` -/
inductive AllocType where
  | log | data
  deriving DecidableEq, Repr

/-- The data block sizes an inode may use (`NOVA_BLOCK_TYPE_*`). -/
inductive BlockType where
  | b4K | b32K | b2M | b1G
  deriving DecidableEq, Repr

/-- `nova_get_numblocks` -/
def novaGetNumblocks : BlockType → Nat
  | .b4K => 1
  | .b32K => 8
  | .b2M => 512
  | .b1G => 0x40000

/-! ### Range nodes -/

/-- `struct nova_range_node`, in its block form. -/
structure RangeNode where
  /-- Where the node lives; two pointers are equal when these are. -/
  addr : Nat
  rangeLow : Nat
  rangeHigh : Nat
  csum : UInt32
  deriving DecidableEq, Repr

/-- `curr_blocks`: how many blocks the node holds. -/
def RangeNode.size (n : RangeNode) : Nat := n.rangeHigh + 1 - n.rangeLow

/-- What the allocator runs against. -/
structure BallocEnv where
  rb : RbOps RangeNode
  dramStructCsum : Bool

/-- `nova_calculate_range_node_csum`: over `vma`, `mmap_entry` (both zero) and the range. -/
def novaCalculateRangeNodeCsum (n : RangeNode) : UInt32 :=
  crc32c 0xFFFFFFFF (leBytes 8 0 ++ leBytes 8 0 ++ leBytes 8 n.rangeLow ++ leBytes 8 n.rangeHigh)

variable (env : BallocEnv)

/-- `nova_update_range_node_checksum` -/
def novaUpdateRangeNodeChecksum (n : RangeNode) : RangeNode :=
  if env.dramStructCsum then { n with csum := novaCalculateRangeNodeCsum n } else n

/-- `nova_range_node_checksum_ok` -/
def novaRangeNodeChecksumOk (n : RangeNode) : Bool :=
  !env.dramStructCsum || n.csum == novaCalculateRangeNodeCsum n

/-- A node just taken from the slab, given a range and checksummed. -/
def novaFreshNode (addr low high : Nat) : RangeNode :=
  novaUpdateRangeNodeChecksum env { addr := addr, rangeLow := low, rangeHigh := high, csum := 0 }

/-! ### Lists -/

/-- `struct sub_free_list` -/
structure SubFreeList where
  blockFreeTree : RbTree RangeNode
  /-- lowest address free range -/
  firstNode : Option Nat
  /-- highest address free range -/
  lastNode : Option Nat
  csumStart : Nat
  numCsumBlocks : Nat
  blockStart : Nat
  blockEnd : Nat
  numFreeBlocks : Nat
  numBlocknode : Nat
  allocCount : Nat
  freeCount : Nat
  allocPages : Nat
  freedPages : Nat

/-- As `kcalloc` leaves it. -/
def SubFreeList.zero : SubFreeList where
  blockFreeTree := .nil
  firstNode := none
  lastNode := none
  csumStart := 0
  numCsumBlocks := 0
  blockStart := 0
  blockEnd := 0
  numFreeBlocks := 0
  numBlocknode := 0
  allocCount := 0
  freeCount := 0
  allocPages := 0
  freedPages := 0

namespace SubFreeList

/-- The ranges, lowest first. -/
def nodes (s : SubFreeList) : List RangeNode := s.blockFreeTree.toList

/-- A store through a pointer to one node. -/
def modify (s : SubFreeList) (addr : Nat) (f : RangeNode → RangeNode) : SubFreeList :=
  { s with blockFreeTree := s.blockFreeTree.map fun n => if n.addr = addr then f n else n }

/-- `rb_next` -/
def rbNext (s : SubFreeList) (addr : Nat) : Option RangeNode :=
  (s.nodes.dropWhile fun n => n.addr ≠ addr).tail.head?

/-- `rb_prev` -/
def rbPrev (s : SubFreeList) (addr : Nat) : Option RangeNode :=
  (s.nodes.reverse.dropWhile fun n => n.addr ≠ addr).tail.head?

/-- The nodes a loop from one end visits: from `first_node` by `rb_next`, or from
`last_node` by `rb_prev`.  (`&NULL->node` is `NULL`: the loop is not entered.) -/
def walk (s : SubFreeList) : AllocDirection → List RangeNode
  | .allocFromHead => s.nodes.dropWhile fun n => some n.addr ≠ s.firstNode
  | .allocFromTail => s.nodes.reverse.dropWhile fun n => some n.addr ≠ s.lastNode

/-- `rb_erase` and `nova_free_blocknode` -/
def rbErase (s : SubFreeList) (addr : Nat) : SubFreeList :=
  { s with blockFreeTree := env.rb.erase (fun n => n.addr == addr) s.blockFreeTree }

end SubFreeList

/-! ### The tree -/

/-- `nova_rbtree_compare_rangenode` for blocks and inodes -/
def novaRbtreeCompareRangenode (key : Nat) (curr : RangeNode) : Ordering :=
  if key < curr.rangeLow then .lt else if key > curr.rangeHigh then .gt else .eq

/-- `nova_find_range_node`: whether the key was found, and `*ret_node`. -/
def novaFindRangeNode (tree : RbTree RangeNode) (key : Nat) : Bool × Option RangeNode :=
  match RbTree.descend (novaRbtreeCompareRangenode key) none tree with
  | (found, some curr) =>
    if !novaRangeNodeChecksumOk env curr then (false, none) else (found, some curr)
  | (found, none) => (found, none)

/-- `nova_insert_range_node`, called through `nova_insert_blocktree` -/
def novaInsertBlocktree (tree : RbTree RangeNode) (newNode : RangeNode) :
    Except Errno (RbTree RangeNode) :=
  match RbTree.link (novaRbtreeCompareRangenode newNode.rangeLow) newNode tree with
  | some t => .ok (env.rb.insertColor t)
  | none => .error .einval

/-- `nova_find_free_slot`: the neighbours of a range about to be freed. -/
def novaFindFreeSlot (s : SubFreeList) (rangeLow rangeHigh : Nat) :
    Except Errno (Option RangeNode × Option RangeNode) :=
  match novaFindRangeNode env s.blockFreeTree rangeLow with
  | (true, _) => .error .einval
  | (false, none) => .ok (none, none)
  | (false, some retNode) =>
    if retNode.rangeHigh < rangeLow then
      match s.rbNext retNode.addr with
      | some next =>
        if !novaRangeNodeChecksumOk env next then .error .eio else .ok (some retNode, some next)
      | none => .ok (some retNode, none)
    else if retNode.rangeLow > rangeHigh then
      match s.rbPrev retNode.addr with
      | some prev =>
        if !novaRangeNodeChecksumOk env prev then .error .eio else .ok (some prev, some retNode)
      | none => .ok (none, some retNode)
    else .error .einval

/-! ### Freeing into one list -/

/-- The part of `nova_free_blocks` that runs under the list's lock. -/
def novaFreeBlocksIn (s : SubFreeList) (blocknr numBlocks currNode : Nat) :
    SubFreeList × Except Errno Unit :=
  let blockLow := blocknr
  let blockHigh := blocknr + numBlocks - 1
  let found (s : SubFreeList) : SubFreeList × Except Errno Unit :=
    ({ s with
        numFreeBlocks := s.numFreeBlocks + numBlocks
        freeCount := s.freeCount + 1
        freedPages := s.freedPages + numBlocks }, .ok ())
  if blockLow < s.blockStart ∨ blockHigh > s.blockEnd + 1 then (s, .error .eio)
  else
    match novaFindFreeSlot env s blockLow blockHigh with
    | .error e => (s, .error e)
    | .ok (prev, next) =>
      let alignsLeft := prev.any fun p => blockLow == p.rangeHigh + 1
      let alignsRight := next.any fun n => blockHigh + 1 == n.rangeLow
      match prev, next, alignsLeft, alignsRight with
      | some p, some n, true, true =>
        -- fits the hole
        let s := s.rbErase env n.addr
        let s := { s with numBlocknode := s.numBlocknode - 1 }
        let s := s.modify p.addr fun q =>
          novaUpdateRangeNodeChecksum env { q with rangeHigh := n.rangeHigh }
        found { s with lastNode := if s.lastNode = some n.addr then some p.addr else s.lastNode }
      | some p, _, true, _ =>
        found (s.modify p.addr fun q =>
          novaUpdateRangeNodeChecksum env { q with rangeHigh := q.rangeHigh + numBlocks })
      | _, some n, _, true =>
        found (s.modify n.addr fun q =>
          novaUpdateRangeNodeChecksum env { q with rangeLow := q.rangeLow - numBlocks })
      | _, _, _, _ =>
        -- aligns somewhere in the middle
        match novaInsertBlocktree env s.blockFreeTree
            (novaFreshNode env currNode blockLow blockHigh) with
        | .error e => (s, .error e)
        | .ok tree =>
          found { s with
            blockFreeTree := tree
            firstNode := if prev.isNone then some currNode else s.firstNode
            lastNode := if next.isNone then some currNode else s.lastNode
            numBlocknode := s.numBlocknode + 1 }

/-! ### Allocating from one list -/

/-- `not_enough_blocks` -/
def notEnoughBlocks (s : SubFreeList) (numBlocks : Nat) (atype : AllocType) : Bool :=
  let node (addr : Nat) : Option RangeNode := s.nodes.find? fun n => n.addr = addr
  match s.firstNode.bind node, s.lastNode.bind node with
  | some first, some last =>
    decide (s.numFreeBlocks < numBlocks) ||
      (atype == .log && decide (subU64 last.rangeHigh first.rangeLow < deadZoneBlocks))
  | _, _ => true

/-- `left_margin`: what lies below the first 2MB boundary after `range_low`. -/
def RangeNode.leftMargin (n : RangeNode) : Nat := pagesPer2MB - n.rangeLow % pagesPer2MB

/-- The search of `nova_alloc_superpage`: the node it settles on, and `num_blocks`,
which the loop shrinks to what a node can give in whole 2MB pages. -/
def superpageSearch : List RangeNode → Nat → Option RangeNode × Nat
  | [], numBlocks => (none, numBlocks)
  | curr :: rest, numBlocks =>
    if !novaRangeNodeChecksumOk env curr then superpageSearch rest numBlocks
    else
      let room := subU64 curr.size curr.leftMargin
      let best := room / pagesPer2MB * pagesPer2MB
      let numBlocks := if numBlocks > room ∧ best > 0 then best else numBlocks
      if curr.size > curr.leftMargin ∧ numBlocks ≤ room then (some curr, numBlocks)
      else superpageSearch rest numBlocks

/-- Unlink a node that is used up.  `prev` and `next` are what the caller stores
in `last_node` and `first_node` when the node was at that end. -/
def SubFreeList.unlink (s : SubFreeList) (curr : RangeNode) (next prev : Option Nat) :
    SubFreeList :=
  let s' := { s with
    firstNode := if s.firstNode = some curr.addr then next else s.firstNode
    lastNode := if s.lastNode = some curr.addr then prev else s.lastNode
    numBlocknode := s.numBlocknode - 1 }
  s'.rbErase env curr.addr

/-- The body of the `if` in `nova_alloc_superpage`: the range is cut out of `curr`. -/
def superpageTake (s : SubFreeList) (curr : RangeNode) (numBlocks : Nat) (blocknode : Option Nat) :
    SubFreeList × Except Errno Nat :=
  let leftMargin := curr.leftMargin
  let rightMargin := toU32 (subU64 (subU64 curr.size leftMargin) numBlocks)
  let savedRangeHigh := curr.rangeHigh
  let s := if leftMargin ≠ 0 then
      s.modify curr.addr fun q =>
        novaUpdateRangeNodeChecksum env { q with rangeHigh := q.rangeLow + leftMargin - 1 }
    else s
  if rightMargin ≠ 0 then
    if leftMargin ≠ 0 then
      match blocknode with
      | none => (s, .error .enomem)
      | some addr =>
        let node := novaFreshNode env addr (curr.rangeLow + leftMargin + numBlocks) savedRangeHigh
        -- the insertion's result is not looked at
        let tree := (novaInsertBlocktree env s.blockFreeTree node).toOption.getD s.blockFreeTree
        ({ s with
            blockFreeTree := tree
            numBlocknode := s.numBlocknode + 1
            lastNode := if s.lastNode = some curr.addr then some addr else s.lastNode },
          .ok numBlocks)
    else
      (s.modify curr.addr fun q =>
          novaUpdateRangeNodeChecksum env { q with rangeLow := q.rangeLow + numBlocks },
        .ok numBlocks)
  else if leftMargin = 0 then
    -- `temp` and `node` carry over from the first test to the second
    let isFirst := s.firstNode = some curr.addr
    let next := (s.rbNext curr.addr).map RangeNode.addr
    let temp := if isFirst then next else some curr.addr
    let node := if isFirst then next else none
    let prev := ((temp.bind s.rbPrev).map RangeNode.addr).or node
    (s.unlink env curr next prev, .ok numBlocks)
  else (s, .ok numBlocks)

/-- `nova_alloc_superpage`: what it returns, and `*new_blocknr`. -/
def novaAllocSuperpage (s : SubFreeList) (numBlocks : Nat) (fromTail : AllocDirection)
    (blocknode : Option Nat) : SubFreeList × Except Errno Nat × Nat :=
  match superpageSearch env (s.walk fromTail) numBlocks with
  | (none, _) => (s, .ok 0, 0)
  | (some curr, numBlocks) =>
    let taken := superpageTake env s curr numBlocks blocknode
    (taken.1, taken.2, curr.rangeLow + curr.leftMargin)

/-- `IS_DATABLOCKS_2MB_ALIGNED` -/
def isDatablocks2MBAligned (numBlocks : Nat) (atype : AllocType) : Bool :=
  numBlocks % pagesPer2MB == 0 && atype == .data

/-- The search of the plain path: a node with a good checksum that, for block types
above 4K, is large enough. -/
def plainSearch (btype : BlockType) (numBlocks : Nat) (l : List RangeNode) : Option RangeNode :=
  l.find? fun curr =>
    novaRangeNodeChecksumOk env curr && !(btype != .b4K && decide (numBlocks > curr.size))

/-- The plain path on the node it settled on: the list, how many, and from where. -/
def plainTake (s : SubFreeList) (curr : RangeNode) (numBlocks : Nat) (fromTail : AllocDirection) :
    SubFreeList × Nat × Nat :=
  if numBlocks ≥ curr.size then
    (s.unlink env curr ((s.rbNext curr.addr).map RangeNode.addr)
      ((s.rbPrev curr.addr).map RangeNode.addr), curr.size, curr.rangeLow)
  else
    match fromTail with
    | .allocFromHead =>
      (s.modify curr.addr fun q =>
        novaUpdateRangeNodeChecksum env { q with rangeLow := q.rangeLow + numBlocks },
        numBlocks, curr.rangeLow)
    | .allocFromTail =>
      (s.modify curr.addr fun q =>
        novaUpdateRangeNodeChecksum env { q with rangeHigh := q.rangeHigh - numBlocks },
        numBlocks, curr.rangeHigh + 1 - numBlocks)

/-- The plain path of `nova_alloc_blocks_in_free_list`, with the checks after it. -/
def plainAlloc (s : SubFreeList) (btype : BlockType) (numBlocks : Nat)
    (fromTail : AllocDirection) : SubFreeList × Except Errno (Nat × Nat) :=
  match plainSearch env btype numBlocks (s.walk fromTail) with
  | none => (s, .error .enospc)
  | some curr =>
    let (s, numBlocks, newBlocknr) := plainTake env s curr numBlocks fromTail
    if s.numFreeBlocks < numBlocks then (s, .error .enospc)
    else ({ s with numFreeBlocks := s.numFreeBlocks - numBlocks }, .ok (numBlocks, newBlocknr))

/-- `nova_alloc_blocks_in_free_list`: how many blocks and, through the pointer, from where. -/
def novaAllocBlocksInFreeList (s : SubFreeList) (btype : BlockType) (atype : AllocType)
    (numBlocks : Nat) (fromTail : AllocDirection) (blocknode : Option Nat) :
    SubFreeList × Except Errno (Nat × Nat) :=
  if s.firstNode = none ∨ s.numFreeBlocks = 0 then (s, .error .enospc)
  else if atype = .log ∧ notEnoughBlocks s numBlocks atype then (s, .error .enospc)
  else if isDatablocks2MBAligned numBlocks atype then
    match novaAllocSuperpage env s numBlocks fromTail blocknode with
    | (s, .ok retBlocks, newBlocknr) =>
      if retBlocks > 0 ∧ newBlocknr ≠ 0 then
        ({ s with numFreeBlocks := subU64 s.numFreeBlocks retBlocks }, .ok (retBlocks, newBlocknr))
      else plainAlloc env s btype numBlocks fromTail
    | (s, .error _, _) => plainAlloc env s btype numBlocks fromTail
  else plainAlloc env s btype numBlocks fromTail

/-! ### The per-CPU lists -/

/-- `struct free_list` -/
structure FreeList where
  metaList : SubFreeList
  dataList : SubFreeList

/-- The list of one kind. -/
def FreeList.sub (f : FreeList) : AllocType → SubFreeList
  | .log => f.metaList
  | .data => f.dataList

/-- Store a list of one kind. -/
def FreeList.setSub (f : FreeList) (atype : AllocType) (s : SubFreeList) : FreeList :=
  match atype with
  | .log => { f with metaList := s }
  | .data => { f with dataList := s }

/-- What the allocator reads of `struct nova_sb_info` and never writes. -/
structure SbGeometry where
  cpus : Nat
  cpus_pos : 0 < cpus
  /-- bytes of the device, of which the checksum area is a share -/
  initsize : Nat
  metaNumBlocks : Nat
  dataNumBlocks : Nat
  /-- block counts are byte counts shifted down by `PAGE_SHIFT` -/
  initsize_lt : initsize < 2 ^ 64
  metaNumBlocks_lt : metaNumBlocks < 2 ^ 52
  dataNumBlocks_lt : dataNumBlocks < 2 ^ 52

namespace SbGeometry

/-- `per_data_list_blocks` and `per_meta_list_blocks` -/
def perListBlocks (g : SbGeometry) : AllocType → Nat
  | .log => g.metaNumBlocks / g.cpus
  | .data => g.dataNumBlocks / g.cpus

/-- `data_csum_blocks`, as `nova_data_csum_init_free_list` computes it -/
def dataCsumBlocks (g : SbGeometry) : Nat := (g.initsize / 512 * 4) % 2 ^ 64 / 4096

end SbGeometry

/-- The allocator's part of `struct nova_sb_info`. -/
structure NovaSbInfo where
  geo : SbGeometry
  freeLists : Nat → FreeList

namespace NovaSbInfo

/-- One list: `nova_get_sub_free_list`. -/
def sub (sbi : NovaSbInfo) (atype : AllocType) (cpu : Nat) : SubFreeList :=
  (sbi.freeLists cpu).sub atype

/-- A store to one list. -/
def setSub (sbi : NovaSbInfo) (atype : AllocType) (cpu : Nat) (s : SubFreeList) : NovaSbInfo :=
  { sbi with
    freeLists := fun i => if i = cpu then (sbi.freeLists i).setSub atype s else sbi.freeLists i }

end NovaSbInfo

/-- `nova_init_free_list` for the list of one kind: where it starts and ends, with the
checksum blocks that `nova_data_csum_init_free_list` cuts off a metadata list. -/
def novaInitFreeList (g : SbGeometry) (index : Nat) (atype : AllocType) : SubFreeList :=
  let perListBlocks := g.perListBlocks atype
  let blockStart := perListBlocks * index
  let blockEnd := subU64 (blockStart + perListBlocks) 1
  match atype with
  | .data => { SubFreeList.zero with blockStart := blockStart, blockEnd := blockEnd }
  | .log =>
    let blockStart := if index = 0 then blockStart + headReservedBlocks else blockStart
    let blockEnd := if index = g.cpus - 1 then subU64 blockEnd tailReservedBlocks else blockEnd
    let csumStart := blockStart
    let blockStart := blockStart + g.dataCsumBlocks / g.cpus
    let blockStart := if g.dataCsumBlocks % g.cpus ≠ 0 then blockStart + 1 else blockStart
    { SubFreeList.zero with
      csumStart := csumStart
      numCsumBlocks := blockStart - csumStart
      blockStart := blockStart
      blockEnd := blockEnd }

/-- What `nova_init_blockmap` does to one list it has just initialised: one node, the
whole range.  The tree is empty, so the insertion cannot fail. -/
def novaFillFreeList (s : SubFreeList) (addr : Nat) : SubFreeList :=
  let blknode := novaFreshNode env addr s.blockStart s.blockEnd
  match novaInsertBlocktree env s.blockFreeTree blknode with
  | .error _ => { s with numFreeBlocks := (subU64 s.blockEnd s.blockStart + 1) % 2 ^ 64 }
  | .ok tree =>
    { s with
      numFreeBlocks := (subU64 s.blockEnd s.blockStart + 1) % 2 ^ 64
      blockFreeTree := tree
      firstNode := some addr
      lastNode := some addr
      numBlocknode := 1 }

/-- `nova_init_blockmap(sb, 0)`; `slab i t` is the address of the node made for list `t`
of CPU `i`. -/
def novaInitBlockmap (g : SbGeometry) (slab : Nat → AllocType → Nat) : NovaSbInfo where
  geo := g
  freeLists i :=
    { metaList := novaFillFreeList env (novaInitFreeList g i .log) (slab i .log)
      dataList := novaFillFreeList env (novaInitFreeList g i .data) (slab i .data) }

/-! ### The entry points -/

/-- `nova_get_candidate_free_list`: `num_free_blocks` is an `int` there. -/
def novaGetCandidateFreeList (sbi : NovaSbInfo) (atype : AllocType) : Nat :=
  ((List.range sbi.geo.cpus).foldl (fun (acc : Nat × Int) i =>
    let n := (sbi.sub atype i).numFreeBlocks
    if n > intToU64 acc.2 then (i, toS32 n) else acc) (0, 0)).1

/-- The retries of `nova_new_blocks`: the list it finally allocates from. -/
def retryLoop (sbi : NovaSbInfo) (numBlocks : Nat) (atype : AllocType) : Nat → Nat → Nat
  | 0, cpuid => cpuid
  | left + 1, cpuid =>
    if notEnoughBlocks (sbi.sub atype cpuid) numBlocks atype then
      retryLoop sbi numBlocks atype left (novaGetCandidateFreeList sbi atype)
    else cpuid

/-- What a call returns: the `int`, and `*blocknr` when the call stores it. -/
structure NewBlocks where
  ret : Int
  blocknr : Nat
  deriving DecidableEq, Repr

/-- `nova_new_blocks`; `cpuid` is `none` for `ANY_CPU`, and then `smp` is the processor
the caller runs on. -/
def novaNewBlocks (sbi : NovaSbInfo) (num : Nat) (btype : BlockType) (atype : AllocType)
    (cpuid : Option Nat) (smp : Nat) (fromTail : AllocDirection) (blocknode : Option Nat) :
    NovaSbInfo × NewBlocks :=
  let numBlocks := num * novaGetNumblocks btype
  if numBlocks = 0 then (sbi, { ret := -Errno.einval.code, blocknr := 0 })
  else
    let cpuid := retryLoop sbi numBlocks atype 2 (cpuid.getD (smp % sbi.geo.cpus))
    match novaAllocBlocksInFreeList env (sbi.sub atype cpuid) btype atype numBlocks fromTail
        blocknode with
    | (s, .error _) =>
      (sbi.setSub atype cpuid s, { ret := -Errno.enospc.code, blocknr := 0 })
    | (s, .ok (retBlocks, newBlocknr)) =>
      if retBlocks = 0 then
        (sbi.setSub atype cpuid s, { ret := -Errno.enospc.code, blocknr := 0 })
      else
        let s := { s with
          allocCount := s.allocCount + 1
          allocPages := s.allocPages + retBlocks }
        (sbi.setSub atype cpuid s,
          { ret := toS32 (retBlocks / novaGetNumblocks btype : Nat), blocknr := newBlocknr })

/-- `nova_new_data_blocks` for an inode of block type `btype` -/
def novaNewDataBlocks (sbi : NovaSbInfo) (btype : BlockType) (num : Nat) (cpu : Option Nat)
    (smp : Nat) (fromTail : AllocDirection) (blocknode : Option Nat) : NovaSbInfo × NewBlocks :=
  novaNewBlocks env sbi num btype .data cpu smp fromTail blocknode

/-- `nova_new_log_blocks` -/
def novaNewLogBlocks (sbi : NovaSbInfo) (btype : BlockType) (num : Nat) (cpu : Option Nat)
    (smp : Nat) (fromTail : AllocDirection) (blocknode : Option Nat) : NovaSbInfo × NewBlocks :=
  novaNewBlocks env sbi num btype .log cpu smp fromTail blocknode

/-- `nova_free_blocks` -/
def novaFreeBlocks (sbi : NovaSbInfo) (blocknr : Nat) (num : Int) (btype : BlockType)
    (atype : AllocType) (blocknode : Option Nat) : NovaSbInfo × Except Errno Unit :=
  if num ≤ 0 then (sbi, .error .einval)
  else
    let cpuid := blocknr / sbi.geo.perListBlocks atype
    match blocknode with
    | none => (sbi, .error .enomem)
    | some currNode =>
      let (s, ret) := novaFreeBlocksIn env (sbi.sub atype cpuid) blocknr
        (novaGetNumblocks btype * num.toNat) currNode
      (sbi.setSub atype cpuid s, ret)

/-- `nova_free_data_blocks` -/
def novaFreeDataBlocks (sbi : NovaSbInfo) (btype : BlockType) (blocknr : Nat) (num : Int)
    (blocknode : Option Nat) : NovaSbInfo × Except Errno Unit :=
  novaFreeBlocks env sbi blocknr num btype .data blocknode

/-- `nova_free_log_blocks`: block 0 is the superblock. -/
def novaFreeLogBlocks (sbi : NovaSbInfo) (btype : BlockType) (blocknr : Nat) (num : Int)
    (blocknode : Option Nat) : NovaSbInfo × Except Errno Unit :=
  if blocknr = 0 then (sbi, .error .einval)
  else novaFreeBlocks env sbi blocknr num btype .log blocknode

end Parfs
