/-
Garbage collection of a log.

There are two passes.  The fast one walks the pages in front of the log tail's, unlinks those
whose counters say that no entry in them is alive, and counts the entries of the others.  When
few of these are alive the thorough one copies the live entries one by one to new pages, hangs
the tail's page behind them, switches the head over and frees the old pages.  What DRAM has of an
entry that was copied is set to the copy.

This is the garbage collection with `metadata_csum` off: no entry is verified, and there is no
replica to be collected in the same way.  The lists of free blocks are those without the blocks
that are going to be granted.
-/
import Parfs.LogFree
import Parfs.LogScan
import Parfs.Dir
import Parfs.FileTree

namespace Parfs

open Lib

/-- What DRAM points to log entries with: the trees and the last entries in
`struct nova_inode_info_header`, and the snapshots of the super block. -/
structure LogIndex where
  tree : Radix Nat
  rbTree : RbTree RangeNode
  /-- `mmap_entry` of the items of `vma_tree`, in order -/
  vmaTree : List Nat
  numVmas : Nat
  lastSetattr : Nat
  lastLinkChange : Nat
  lastDentry : Nat
  /-- `snapshot_info_tree`, with the `snapshot_entry` of each -/
  snapshotInfoTree : Radix Nat

/-- What the garbage collection of a log works on. -/
structure Gc where
  log : LogState
  sbi : NovaSbInfo
  index : LogIndex
  validEntries : Nat
  numEntries : Nat

/-! ### Entries -/

section Entries

variable (m : ByteMem)

/-- `curr_log_entry_invalid`, with `*length`. -/
def currLogEntryInvalid (lastDentry currP : Nat) : Bool × Nat :=
  let type := novaGetEntryType m currP
  if type = NovaEntryType.setAttr.code then
    (m.word (currP + NovaSetattrLogentry.invalidAt) 1 ≠ 0, 56)
  else if type = NovaEntryType.linkChange.code then
    (m.word (currP + NovaLinkChangeEntry.invalidAt) 1 ≠ 0, 40)
  else if type = NovaEntryType.fileWrite.code then
    (m.word (currP + NovaFileWriteEntry.numPagesAt) 4 = m.word (currP + NovaFileWriteEntry.invalidPagesAt) 4, 64)
  else if type = NovaEntryType.dirLog.code then
    (m.word (currP + NovaDentry.invalidAt) 1 ≠ 0 && lastDentry ≠ currP, m.word (currP + NovaDentry.deLenAt) 2)
  else if type = NovaEntryType.mmapWrite.code then
    (m.word (currP + NovaMmapEntry.invalidAt) 1 ≠ 0, 40)
  else if type = NovaEntryType.snapshotInfo.code then
    (m.word (currP + NovaSnapshotInfoEntry.deletedAt) 1 ≠ 0, 40)
  -- no more entries in this page, or an unknown type
  else (true, 4096 - entryLoc currP)

/-- The comparison of `curr_page_invalid`. -/
def currPageInvalid (pageHead : Nat) : Bool := invalidEntries m pageHead = numEntries m pageHead

end Entries

/-! ### What DRAM points to -/

section Assign

variable (env : BallocEnv) (m : ByteMem)

/-- `nova_gc_assign_file_entry` -/
def novaGcAssignFileEntry (tree : Radix Nat) (oldEntry newEntry : Nat) : Radix Nat :=
  let startPgoff := m.word (oldEntry + NovaFileWriteEntry.pgoffAt) 8
  let num := m.word (oldEntry + NovaFileWriteEntry.numPagesAt) 4
  (List.range num).foldl (fun tree i =>
    if tree.slot (startPgoff + i) = some oldEntry then tree.set (startPgoff + i) newEntry else tree) tree

/-- `name` of a dentry, as long as its `name_len` -/
def dentryName (p : Nat) : List UInt8 := m.read (p + 48) (m.word (p + 1) 1)

/-- `nova_gc_assign_dentry` -/
def novaGcAssignDentry (tree : RbTree RangeNode) (oldDentry newDentry : Nat) : RbTree RangeNode :=
  let hash := (bkdrHash (dentryName m oldDentry)).toNat
  match novaFindDirnode env tree hash with
  | (true, some retNode) =>
    if hash = retNode.hash then
      tree.map fun n =>
        if n.addr = retNode.addr then
          novaUpdateRangeNodeChecksum env (if n.direntry = oldDentry then { n with rangeHigh := newDentry } else n)
        else n
    else tree
  | _ => tree

/-- The loop of `nova_gc_assign_mmap_entry`: the first item that points to the entry. -/
def assignFirst (currP newCurr : Nat) : List Nat → List Nat
  | [] => []
  | q :: qs => if q = currP then newCurr :: qs else q :: assignFirst currP newCurr qs

/-- `nova_gc_assign_mmap_entry` -/
def novaGcAssignMmapEntry (index : LogIndex) (currP newCurr : Nat) : LogIndex :=
  if index.numVmas = 0 then index
  else { index with vmaTree := assignFirst currP newCurr index.vmaTree }

/-- `nova_gc_assign_snapshot_entry` -/
def novaGcAssignSnapshotEntry (tree : Radix Nat) (oldEntry currP newCurr : Nat) : Radix Nat :=
  let epochId := m.word (oldEntry + 8) 8
  if tree.slot epochId = some currP then tree.set epochId newCurr else tree

/-- `nova_gc_assign_new_entry` -/
def novaGcAssignNewEntry (index : LogIndex) (currP newCurr : Nat) : LogIndex :=
  let type := novaGetEntryType m currP
  if type = NovaEntryType.setAttr.code then { index with lastSetattr := newCurr }
  else if type = NovaEntryType.linkChange.code then { index with lastLinkChange := newCurr }
  else if type = NovaEntryType.mmapWrite.code then novaGcAssignMmapEntry index currP newCurr
  else if type = NovaEntryType.snapshotInfo.code then
    { index with snapshotInfoTree := novaGcAssignSnapshotEntry m index.snapshotInfoTree currP currP newCurr }
  else if type = NovaEntryType.fileWrite.code then
    { index with tree := novaGcAssignFileEntry m index.tree currP newCurr }
  else if type = NovaEntryType.dirLog.code then
    { index with
      lastDentry := if index.lastDentry = currP then newCurr else index.lastDentry
      rbTree := novaGcAssignDentry env m index.rbTree currP newCurr }
  else index

end Assign

/-! ### The thorough pass -/

/-- `nova_append_one_log_page`, 0 for a failure -/
def novaAppendOneLogPage (s : LogState) (currP : Nat) : LogState × Nat :=
  let a := novaAllocateInodeLogPages s.mem s.grants 1
  let s := { s with mem := a.mem, grants := a.grants }
  if a.retPages ≠ 1 then (s, 0)
  else if currP = 0 then (s, a.newBlock)
  else ({ s with mem := novaSetNextPageAddress s.mem (blockOff currP) a.newBlock }, currP)

/-- `nova_get_append_head` of the main log with `thorough_gc`, 0 for a failure, and `*extended` -/
def novaGetAppendHeadGc (s : LogState) (tail size : Nat) : LogState × Nat × Bool :=
  let currP := if tail ≠ 0 then tail else s.sih.logTail
  if currP = 0 ∨ (isLastEntry currP size ∧ nextLogPage s.mem currP = 0) then
    let s := if isLastEntry currP size then { s with mem := novaSetNextPageFlag s.mem currP } else s
    let r := novaAppendOneLogPage s currP
    if r.2 = 0 then (r.1, 0, true)
    else
      let head := appendHeadInPage r.1 r.2 size
      (head.1, head.2, true)
  else
    let head := appendHeadInPage s currP size
    (head.1, head.2, false)

/-- The variables of the loop of `nova_inode_log_thorough_gc`, and what it works on. -/
structure GcCopy where
  log : LogState
  index : LogIndex
  oldCurrP : Nat
  newCurr : Nat
  blocks : Nat

/-- An entry is copied to the new log. -/
def GcCopy.copy (env : BallocEnv) (c : GcCopy) (currP length : Nat) : GcCopy :=
  let head := novaGetAppendHeadGc c.log c.newCurr length
  let newCurr := head.2.1
  let m := novaIncPageNumEntries (head.1.mem.write newCurr (head.1.mem.read currP length)) newCurr
  { log := { head.1 with mem := m }
    index := novaGcAssignNewEntry env m c.index currP newCurr
    oldCurrP := c.oldCurrP
    newCurr := newCurr + length
    blocks := if head.2.2 then c.blocks + 1 else c.blocks }

/-- The loop of `nova_inode_log_thorough_gc`; it ends at the tail's page. -/
def thoroughGcLoop (env : BallocEnv) : Nat → GcCopy → Nat → Except Fault GcCopy
  | 0, _, _ => .error .loops
  | fuel + 1, c, currP =>
    if currP = c.log.sih.logTail then .ok c
    else
      let c := { c with oldCurrP := currP }
      let currP := scanFrom c.log.mem currP
      if currP / 4096 = c.log.sih.logTail / 4096 then .ok c
      else if currP = 0 then .error .bug
      else
        let entry := currLogEntryInvalid c.log.mem c.index.lastDentry currP
        thoroughGcLoop env fuel (if entry.1 then c else c.copy env currP entry.2) (currP + entry.2)

section Passes

variable (env : BallocEnv) (slab : RangeSlab) (fuel : Nat)

/-- `nova_free_contiguous_log_blocks` of a list that may be empty. -/
def freeLogPages (m : ByteMem) (sbi : NovaSbInfo) (head : Nat) : Except Fault NovaSbInfo :=
  if head > 0 then (novaFreeContiguousLogBlocks env slab .b4K m fuel sbi head).map Prod.fst else .ok sbi

/-- `nova_inode_log_thorough_gc` behind its loop. -/
def thoroughGcFinish (s : Gc) (newHead checkedPages : Nat) (c : GcCopy) : Except Fault Gc :=
  let oldHead := c.log.sih.logHead
  -- Step 1: Link new log to the tail block
  let tailBlock := blockOff c.log.sih.logTail
  (freeLogPages env slab fuel c.log.mem s.sbi (nextLogPage c.log.mem c.newCurr)).bind fun sbi =>
    let m := novaSetNextPageAddress (novaSetNextPageFlag c.log.mem c.newCurr) (blockOff c.newCurr) tailBlock
    -- Step 2: Atomically switch to the new log
    let sih := { c.log.sih with logHead := newHead }
    -- Step 3: Unlink the old log
    if nextLogPage m c.oldCurrP ≠ tailBlock then .error .bug
    else
      let m := novaSetNextPageAddress m (blockOff c.oldCurrP) 0
      -- Step 4: Free the old log
      (freeLogPages env slab fuel m sbi oldHead).map fun sbi =>
        let sih := { sih with logPages := subU64 (sih.logPages + c.blocks) checkedPages }
        { s with log := ⟨m, sih, c.log.grants⟩, sbi := sbi, index := c.index }

/-- `nova_inode_log_thorough_gc` -/
def novaInodeLogThoroughGc (s : Gc) (blocks checkedPages : Nat) : Except Fault Gc :=
  let currP := s.log.sih.logHead
  if currP = 0 ∧ s.log.sih.logTail = 0 then .ok s
  else if currP / 4096 = s.log.sih.logTail / 4096 then .ok s
  else
    let a := novaAllocateInodeLogPages s.log.mem s.log.grants blocks
    let s := { s with log := { s.log with mem := a.mem, grants := a.grants } }
    -- a refusal is a negative number
    if a.retPages = 0 ∨ a.retPages ≠ blocks then .ok s
    else
      (thoroughGcLoop env fuel ⟨s.log, s.index, currP, a.newBlock, blocks⟩ currP).bind
        (thoroughGcFinish env slab fuel s a.newBlock checkedPages)

/-! ### The fast pass -/

/-- The variables of the loop of `nova_inode_log_fast_gc`, and what it works on. -/
structure FastGc where
  mem : ByteMem
  sbi : NovaSbInfo
  curr : Nat
  possibleHead : Nat
  foundHead : Bool
  lastPage : Nat
  firstNeedFree : Bool
  checkedPages : Nat
  freedPages : Nat
  validEntries : Nat
  numEntries : Nat

/-- `free_curr_page` -/
def freeCurrPage (g : FastGc) : FastGc :=
  { g with
    mem := novaSetNextPageAddress g.mem g.lastPage (nextPage g.mem g.curr)
    sbi := (novaFreeLogBlocks env g.sbi .b4K (novaGetBlocknr g.curr) 1 (slab g.sbi)).1 }

/-- What the loop does with one page. -/
def FastGc.page (logHead : Nat) (g : FastGc) : FastGc :=
  if currPageInvalid g.mem g.curr then
    let g := if g.curr = logHead then { g with firstNeedFree := true, lastPage := g.curr }
      else freeCurrPage env slab g
    { g with freedPages := g.freedPages + 1 }
  else
    let num := Parfs.numEntries g.mem g.curr
    { g with
      numEntries := g.numEntries + num
      validEntries := g.validEntries + toU32 (num + 2 ^ 32 - invalidEntries g.mem g.curr)
      possibleHead := if g.foundHead then g.possibleHead else g.curr
      foundHead := true
      lastPage := g.curr }

/-- The loop of `nova_inode_log_fast_gc` -/
def fastGcLoop (logHead logTail : Nat) : Nat → FastGc → Except Fault FastGc
  | 0, _ => .error .loops
  | fuel + 1, g =>
    if g.curr / 4096 = logTail / 4096 then
      -- Don't recycle tail page
      .ok (if g.foundHead then g else { g with possibleHead := g.curr })
    else
      let next := nextLogPage g.mem g.curr
      let g := g.page env slab logHead
      let g := { g with curr := next, checkedPages := g.checkedPages + 1 }
      if next = 0 then .ok g else fastGcLoop logHead logTail fuel g

/-- `nova_inode_log_fast_gc`; the `num_pages` are the ones the log was just extended by. -/
def novaInodeLogFastGc (s : Gc) (numPages : Nat) (forceThorough : Bool) : Except Fault Gc :=
  let head := s.log.sih.logHead
  (fastGcLoop env slab head s.log.sih.logTail fuel ⟨s.log.mem, s.sbi, head, 0, false, 0, false, 0, 0, 0, 0⟩).bind
    fun g =>
      let checkedPages := g.checkedPages - g.freedPages
      let sih := { s.log.sih with
        logHead := g.possibleHead
        logPages := intToU64 (s.log.sih.logPages + (numPages - g.freedPages : Int)) }
      -- the first page is freed last
      let sbi := if g.firstNeedFree then
        (novaFreeLogBlocks env g.sbi .b4K (novaGetBlocknr head) 1 (slab g.sbi)).1 else g.sbi
      let s := ⟨⟨g.mem, sih, s.log.grants⟩, sbi, s.index, g.validEntries, g.numEntries⟩
      if g.numEntries = 0 then .ok s
      else
        -- how many pages the valid entries would fill
        let valid := g.validEntries * checkedPages % 2 ^ 64
        let blocks := valid / g.numEntries + if valid % g.numEntries = 0 then 0 else 1
        if forceThorough ∨ (blocks ≠ 0 ∧ blocks * 2 < checkedPages) then
          novaInodeLogThoroughGc env slab fuel s blocks checkedPages
        else .ok s

end Passes

end Parfs
