/-
Snapshot lists.

A snapshot keeps a list for each CPU of what must be freed with it: a chain of pages in DRAM with
entries of 32 bytes, and the address behind the last one.  Appenders of one list take turns under
its mutex, but the page an appender needs is allocated between two turns.  At unmount a list is
copied to log pages page by page, and read back at the next mount.

DRAM and the metadata area are two memories; offsets in the second count from its start.  A page
from `kmalloc` is aligned, and what it holds is what was there before.  Media errors are left out.
-/
import Parfs.Log

namespace Parfs

open Lib

/-- `struct snapshot_list`, without the mutex. -/
structure SnapshotList where
  numPages : Nat
  head : Nat
  tail : Nat
  deriving DecidableEq, Repr

/-- `struct snapshot_inode_entry` and `struct snapshot_file_write_entry` -/
inductive SnapshotEntry where
  | inode (deleted : UInt8) (novaIno deleteEpochId : UInt64)
  | fileWrite (deleted : UInt8) (nvmm numPages deleteEpochId : UInt64)
  deriving DecidableEq, Repr

namespace SnapshotEntry

/-- As it is laid out, with the padding cleared: `SS_INODE` is 1 and `SS_FILE_WRITE` is 2. -/
def bytes : SnapshotEntry → List UInt8
  | inode deleted novaIno deleteEpochId =>
    [1, deleted] ++ leBytes 6 0 ++ leBytes 8 0 ++ leBytes 8 novaIno.toNat ++ leBytes 8 deleteEpochId.toNat
  | fileWrite deleted nvmm numPages deleteEpochId =>
    [2, deleted] ++ leBytes 6 0 ++ leBytes 8 nvmm.toNat ++ leBytes 8 numPages.toNat ++
      leBytes 8 deleteEpochId.toNat

/-- What is read through a pointer to an entry; `none` for an unknown type. -/
def read (m : ByteMem) (p : Nat) : Option SnapshotEntry :=
  match novaGetEntryType m p with
  | 1 => some (inode (m (p + 1)) (.ofNat (m.word (p + 16) 8)) (.ofNat (m.word (p + 24) 8)))
  | 2 =>
    some (fileWrite (m (p + 1)) (.ofNat (m.word (p + 8) 8)) (.ofNat (m.word (p + 16) 8))
      (.ofNat (m.word (p + 24) 8)))
  | _ => none

end SnapshotEntry

/-! ### Walking a list -/

/-- The loop of `nova_delete_snapshot_list_entries`: the entries it comes by, `none` for one of
unknown type.  What it does with an entry is left out.  A null pointer is a fault. -/
def deleteEntriesLoop (m : ByteMem) (tail : Nat) : Nat → Nat → Except Fault (List (Option SnapshotEntry))
  | 0, _ => .error .loops
  | fuel + 1, currP =>
    if currP = tail then .ok []
    else if currP = 0 then .error .bug
    else if gotoNextPage m currP then deleteEntriesLoop m tail fuel (nextLogPage m currP)
    else (deleteEntriesLoop m tail fuel (currP + 32)).map fun rest => SnapshotEntry.read m currP :: rest

/-- `nova_delete_snapshot_list_entries` -/
def novaDeleteSnapshotListEntries (m : ByteMem) (fuel : Nat) (list : SnapshotList) :
    Except Fault (List (Option SnapshotEntry)) :=
  if list.head = 0 ∧ list.tail = 0 then .ok [] else deleteEntriesLoop m list.tail fuel list.head

/-! ### Appending -/

/-- `nova_set_link_page_epoch_id` -/
def novaSetLinkPageEpochId (m : ByteMem) (page epochId : Nat) : ByteMem :=
  m.setWord (page + logBlockTail + 8) 8 epochId

/-- A page just allocated, with its epoch and no next page. -/
def linkPage (m : ByteMem) (page epochId : Nat) : ByteMem :=
  novaSetNextPageAddress (novaSetLinkPageEpochId m page epochId) page 0

/-- One list of `nova_initialize_snapshot_info_pages`. -/
def novaInitializeSnapshotList (m : ByteMem) (page epochId : Nat) : ByteMem × SnapshotList :=
  (linkPage m page epochId, { numPages := 1, head := page, tail := page })

/-- `nova_write_snapshot_list_entry` -/
def novaWriteSnapshotListEntry (m : ByteMem) (list : SnapshotList) (currP : Nat) (entry : List UInt8) :
    ByteMem × SnapshotList :=
  if isLastEntry currP entry.length then (m, list)
  else (m.write currP entry, { list with tail := currP + entry.length })

/-- What a turn leaves, and whether the appender comes back with a page. -/
structure AppendTurn where
  dram : ByteMem
  list : SnapshotList
  retry : Bool

/-- The turn behind the test for a page: the entry is written. -/
def appendTurnWrite (m : ByteMem) (list : SnapshotList) (entry : List UInt8) : AppendTurn :=
  let currP := list.tail
  let m' := if isLastEntry currP entry.length then m.setWord currP 1 NovaEntryType.nextPage.code else m
  let currP := if isLastEntry currP entry.length then nextLogPage m' currP else currP
  let r := novaWriteSnapshotListEntry m' list currP entry
  { dram := r.1, list := r.2, retry := false }

/-- `nova_append_snapshot_list_entry` between lock and unlock; `newPage` is 0 at first. -/
def novaAppendSnapshotListEntry (m : ByteMem) (list : SnapshotList) (entry : List UInt8) (newPage : Nat) :
    AppendTurn :=
  let currP := list.tail
  -- link prev block and newly allocated page
  let m := if newPage ≠ 0 then novaSetNextPageAddress m (blockOff currP) newPage else m
  let list := if newPage ≠ 0 then { list with numPages := list.numPages + 1 } else list
  if isLastEntry currP entry.length ∧ nextLogPage m currP = 0 then
    let m := m.setWord currP 1 NovaEntryType.nextPage.code
    if newPage = 0 then { dram := m, list := list, retry := true } else appendTurnWrite m list entry
  else appendTurnWrite m list entry

/-! ### Appenders of one list -/

/-- A list while appenders are at work. -/
structure SnapshotRun where
  dram : ByteMem
  list : SnapshotList
  /-- appenders between two turns: the entry and the page, 0 until there is one -/
  waiting : List (SnapshotEntry × Nat)
  /-- what the appends that have returned 0 were given, in the order of their last turns -/
  appended : List SnapshotEntry
  /-- the pages `kmalloc` has handed out -/
  owned : List Nat

/-- What happens next. -/
inductive SnapshotAct where
  | start | kmalloc | enomem | retry
  deriving DecidableEq, Repr

/-- Where a turn leaves the run. -/
def SnapshotRun.after (r : SnapshotRun) (t : AppendTurn) (e : SnapshotEntry)
    (others : List (SnapshotEntry × Nat)) : SnapshotRun :=
  { r with
    dram := t.dram
    list := t.list
    waiting := if t.retry then (e, 0) :: others else others
    appended := if t.retry then r.appended else r.appended ++ [e] }

/-- The appenders of a list, in any order. -/
inductive SnapshotStep (epochId : Nat) : SnapshotRun → SnapshotAct → SnapshotRun → Prop
  | start (r : SnapshotRun) (e : SnapshotEntry) :
      SnapshotStep epochId r .start
        (r.after (novaAppendSnapshotListEntry r.dram r.list e.bytes 0) e r.waiting)
  | kmalloc (r : SnapshotRun) (before after : List (SnapshotEntry × Nat)) (e : SnapshotEntry) (page : Nat)
      (hwaiting : r.waiting = before ++ (e, 0) :: after)
      (hpage : page % 4096 = 0 ∧ page ≠ 0 ∧ page < 2 ^ 64) (hnew : page ∉ r.owned) :
      SnapshotStep epochId r .kmalloc
        { r with
          dram := linkPage r.dram page epochId
          waiting := before ++ (e, page) :: after
          owned := page :: r.owned }
  | enomem (r : SnapshotRun) (before after : List (SnapshotEntry × Nat)) (e : SnapshotEntry)
      (hwaiting : r.waiting = before ++ (e, 0) :: after) :
      SnapshotStep epochId r .enomem { r with waiting := before ++ after }
  | retry (r : SnapshotRun) (before after : List (SnapshotEntry × Nat)) (e : SnapshotEntry) (page : Nat)
      (hwaiting : r.waiting = before ++ (e, page) :: after) (hpage : page ≠ 0) :
      SnapshotStep epochId r .retry
        (r.after (novaAppendSnapshotListEntry r.dram r.list e.bytes page) e (before ++ after))

/-- A list with its first page. -/
def SnapshotRun.init (dram : ByteMem) (page epochId : Nat) : SnapshotRun where
  dram := (novaInitializeSnapshotList dram page epochId).1
  list := (novaInitializeSnapshotList dram page epochId).2
  waiting := []
  appended := []
  owned := [page]

/-! ### Copying a list -/

/-- Why saving or restoring stops. -/
inductive SnapshotStop where
  | errno (e : Errno)
  | oops
  deriving DecidableEq, Repr

/-- The loop of the two copy functions: `numPages` pages along two chains, and the last page
written to.  `dramAddr` says which of the two addresses is one in DRAM, where 0 is no address. -/
def copySnapshotListLoop (dramAddr : Nat × Nat → Nat) (src : ByteMem) :
    Nat → ByteMem → (prevDst currDst currSrc : Nat) → Except SnapshotStop (ByteMem × Nat)
  | 0, dst, prevDst, _, _ => .ok (dst, prevDst)
  | left + 1, dst, _, currDst, currSrc =>
    if dramAddr (currSrc, currDst) = 0 then .error .oops
    else
      -- the next pointer is left alone
      let dst := dst.write currDst (src.read currSrc logBlockTail)
      copySnapshotListLoop dramAddr src left dst currDst (nextLogPage dst currDst) (nextLogPage src currSrc)

/-- `nova_copy_snapshot_list_to_nvmm`, with what it stores in `nvmm_list` -/
def novaCopySnapshotListToNvmm (dram nvmm : ByteMem) (list : SnapshotList) (newBlock : Nat) :
    Except SnapshotStop (ByteMem × SnapshotList) :=
  (copySnapshotListLoop Prod.fst dram list.numPages nvmm newBlock newBlock list.head).map fun r =>
    (r.1, { numPages := list.numPages, head := newBlock, tail := r.2 + entryLoc list.tail })

/-- `nova_copy_snapshot_list_to_dram` -/
def novaCopySnapshotListToDram (nvmm dram : ByteMem) (list nvmmList : SnapshotList) :
    Except SnapshotStop (ByteMem × SnapshotList) :=
  (copySnapshotListLoop Prod.snd nvmm nvmmList.numPages dram list.head list.head nvmmList.head).map fun r =>
    (r.1, { list with numPages := nvmmList.numPages, tail := r.2 + entryLoc nvmmList.tail })

/-! ### Saving -/

/-- `&nvmm_page->lists[i]`: the page has room for 128. -/
def nvmmListAddr (nvmmPage i : Nat) : Nat := nvmmPage + 32 * i

/-- Fill in `nvmm_page->lists[i]`. -/
def setNvmmList (nvmm : ByteMem) (nvmmPage i : Nat) (list : SnapshotList) : ByteMem :=
  ((nvmm.setWord (nvmmListAddr nvmmPage i + 8) 8 list.numPages).setWord
    (nvmmListAddr nvmmPage i + 24) 8 list.tail).setWord (nvmmListAddr nvmmPage i + 16) 8 list.head

/-- Read `nvmm_page->lists[i]`. -/
def nvmmList (nvmm : ByteMem) (nvmmPage i : Nat) : SnapshotList where
  numPages := nvmm.word (nvmmListAddr nvmmPage i + 8) 8
  head := nvmm.word (nvmmListAddr nvmmPage i + 16) 8
  tail := nvmm.word (nvmmListAddr nvmmPage i + 24) 8

/-- The loop of `nova_save_snapshot_info`, from CPU `i` on. -/
def saveListsLoop (dram : ByteMem) (nvmmPage : Nat) :
    List SnapshotList → Nat → ByteMem → Grants → Except SnapshotStop (ByteMem × Grants)
  | [], _, nvmm, grants => .ok (nvmm, grants)
  | list :: lists, i, nvmm, grants =>
    let a := novaAllocateInodeLogPages nvmm grants list.numPages
    if a.retPages ≠ list.numPages then .error (.errno .enospc)
    else
      match novaCopySnapshotListToNvmm dram a.mem list a.newBlock with
      | .error e => .error e
      | .ok r => saveListsLoop dram nvmmPage lists (i + 1) (setNvmmList r.1 nvmmPage i r.2) a.grants

/-- `nova_save_snapshot_info`: the metadata area, the page of the lists, and what is left to grant.
The log entry that gets the page's address is left out. -/
def novaSaveSnapshotInfo (dram : ByteMem) (lists : List SnapshotList) (nvmm : ByteMem) (grants : Grants) :
    Except SnapshotStop (ByteMem × Nat) :=
  let a := novaAllocateInodeLogPages nvmm grants 1
  if a.retPages ≠ 1 then .error (.errno .enospc)
  else (saveListsLoop dram a.newBlock lists 0 a.mem a.grants).map fun r => (r.1, a.newBlock)

/-! ### Restoring -/

/-- What `kmalloc` is going to answer, call after call; when the list has ended, nothing. -/
abbrev Kmallocs : Type := List Nat

/-- The loop of `nova_allocate_snapshot_list_pages`: the first page is the one with no page before. -/
def allocateListPagesLoop (epochId : Nat) :
    Nat → ByteMem → Kmallocs → SnapshotList → (prevPage : Nat) → Option (ByteMem × Kmallocs × SnapshotList)
  | 0, dram, ks, list, _ => some (dram, ks, list)
  | _ + 1, _, [], _, _ => none
  | left + 1, dram, newPage :: ks, list, prevPage =>
    let dram := linkPage dram newPage epochId
    let list := if prevPage = 0 then { list with head := newPage } else list
    let dram := if prevPage ≠ 0 then novaSetNextPageAddress dram prevPage newPage else dram
    allocateListPagesLoop epochId left dram ks list newPage

/-- `nova_allocate_snapshot_list_pages`; `none` for `-ENOMEM`, with the pages given back -/
def novaAllocateSnapshotListPages (epochId : Nat) (dram : ByteMem) (ks : Kmallocs)
    (list nvmmList : SnapshotList) : Option (ByteMem × Kmallocs × SnapshotList) :=
  allocateListPagesLoop epochId nvmmList.numPages dram ks list 0

/-- The loop of `nova_restore_snapshot_info_lists`, from CPU `i` on; the lists are cleared before. -/
def novaRestoreSnapshotInfoLists (nvmm : ByteMem) (nvmmPage epochId : Nat) :
    (cpus i : Nat) → ByteMem → Kmallocs → Except SnapshotStop (ByteMem × List SnapshotList)
  | 0, _, dram, _ => .ok (dram, [])
  | cpus + 1, i, dram, ks =>
    match novaAllocateSnapshotListPages epochId dram ks ⟨0, 0, 0⟩ (nvmmList nvmm nvmmPage i) with
    | none => .error (.errno .enomem)
    | some (dram, ks, list) =>
      match novaCopySnapshotListToDram nvmm dram list (nvmmList nvmm nvmmPage i) with
      | .error e => .error e
      | .ok (dram, list) =>
        (novaRestoreSnapshotInfoLists nvmm nvmmPage epochId cpus (i + 1) dram ks).map fun r =>
          (r.1, list :: r.2)

end Parfs
