/-
Inode logs.

A log is a chain of pages.  Each page holds entries in front of a tail with two counters,
the address of the page's replica and the address of the next page.  Entries are appended
at the log tail; a page that has no room gets a marker byte and the log goes on in the next
page, which is allocated when there is none.  With `metadata_csum` there is a second log
that follows the first one page by page.

Memory is bytes, addresses are offsets from the start of the metadata area.  New pages are
not zeroed.  A function that the C code ends with `BUG()` returns the fault; a loop over a
chain of pages has a bound on its steps, and running into it is a fault as well.
-/
import Parfs.Lib.Machine
import Parfs.LogEntry

namespace Parfs

open Lib

/-- `BLOCK_OFF` -/
def blockOff (p : Nat) : Nat := p / 4096 * 4096
/-- `ENTRY_LOC` -/
def entryLoc (p : Nat) : Nat := p % 4096
/-- `LOG_BLOCK_TAIL` -/
def logBlockTail : Nat := 4064
/-- `EXTEND_THRESHOLD` -/
def extendThreshold : Nat := 256 * 1024

inductive Fault where
  | bug | loops
  deriving DecidableEq, Repr

/-- `struct nova_inode_info_header`, as far as logs go.  The inode's own log pointers are
always set together with these. -/
structure LogSih where
  logHead : Nat
  logTail : Nat
  alterLogHead : Nat
  alterLogTail : Nat
  logPages : Nat
  deriving DecidableEq, Repr

/-- What `nova_new_log_blocks` is going to answer, call after call: the first block and the
number of blocks, or a refusal.  When the list has ended, refusals. -/
abbrev Grants : Type := List (Option (Nat × Nat))

structure LogState where
  mem : ByteMem
  sih : LogSih
  grants : Grants

/-- `MAIN_LOG` and `ALTER_LOG` -/
inductive LogId where
  | main | alter
  deriving DecidableEq, Repr

structure LogEnv where
  /-- the module parameter `metadata_csum` -/
  metadataCsum : Bool
  /-- bound on the steps of a walk along a chain of pages -/
  fuel : Nat

/-- `nova_get_block_off` of a log block: there is one metadata device, and offsets count
from its start. -/
def logBlockOff (blocknr : Nat) : Nat := blocknr * 4096

/-! ### Page tails -/

section Tails

variable (m : ByteMem)

/-- `page_tail.invalid_entries` of the page at `page` -/
def invalidEntries (page : Nat) : Nat := m.word (page + logBlockTail) 4
/-- `page_tail.num_entries` -/
def numEntries (page : Nat) : Nat := m.word (page + logBlockTail + 4) 4
/-- `page_tail.alter_page` -/
def alterPage (page : Nat) : Nat := m.word (page + logBlockTail + 16) 8
/-- `page_tail.next_page` -/
def nextPage (page : Nat) : Nat := m.word (page + logBlockTail + 24) 8

/-- `next_log_page` -/
def nextLogPage (curr : Nat) : Nat := nextPage m (blockOff curr)

/-- `alter_log_entry` -/
def alterLogEntry (env : LogEnv) (currP : Nat) : Nat :=
  if env.metadataCsum then alterPage m (blockOff currP) + entryLoc currP else 0

/-- `nova_set_next_page_flag` -/
def novaSetNextPageFlag (curr : Nat) : ByteMem :=
  if entryLoc curr ≥ logBlockTail then m
  else m.setWord curr 1 NovaEntryType.nextPage.code

/-- `nova_set_next_page_address` -/
def novaSetNextPageAddress (page next : Nat) : ByteMem :=
  m.setWord (page + logBlockTail + 24) 8 next

/-- `nova_set_page_num_entries` -/
def novaSetPageNumEntries (page num : Nat) : ByteMem := m.setWord (page + logBlockTail + 4) 4 num

/-- `nova_set_page_invalid_entries` -/
def novaSetPageInvalidEntries (page num : Nat) : ByteMem := m.setWord (page + logBlockTail) 4 num

/-- `nova_inc_page_num_entries` -/
def novaIncPageNumEntries (curr : Nat) : ByteMem :=
  novaSetPageNumEntries m (blockOff curr) (numEntries m (blockOff curr) + 1)

/-- `nova_inc_page_invalid_entries` -/
def novaIncPageInvalidEntries (curr : Nat) : ByteMem :=
  novaSetPageInvalidEntries m (blockOff curr) (invalidEntries m (blockOff curr) + 1)

/-- `nova_set_alter_page_address` -/
def novaSetAlterPageAddress (env : LogEnv) (curr alterCurr : Nat) : ByteMem :=
  if env.metadataCsum then
    (m.setWord (blockOff curr + logBlockTail + 16) 8 alterCurr).setWord
      (blockOff alterCurr + logBlockTail + 16) 8 curr
  else m

/-- `is_last_entry` -/
def isLastEntry (currP size : Nat) : Bool := decide (entryLoc currP + size > logBlockTail)

/-- `nova_get_entry_type` -/
def novaGetEntryType (p : Nat) : Nat := (m p).toNat

/-- `goto_next_page` -/
def gotoNextPage (currOff : Nat) : Bool :=
  decide (entryLoc currOff + 32 > logBlockTail) ||
    decide (novaGetEntryType m currOff = NovaEntryType.nextPage.code)

end Tails

/-! ### Extending a log -/

section Extend

variable (env : LogEnv)

/-- The loop of `nova_update_alter_pages`. -/
def novaUpdateAlterPagesLoop : Nat → ByteMem → Nat → Nat → Except Fault ByteMem
  | 0, _, _, _ => .error .loops
  | fuel + 1, m, curr, alterCurr =>
    if curr ≠ 0 ∧ alterCurr ≠ 0 then
      let m := novaSetAlterPageAddress m env curr alterCurr
      novaUpdateAlterPagesLoop fuel m (nextLogPage m curr) (nextLogPage m alterCurr)
    else if curr ≠ 0 ∨ alterCurr ≠ 0 then .error .bug
    else .ok m

/-- `nova_update_alter_pages` -/
def novaUpdateAlterPages (m : ByteMem) (curr alterCurr : Nat) : Except Fault ByteMem :=
  if curr = 0 ∨ alterCurr = 0 ∨ env.metadataCsum = false then .ok m
  else novaUpdateAlterPagesLoop env env.fuel m curr alterCurr

/-- One page of `nova_coalesce_log_pages`. -/
def coalescePage (m : ByteMem) (page next : Nat) : ByteMem :=
  novaSetNextPageAddress (novaSetPageInvalidEntries (novaSetPageNumEntries m page 0) page 0) page next

/-- `nova_coalesce_log_pages` -/
def novaCoalesceLogPages (m : ByteMem) (prevBlocknr firstBlocknr numPages : Nat) : ByteMem :=
  let m := if prevBlocknr ≠ 0 then
    novaSetNextPageAddress m (logBlockOff prevBlocknr) (logBlockOff firstBlocknr) else m
  let m := (List.range (numPages - 1)).foldl (fun m i =>
    coalescePage m (logBlockOff (firstBlocknr + i)) (logBlockOff (firstBlocknr + i + 1))) m
  coalescePage m (logBlockOff (firstBlocknr + numPages - 1)) 0

/-- What `nova_allocate_inode_log_pages` leaves behind: `*new_block` and the number of
pages it returns, 0 for a failure. -/
structure LogAlloc where
  mem : ByteMem
  grants : Grants
  newBlock : Nat
  retPages : Nat

/-- The loop of `nova_allocate_inode_log_pages` over the remaining pages. -/
def allocateRemaining (newBlock : Nat) :
    Grants → ByteMem → (numPages prevBlocknr retPages : Nat) → LogAlloc
  | [], m, _, _, ret => ⟨m, [], newBlock, ret⟩
  | none :: gs, m, num, _, ret =>
    if num = 0 then ⟨m, none :: gs, newBlock, ret⟩ else ⟨m, gs, newBlock, ret⟩
  | some g :: gs, m, num, prev, ret =>
    if num = 0 then ⟨m, some g :: gs, newBlock, ret⟩
    else
      allocateRemaining newBlock gs (novaCoalesceLogPages m prev g.1 g.2) (num - g.2)
        (g.1 + g.2 - 1) (ret + g.2)

/-- `nova_allocate_inode_log_pages` -/
def novaAllocateInodeLogPages (m : ByteMem) (grants : Grants) (numPages : Nat) : LogAlloc :=
  match grants with
  | [] => ⟨m, [], 0, 0⟩
  | none :: gs => ⟨m, gs, 0, 0⟩
  | some g :: gs =>
    allocateRemaining (logBlockOff g.1) gs (novaCoalesceLogPages m 0 g.1 g.2) (numPages - g.2)
      (g.1 + g.2 - 1) g.2

/-- `nova_init_pi_log`, the same as `nova_init_pic_log` -/
def novaInitPiLog (sih : LogSih) (newBlock : Nat) : LogId → LogSih
  | .main => { sih with logHead := newBlock, logTail := newBlock, logPages := 1 }
  | .alter => { sih with alterLogHead := newBlock, alterLogTail := newBlock,
                         logPages := sih.logPages + 1 }

/-- `nova_initialize_inode_log`, with whether it succeeded -/
def novaInitializeInodeLog (s : LogState) (log : LogId) : LogState × Bool :=
  let a := novaAllocateInodeLogPages s.mem s.grants 1
  if a.retPages ≠ 1 then ({ s with mem := a.mem, grants := a.grants }, false)
  else (⟨a.mem, novaInitPiLog s.sih a.newBlock log, a.grants⟩, true)

/-- The last page of a chain, where the walk over the alternate log ends. -/
def lastLogPage (m : ByteMem) : Nat → Nat → Except Fault Nat
  | 0, _ => .error .loops
  | fuel + 1, curr => if nextLogPage m curr > 0 then lastLogPage m fuel (nextLogPage m curr) else .ok curr

/-- `nova_extend_inode_log`, 0 for a failure -/
def novaExtendInodeLog (s : LogState) (currP : Nat) : Except Fault (LogState × Nat) :=
  if currP = 0 then
    let main := novaInitializeInodeLog s .main
    if !main.2 then .ok (main.1, 0)
    else if env.metadataCsum then
      let alter := novaInitializeInodeLog main.1 .alter
      if !alter.2 then .ok (alter.1, 0)
      else
        (novaUpdateAlterPages env alter.1.mem alter.1.sih.logHead alter.1.sih.alterLogHead).map
          fun m => ({ alter.1 with mem := m }, alter.1.sih.logHead)
    else .ok (main.1, main.1.sih.logHead)
  else
    let numPages := if s.sih.logPages ≥ extendThreshold then extendThreshold else s.sih.logPages
    let a := novaAllocateInodeLogPages s.mem s.grants numPages
    if a.retPages = 0 then .ok (⟨a.mem, s.sih, a.grants⟩, 0)
    else
      let m := novaSetNextPageAddress a.mem (blockOff currP) a.newBlock
      if env.metadataCsum then
        let b := novaAllocateInodeLogPages m a.grants numPages
        if b.retPages = 0 then .ok (⟨b.mem, s.sih, b.grants⟩, 0)
        else
          (lastLogPage b.mem env.fuel (blockOff s.sih.alterLogTail)).bind fun alterCurr =>
            (novaUpdateAlterPages env (novaSetNextPageAddress b.mem alterCurr b.newBlock)
              a.newBlock b.newBlock).map fun m => (⟨m, s.sih, b.grants⟩, a.newBlock)
      else .ok (⟨m, s.sih, a.grants⟩, a.newBlock)

/-! ### Appending -/

/-- The end of `nova_get_append_head`: on to the next page when the entry does not fit. -/
def appendHeadInPage (s : LogState) (currP size : Nat) : LogState × Nat :=
  if isLastEntry currP size then
    let m := novaSetNextPageFlag s.mem currP
    ({ s with mem := m }, nextLogPage m currP)
  else (s, currP)

/-- `nova_get_append_head`, 0 for a failure; `thorough_gc` is 0 on every append -/
def novaGetAppendHead (s : LogState) (tail size : Nat) (log : LogId) :
    Except Fault (LogState × Nat) :=
  let currP := if tail ≠ 0 then tail
    else match log with
      | .main => s.sih.logTail
      | .alter => s.sih.alterLogTail
  if currP = 0 ∨ (isLastEntry currP size ∧ nextLogPage s.mem currP = 0) then
    let s := if isLastEntry currP size then { s with mem := novaSetNextPageFlag s.mem currP } else s
    if log ≠ .main then .ok (s, 0)
    else
      (novaExtendInodeLog env s currP).map fun r =>
        if r.2 = 0 then r else appendHeadInPage r.1 r.2 size
  else .ok (appendHeadInPage s currP size)

/-- `struct nova_inode_update`, as far as `nova_append_log_entry` goes -/
structure LogUpdate where
  tail : Nat
  alterTail : Nat
  currEntry : Nat
  alterEntry : Nat
  deriving DecidableEq, Repr

/-- `memset(entry, 0, size)` and `nova_update_log_entry` of a new entry -/
def novaPutLogEntry (m : ByteMem) (p : Nat) (e : NovaLogEntryInfo) : ByteMem :=
  (m.write p (List.replicate e.size 0)).write p e.bytes

/-- `nova_append_log_entry`, up to the assignment of a write entry to the file's pages -/
def novaAppendLogEntry (s : LogState) (e : NovaLogEntryInfo) (update : LogUpdate) :
    Except Fault (LogState × Except Errno LogUpdate) :=
  (novaGetAppendHead env s update.tail e.size .main).bind fun head =>
    let currP := head.2
    if currP = 0 then .ok (head.1, .error .enospc)
    else
      let m := novaIncPageNumEntries (novaPutLogEntry head.1.mem currP e) currP
      let m := m.setWord (currP + e.size) 1 0
      let update := { update with currEntry := currP, tail := currP + e.size }
      if env.metadataCsum then
        (novaGetAppendHead env { head.1 with mem := m } update.alterTail e.size .alter).map fun alter =>
          let alterCurrP := alter.2
          if alterCurrP = 0 then (alter.1, .error .enospc)
          else
            ({ alter.1 with mem := novaPutLogEntry alter.1.mem alterCurrP e },
              .ok { update with alterEntry := alterCurrP, alterTail := alterCurrP + e.size })
      else .ok ({ head.1 with mem := m }, .ok update)

/-- `nova_update_inode`, as far as the log pointers go -/
def novaUpdateInode (s : LogState) (update : LogUpdate) : LogState :=
  { s with sih := { s.sih with logTail := update.tail, alterLogTail := update.alterTail } }

end Extend

end Parfs
