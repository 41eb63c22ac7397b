/-
Crash recovery of file logs.

After a crash nothing is known about which blocks are in use.  One thread for each CPU goes
over the inodes of its tables.  For a file it scans the log, replays the write entries into
two arrays that say which block and which entry each page of the file has, looks for the
last transaction, verifies that transaction's data blocks, drops it when a block fails, and
marks what is in use in a bitmap.  A file of more than `MAX_PGOFF` pages is gone over once
for every window of that many pages.  The thread has one `nova_inode_info_header` for all of
its inodes and one copy of an inode in DRAM.

This is the recovery with `metadata_csum` off and 4K blocks.  What a local variable or a
stack slot holds before it is assigned is a parameter.
-/
import Parfs.LogScan

namespace Parfs

open Lib

/-- `MAX_PGOFF` -/
def maxPgoff : Nat := 262144

/-- `WENTRY` -/
def wentry (m : ByteMem) (p : Nat) : NovaFileWriteEntry where
  reassigned := m.word (p + NovaFileWriteEntry.reassignedAt) 1
  updating := m.word (p + NovaFileWriteEntry.updatingAt) 1
  numPages := m.word (p + NovaFileWriteEntry.numPagesAt) 4
  blocknr := m.word (p + NovaFileWriteEntry.blocknrAt) 8
  pgoff := m.word (p + NovaFileWriteEntry.pgoffAt) 8
  invalidPages := m.word (p + NovaFileWriteEntry.invalidPagesAt) 4
  mtime := m.word (p + NovaFileWriteEntry.mtimeAt) 4
  size := m.word (p + NovaFileWriteEntry.sizeAt) 8
  epochId := m.word (p + NovaFileWriteEntry.epochIdAt) 8
  transId := m.word (p + NovaFileWriteEntry.transIdAt) 8
  csum := m.word (p + 60) 4

/-- `struct task_ring`, the arrays.  A page that has no block has block number 0 here. -/
structure TaskRing where
  nvmmArray : Nat → Nat
  entryArray : Nat → Nat

/-- The DRAM copy of `struct nova_inode`. -/
structure RecoverInode where
  isDir : Bool
  deleted : Bool
  logHead : Nat
  logTail : Nat
  recoveryLatestTransInvalid : Bool
  deriving DecidableEq, Repr

/-- What a recovery thread works on: the memory, its `nova_inode_info_header`, its arrays and
its 4K bitmap. -/
structure Recovery where
  mem : ByteMem
  iSize : Nat
  transId : Nat
  ring : TaskRing
  bm : Nat → Bool

/-- The variables of `nova_traverse_file_inode_log` beside. -/
structure Traverse extends Recovery where
  pi : RecoverInode
  transCurr : Nat
  lastBlocknr : Nat
  loopEnd : Bool

structure RecoverEnv where
  /-- `nova_verify_data_csum` -/
  verifyDataCsum : Nat → Bool
  /-- what `ret` of `nova_vaild_data_csum` holds before the loop -/
  uninitRet : Bool

/-- `sih->ckpt_id` without `NOVA_CKPT`, which is -1 -/
def ckptId : Nat := 2 ^ 64 - 1

/-- `set_bm` with `BM_4K` -/
def setBm (bm : Nat → Bool) (bit : Nat) : Nat → Bool := Function.update bm bit true

/-! ### Replaying entries into the arrays -/

/-- `nova_check_old_entry`: the blocks about to leave the arrays stay marked. -/
def novaCheckOldEntry (ring : TaskRing) (base : Nat) (bm : Nat → Bool) (pgoff numFree : Nat) :
    Nat → Bool :=
  (List.range numFree).foldl (fun bm i =>
    let nvmm := ring.nvmmArray (pgoff - base + i)
    if nvmm ≠ 0 then setBm bm nvmm else bm) bm

/-- The run of pages with one old entry that the loop of `nova_set_ring_array` has gathered. -/
structure OldRun where
  oldEntry : Nat
  oldPgoff : Nat
  numFree : Nat
  bm : Nat → Bool

/-- One page of the loop that gathers the runs. -/
def gatherOld (ring : TaskRing) (base : Nat) (run : OldRun) (pgoff : Nat) : OldRun :=
  let index := pgoff - base
  if ring.nvmmArray index ≠ 0 then
    if ring.entryArray index ≠ run.oldEntry then
      let bm := if run.oldEntry ≠ 0 then
        novaCheckOldEntry ring base run.bm run.oldPgoff run.numFree else run.bm
      ⟨ring.entryArray index, pgoff, 1, bm⟩
    else { run with numFree := run.numFree + 1 }
  else run

/-- The loop over the pages from `start` up to `stop`, and what is left after it. -/
def checkOldEntries (ring : TaskRing) (base : Nat) (bm : Nat → Bool) (start stop : Nat) :
    Nat → Bool :=
  let run := (List.range' start (stop - start)).foldl (gatherOld ring base) ⟨0, 0, 0, bm⟩
  if run.oldEntry ≠ 0 then novaCheckOldEntry ring base run.bm run.oldPgoff run.numFree else run.bm

/-- `nova_set_ring_array` -/
def novaSetRingArray (r : Recovery) (base entry : Nat) : Recovery :=
  let e := wentry r.mem entry
  let start := max e.pgoff base
  let stop := min (e.pgoff + e.numPages) (base + maxPgoff)
  let inside := fun index => start ≤ index + base ∧ index + base < stop
  { r with
    bm := checkOldEntries r.ring base r.bm start stop
    ring := ⟨fun index => if inside index then getNvmm e (index + base) else r.ring.nvmmArray index,
      fun index => if inside index then entry else r.ring.entryArray index⟩ }

/-- `nova_ring_setattr_entry` -/
def novaRingSetattrEntry (r : Recovery) (base entry : Nat) : Recovery :=
  let size := r.mem.word (entry + NovaSetattrLogentry.sizeAt) 8
  if r.iSize ≤ size then { r with iSize := size }
  else
    let firstBlocknr := (size + 4095) / 4096
    let lastBlocknr := (r.iSize - 1) / 4096
    if firstBlocknr > lastBlocknr then { r with iSize := size }
    else
      let first := max firstBlocknr base
      let last := min lastBlocknr (base + maxPgoff - 1)
      let inside := fun index => first ≤ index + base ∧ index + base ≤ last
      { r with
        iSize := size
        bm := checkOldEntries r.ring base r.bm first (last + 1)
        ring := ⟨fun index => if inside index then 0 else r.ring.nvmmArray index,
          fun index => if inside index then 0 else r.ring.entryArray index⟩ }

/-- `nova_traverse_file_write_entry`, with the largest page offset -/
def novaTraverseFileWriteEntry (r : Recovery) (base entry : Nat) : Recovery × Nat :=
  let e := wentry r.mem entry
  let r := { r with iSize := e.size }
  if e.numPages ≠ e.invalidPages then
    (if e.pgoff < base + maxPgoff ∧ e.pgoff + e.numPages > base then novaSetRingArray r base entry
      else r, e.pgoff + e.numPages - 1)
  else (r, 0)

/-! ### The scan -/

namespace Traverse

variable (t : Traverse) (base : Nat)

/-- The page a scan goes on to is marked, in the first window. -/
def markJump (currP : Nat) : Traverse :=
  if gotoNextPage t.mem currP ∧ base = 0 then { t with bm := setBm t.bm (scanFrom t.mem currP / 4096) }
  else t

/-- The cases of the scan's switch. -/
def handle (p : Nat) : Traverse :=
  if novaGetEntryType t.mem p = NovaEntryType.setAttr.code then
    { t with toRecovery := novaRingSetattrEntry t.toRecovery base p }
  else if novaGetEntryType t.mem p = NovaEntryType.fileWrite.code then
    let transId := (wentry t.mem p).transId
    let t := if transId ≠ t.transId then { t with transId := transId, transCurr := p } else t
    let r := novaTraverseFileWriteEntry t.toRecovery base p
    { t with toRecovery := r.1, lastBlocknr := if t.lastBlocknr < r.2 then r.2 else t.lastBlocknr }
  else t

end Traverse

/-- The loop that scans the log, with the address where it ends. -/
def traverseScan (base : Nat) : Nat → Traverse → Nat → Except Fault (Traverse × Nat)
  | 0, _, _ => .error .loops
  | fuel + 1, t, currP =>
    let p := scanFrom t.mem currP
    if gotoNextPage t.mem currP ∧ base = 0 ∧ p % 4096 ≠ 0 then .error .bug
    else if p = 0 then .error .bug
    else
      let t := t.markJump base currP
      match scanEntrySize t.mem p .file with
      | none => .ok ({ t with loopEnd := true }, p)
      | some size =>
        let t := t.handle base p
        if t.loopEnd then .ok (t, p + size) else traverseScan base fuel t (p + size)

/-! ### The last transaction -/

/-- `nova_vaild_data_csum`: the blocks it verifies and what it returns. -/
def novaVaildDataCsum (env : RecoverEnv) (e : NovaFileWriteEntry) : List Nat × Bool :=
  let blocks := (List.range e.numPages).map fun i => getNvmm e (e.pgoff + i)
  if blocks = [] then ([], env.uninitRet)
  else (blocks.takeWhile env.verifyDataCsum ++ (blocks.dropWhile env.verifyDataCsum).take 1,
    blocks.all env.verifyDataCsum)

/-- What the loop that verifies the last transaction comes to. -/
structure TransCheck where
  /-- the blocks it has verified, in order -/
  checked : List Nat
  invalid : Bool
  loopEnd : Bool
  deriving DecidableEq, Repr

/-- The loop that verifies the last transaction. -/
def checkTransaction (env : RecoverEnv) (m : ByteMem) (currP : Nat) :
    Nat → Nat → Except Fault TransCheck
  | 0, _ => .error .loops
  | fuel + 1, tmp =>
    if tmp = currP then .ok ⟨[], false, false⟩
    else
      let p := scanFrom m tmp
      match scanEntrySize m p .file with
      | none => .ok ⟨[], false, true⟩
      | some size =>
        if novaGetEntryType m p = NovaEntryType.fileWrite.code then
          let valid := novaVaildDataCsum env (wentry m p)
          if valid.2 then
            (checkTransaction env m currP fuel (p + size)).map fun c =>
              { c with checked := valid.1 ++ c.checked }
          else .ok ⟨valid.1, true, true⟩
        else checkTransaction env m currP fuel (p + size)

/-- `nova_clear_file_entry_data_blocks`; an index outside the window is a store outside the
arrays. -/
def novaClearFileEntryDataBlocks (r : Recovery) (base entry : Nat) : Recovery :=
  let e := wentry r.mem entry
  let indices := (List.range e.numPages).map fun i => subU64 (e.pgoff + i) base
  { r with
    mem := r.mem.setWord (entry + NovaFileWriteEntry.invalidPagesAt) 4 e.numPages
    ring := ⟨fun index => if index ∈ indices then 0 else r.ring.nvmmArray index,
      fun index => if index ∈ indices then 0 else r.ring.entryArray index⟩ }

/-- The loop that drops the last transaction. -/
def clearTransaction (base currP : Nat) : Nat → Traverse → Nat → Except Fault Traverse
  | 0, _, _ => .error .loops
  | fuel + 1, t, tmp =>
    if tmp = currP then .ok t
    else
      let p := scanFrom t.mem tmp
      match scanEntrySize t.mem p .file with
      | none => .ok { t with loopEnd := true }
      | some size =>
        let t := if novaGetEntryType t.mem p = NovaEntryType.fileWrite.code then
          { t with toRecovery := novaClearFileEntryDataBlocks t.toRecovery base p } else t
        clearTransaction base currP fuel t (p + size)

/-! ### One file -/

/-- The walk to the end of the chain, page by page. -/
def markChain (m : ByteMem) : Nat → (Nat → Bool) → Nat → Except Fault (Nat → Bool)
  | 0, _, _ => .error .loops
  | fuel + 1, bm, currP =>
    let next := nextLogPage m currP
    if next > 0 then
      if next % 4096 ≠ 0 then .error .bug else markChain m fuel (setBm bm (next / 4096)) next
    else .ok bm

/-- `nova_set_file_bm` -/
def novaSetFileBm (r : Recovery) (base lastBlocknr : Nat) : Recovery :=
  let last := if lastBlocknr ≥ base + maxPgoff then maxPgoff - 1 else lastBlocknr - base
  { r with
    bm := (List.range (last + 1)).foldl (fun bm pgoff =>
      if r.ring.nvmmArray pgoff ≠ 0 then setBm bm (r.ring.nvmmArray pgoff) else bm) r.bm
    ring := ⟨fun index => if index ≤ last ∧ r.ring.nvmmArray index ≠ 0 then 0 else r.ring.nvmmArray index,
      fun index => if index ≤ last ∧ r.ring.nvmmArray index ≠ 0 then 0 else r.ring.entryArray index⟩ }

/-- What a scan found out about the last transaction: `trans_curr` and the blocks that were
verified, `none` when the verification was left out. -/
structure TraversePass where
  transCurr : Nat
  checked : Option (List Nat)
  deriving DecidableEq, Repr

/-- The part of `nova_traverse_file_inode_log` about the last transaction. -/
def latestTransaction (env : RecoverEnv) (fuel base : Nat) (t : Traverse) (currP : Nat) :
    Except Fault (Traverse × TraversePass) :=
  if ckptId ≠ t.transId then
    (checkTransaction env t.mem currP fuel t.transCurr).bind fun c =>
      let pass : TraversePass := ⟨t.transCurr, some c.checked⟩
      if c.invalid then
        let pi := { t.pi with recoveryLatestTransInvalid := true }
        (clearTransaction base currP fuel { t with pi := pi, loopEnd := false } t.transCurr).map
          fun t => (t, pass)
      else .ok ({ t with loopEnd := c.loopEnd }, pass)
  else .ok (t, ⟨t.transCurr, none⟩)

/-- One window of `nova_traverse_file_inode_log`. -/
def traversePass (env : RecoverEnv) (fuel base : Nat) (t : Traverse) :
    Except Fault (Traverse × TraversePass) :=
  let head := t.pi.logHead
  if base = 0 ∧ head % 4096 ≠ 0 then .error .bug
  else
    let t := if base = 0 then { t with bm := setBm t.bm (head / 4096) } else t
    (traverseScan base fuel t head).bind fun scan =>
      let currP := scan.2
      let t := scan.1
      let t := { t with pi := { t.pi with logTail := currP } }
      (latestTransaction env fuel base t currP).bind fun latest =>
        let t := latest.1
        let marked : Except Fault (Nat → Bool) :=
          if base = 0 then markChain t.mem fuel t.bm (blockOff currP) else .ok t.bm
        marked.map fun bm =>
          ({ t with toRecovery := novaSetFileBm { t.toRecovery with bm := bm } base t.lastBlocknr },
            latest.2)

/-- The windows of `nova_traverse_file_inode_log`, one after the other. -/
def traverseWindows (env : RecoverEnv) (fuel : Nat) :
    Nat → Nat → Traverse → Except Fault (Traverse × List TraversePass)
  | 0, _, _ => .error .loops
  | windows + 1, base, t =>
    if t.pi.logHead = 0 ∨ t.pi.logTail = 0 then
      .ok ({ t with pi := { t.pi with logHead := 0, logTail := 0 } }, [])
    else
      (traversePass env fuel base t).bind fun r =>
        if r.1.lastBlocknr ≥ base + maxPgoff then
          (traverseWindows env fuel windows (base + maxPgoff) r.1).map fun rest =>
            (rest.1, r.2 :: rest.2)
        else .ok (r.1, [r.2])

/-- `nova_traverse_file_inode_log`, with what each of its scans found out.  `transCurr` is what
`trans_curr` holds at the start. -/
def novaTraverseFileInodeLog (env : RecoverEnv) (fuel : Nat) (r : Recovery) (pi : RecoverInode)
    (transCurr : Nat) : Except Fault (Traverse × List TraversePass) :=
  traverseWindows env fuel fuel 0
    { toRecovery := r, pi := pi, transCurr := transCurr, lastBlocknr := 0, loopEnd := false }

/-! ### One thread -/

/-- `nova_traverse_inode_log` -/
def novaTraverseInodeLog (m : ByteMem) (fuel : Nat) (bm : Nat → Bool) (head : Nat) :
    Except Fault (Nat → Bool) :=
  if head = 0 then .ok bm
  else if head % 4096 ≠ 0 then .error .bug
  else markChain m fuel (setBm bm (head / 4096)) head

/-- `nova_recover_inode_pages`, with what its scans found out. -/
def novaRecoverInodePages (env : RecoverEnv) (fuel : Nat) (r : Recovery) (pi : RecoverInode)
    (transCurr : Nat) : Except Fault (Recovery × List TraversePass) :=
  if pi.deleted then .ok (r, [])
  else if pi.isDir then
    (novaTraverseInodeLog r.mem fuel r.bm pi.logHead).map fun bm => ({ r with bm := bm }, [])
  else (novaTraverseFileInodeLog env fuel r pi transCurr).map fun t => (t.1.toRecovery, t.2)

/-- The inodes of `failure_thread_func`, one after the other, each with what `trans_curr` holds
at its start. -/
def failureThreadFunc (env : RecoverEnv) (fuel : Nat) :
    Recovery → List (RecoverInode × Nat) → Except Fault (Recovery × List (List TraversePass))
  | r, [] => .ok (r, [])
  | r, (pi, transCurr) :: pis =>
    (novaRecoverInodePages env fuel r pi transCurr).bind fun s =>
      (failureThreadFunc env fuel s.1 pis).map fun rest => (rest.1, s.2 :: rest.2)

/-- The thread before its first inode: `nova_init_header`, and arrays without a page. -/
def Recovery.init (m : ByteMem) (bm : Nat → Bool) : Recovery where
  mem := m
  iSize := 0
  transId := 0
  ring := ⟨fun _ => 0, fun _ => 0⟩
  bm := bm

end Parfs
