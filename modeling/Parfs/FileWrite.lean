/-
Writing to a file.

A write goes extent by extent.  Each turn of the loop takes blocks for the pages that are
left, as many as the allocator has in one piece, copies the data into them and appends an
entry, which goes into the tree at once.  The write in place differs where the page is mapped
by an entry of this epoch: it writes to the blocks of that entry and updates it.  After the
loop the tail of the log is published; an error in any turn leads to the cleanup instead.

What the allocator, the copies and the log do is left to `WriteTurn`.  Blocks are pages, and
the tree finds memory for its nodes.  How much of a turn is whole pages, and who copies them,
is left out.
-/
import Parfs.Balloc
import Parfs.FileTree

namespace Parfs

open Lib

/-- `do_nova_cow_file_write` or `do_nova_inplace_file_write` -/
inductive WriteMode where
  | cow | inplace
  deriving DecidableEq, Repr

/-- What `nova_append_file_write_entry` made of an entry. -/
inductive AppendWrite where
  | refused
  /-- the log took it, and the replica did not -/
  | unmirrored (currP : Nat)
  | appended (currP : Nat)
  deriving DecidableEq, Repr

/-- What happens in one turn of the loop, where it gets so far. -/
structure WriteTurn where
  /-- `nova_new_data_blocks` -/
  alloc : NewBlocks
  /-- the error of `nova_handle_head_tail_blocks` -/
  headTail : Option Errno
  /-- what the copies left, summed up -/
  left : Nat
  /-- the error of `nova_protect_file_data`, when it is called -/
  csum : Option Errno
  append : AppendWrite
  /-- the checksum of the entry -/
  entryCsum : Nat
  deriving DecidableEq

/-- The call. -/
structure WriteCall where
  pos : Nat
  count : Nat
  epochId : Nat
  time : Nat
  /-- `sih->trans_id` -/
  transId : Nat
  /-- `inode->i_size` -/
  iSize : Nat
  /-- the epochs in `snapshot_info_tree` -/
  snapshots : List Nat

/-- The variables of the loop. -/
structure WriteLoop where
  file : FileTree
  pos : Nat
  count : Nat
  numBlocks : Nat
  blocknr : Nat
  allocated : Int
  beginTail : Nat
  /-- `update.curr_entry` -/
  currEntry : Nat
  /-- the entries between the tail of the log and `update.tail` -/
  logged : List Nat
  /-- the blocks this call was given so far -/
  given : List (Nat × Nat)

/-- `num_blocks` -/
def writeNumBlocks (pos count : Nat) : Nat := (count + pos % 4096 - 1) / 4096 + 1

/-- Before the loop. -/
def WriteCall.start (c : WriteCall) (f : FileTree) : WriteLoop :=
  ⟨f, c.pos, c.count, writeNumBlocks c.pos c.count, 0, 0, 0, 0, [], []⟩

section Turn

variable (mode : WriteMode) (c : WriteCall)

/-- The entry to write to in place: `nova_check_existing_entry` finds one and sets `inplace`. -/
def WriteLoop.source (w : WriteLoop) : Option Nat :=
  match mode with
  | .cow => none
  | .inplace => (w.file.tree.slot (w.pos / 4096)).filter fun e => (w.file.entries e).epochId = c.epochId

/-- `ent_blks` of `nova_check_existing_entry` -/
def entBlks (e : NovaFileWriteEntry) (numBlocks startBlk : Nat) : Nat :=
  min (if e.reassigned = 0 then e.numPages - (startBlk - e.pgoff) else 1) numBlocks

/-- The blocks of the turn: those of the entry, or new ones. -/
def WriteLoop.take (w : WriteLoop) (t : WriteTurn) : WriteLoop × Except Int Unit :=
  match w.source mode c with
  | some e =>
    ({ w with
        blocknr := getNvmm (w.file.entries e) (w.pos / 4096)
        allocated := entBlks (w.file.entries e) w.numBlocks (w.pos / 4096) }, .ok ())
  | none =>
    if t.alloc.ret ≤ 0 then ({ w with allocated := t.alloc.ret }, .error t.alloc.ret)
    else
      ({ w with
          blocknr := t.alloc.blocknr
          allocated := t.alloc.ret
          given := w.given ++ [(t.alloc.blocknr, t.alloc.ret.toNat)] }, .ok ())

/-- `bytes` -/
def WriteLoop.bytes (w : WriteLoop) : Nat := min (4096 * w.allocated.toNat - w.pos % 4096) w.count

/-- Whether `nova_handle_head_tail_blocks` is called. -/
def WriteLoop.partialBlocks (w : WriteLoop) : Bool :=
  w.pos % 4096 ≠ 0 || (w.pos + w.bytes) % 4096 ≠ 0

/-- `head`, which `nova_handle_head_tail_blocks` sets -/
def WriteLoop.head (w : WriteLoop) : Nat :=
  if w.pos % 4096 = 0 then 0 else if w.bytes > 4096 - w.pos % 4096 then 4096 - w.pos % 4096 else w.bytes

/-- `blocknr` moved past the block of the head -/
def WriteLoop.shift (w : WriteLoop) : WriteLoop :=
  { w with blocknr := if w.head ≠ 0 then w.blocknr + 1 else w.blocknr }

/-- The data is copied and protected.  The copy on write moves `blocknr` back before it protects
the data, the write in place only after. -/
def WriteLoop.copy (w : WriteLoop) (t : WriteTurn) : WriteLoop × Except Int Unit :=
  match w.partialBlocks, t.headTail with
  | true, some e => (w, .error (-e.code))
  | _, _ =>
    if t.left ≠ 0 then (w.shift, .error (-Errno.efault.code))
    else
      match t.csum, mode with
      | some e, .cow => (w, .error (-e.code))
      | some e, .inplace => (w.shift, .error (-e.code))
      | none, _ => (w, .ok ())

/-- `file_size` -/
def WriteLoop.fileSize (w : WriteLoop) : Nat := if w.pos + w.bytes > c.iSize then w.pos + w.bytes else c.iSize

/-- `nova_init_file_write_entry` -/
def novaInitFileWriteEntry (w : WriteLoop) (t : WriteTurn) : NovaFileWriteEntry where
  reassigned := 0
  updating := 0
  numPages := w.allocated.toNat
  blocknr := w.blocknr
  pgoff := w.pos / 4096
  invalidPages := 0
  mtime := c.time
  size := w.fileSize c
  epochId := c.epochId
  transId := c.transId
  csum := t.entryCsum

/-- The entry is stored at the head of the log. -/
def WriteLoop.store (w : WriteLoop) (currP : Nat) (e : NovaFileWriteEntry) : WriteLoop :=
  { w with
    file := { w.file with entries := Function.update w.file.entries currP e }
    currEntry := currP
    logged := w.logged ++ [currP] }

/-- `nova_append_file_write_entry`; any error of it becomes `-ENOSPC`. -/
def novaAppendFileWriteEntry (w : WriteLoop) (t : WriteTurn) : WriteLoop × Except Int Unit :=
  let e := novaInitFileWriteEntry c w t
  match t.append with
  | .refused => (w, .error (-Errno.enospc.code))
  | .unmirrored currP => (w.store currP e, .error (-Errno.enospc.code))
  | .appended currP =>
    let w := w.store currP e
    ({ w with file := (novaAssignWriteEntry c.snapshots w.file currP e true fun _ => true).1 }, .ok ())

/-- The entry of a write in place: its size, or all that changes. -/
def WriteLoop.updateEntry (w : WriteLoop) (entry : Nat) (t : WriteTurn) : WriteLoop :=
  let e := w.file.entries entry
  let e :=
    if e.mtime = c.time ∧ e.size ≠ w.fileSize c then { e with size := w.fileSize c }
    else
      { e with
        epochId := c.epochId
        transId := c.transId
        mtime := c.time
        size := w.fileSize c
        updating := 0
        csum := t.entryCsum }
  { w with file := { w.file with entries := Function.update w.file.entries entry e } }

/-- The turn is over. -/
def WriteLoop.advance (w : WriteLoop) (holeFill : Bool) : WriteLoop :=
  { w with
    pos := w.pos + w.bytes
    count := w.count - w.bytes
    numBlocks := w.numBlocks - w.allocated.toNat
    beginTail := if holeFill ∧ w.beginTail = 0 then w.currEntry else w.beginTail }

/-- One turn of the loop. -/
def writeTurn (w : WriteLoop) (t : WriteTurn) : WriteLoop × Except Int Unit :=
  match w.take mode c t with
  | (w', .error ret) => (w', .error ret)
  | (w', .ok ()) =>
    match w'.copy mode t with
    | (w', .error ret) => (w', .error ret)
    | (w', .ok ()) =>
      match w.source mode c with
      | some entry => ((w'.updateEntry c entry t).advance false, .ok ())
      | none =>
        match novaAppendFileWriteEntry c w' t with
        | (w', .error ret) => (w', .error ret)
        | (w', .ok ()) => (w'.advance true, .ok ())

/-- The loop, as far as its turns are told. -/
def writeTurns (w : WriteLoop) : List WriteTurn → WriteLoop × Except Int Unit
  | [] => (w, .ok ())
  | t :: ts =>
    if w.numBlocks = 0 then (w, .ok ())
    else
      match writeTurn mode c w t with
      | (w', .error ret) => (w', .error ret)
      | (w', .ok ()) => writeTurns w' ts

/-- `nova_cleanup_incomplete_write`: the calls of `nova_free_data_blocks`.  The log between
`begin_tail` and `update.tail` is whole. -/
def novaCleanupIncompleteWrite (w : WriteLoop) : List (Nat × Nat) :=
  (if w.blocknr > 0 ∧ w.allocated > 0 then [(w.blocknr, w.allocated.toNat)] else []) ++
    if w.beginTail = 0 then []
    else w.logged.map fun p => ((w.file.entries p).blocknr, (w.file.entries p).numPages)

/-- How a call ends. -/
structure WriteResult where
  /-- the loop when it was left -/
  out : WriteLoop
  ret : Int
  /-- what the cleanup freed -/
  cleaned : List (Nat × Nat)

/-- A write; `early` is the error it leaves with before the loop. -/
def doNovaFileWrite (f : FileTree) (early : Option Errno) (turns : List WriteTurn) : WriteResult :=
  let r : WriteLoop × Except Int Unit :=
    match early with
    | some e => (c.start f, .error (-e.code))
    | none => writeTurns mode c (c.start f) turns
  match r with
  | (w, .ok ()) => ⟨w, w.pos - c.pos, []⟩
  | (w, .error ret) => ⟨w, ret, if ret < 0 then novaCleanupIncompleteWrite w else []⟩

end Turn

/-- `do_nova_cow_file_write` -/
def doNovaCowFileWrite : WriteCall → FileTree → Option Errno → List WriteTurn → WriteResult := doNovaFileWrite .cow

/-- `do_nova_inplace_file_write` -/
def doNovaInplaceFileWrite : WriteCall → FileTree → Option Errno → List WriteTurn → WriteResult :=
  doNovaFileWrite .inplace

end Parfs
