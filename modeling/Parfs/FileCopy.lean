/-
The copies of a write.

A turn of a write copies the user's data, which is in the kernel by then, into the blocks it has:
the parts of blocks at the head and at the tail one by one, and the whole blocks between them
together or, when the data is striped, block by block.  What the user does not write of a new
block at the head or at the tail comes from the block that was there before, or is zero.

A copy is done at once or left to an agent; `dele` says which.  Copies done at once are from memory
of the kernel and leave nothing, and a ring takes a request or asks to try again.
-/
import Parfs.FileWrite

namespace Parfs

open Lib

/-- What there is to copy. -/
inductive CopySrc where
  | zero
  /-- of an old block, from the same offset -/
  | block (nvmm : Nat)
  /-- of the user's buffer, from there on -/
  | user (off : Nat)
  deriving DecidableEq, Repr

/-- A call of `do_nova_nvmm_write`, to an offset of a block. -/
structure NvmmWrite where
  blocknr : Nat
  offset : Nat
  src : CopySrc
  len : Nat
  dele : Bool
  deriving DecidableEq, Repr

/-- How the file system is mounted, and what is not the write's. -/
structure CopyConfig where
  writeDeleSize : Nat
  supportClwb : Bool
  /-- `data_nvm_num` is not 1 -/
  striped : Bool
  /-- `nova_get_entry_copy` -/
  entryCopy : Nat → Bool

section

variable (g : CopyConfig) (f : FileTree)

/-- `do_nova_nvmm_write` -/
def doNovaNvmmWrite (blocknr offset : Nat) (src : CopySrc) (len : Nat) (tryDele : Bool) : NvmmWrite :=
  ⟨blocknr, offset, src, len, !(len < g.writeDeleSize || !tryDele)⟩

/-- `nova_handle_partial_block` -/
def novaHandlePartialBlock (entry : Option Nat) (index offset blocknr len : Nat) (tryDele : Bool) :
    Except Errno NvmmWrite :=
  match entry with
  | none => .ok (doNovaNvmmWrite g blocknr offset .zero len tryDele)
  | some entry =>
    if !g.entryCopy entry then .error .eio
    else .ok (doNovaNvmmWrite g blocknr offset (.block (getNvmm (f.entries entry) index)) len tryDele)

/-- The copies of a turn so far, and the variables that go with them. -/
structure Copies where
  writes : List NvmmWrite
  head : Nat
  tail : Nat
  /-- `cur_loop_dele` -/
  dele : Bool
  /-- what the turn makes of `is_dele` -/
  isDele : Bool
  err : Option Errno
  deriving DecidableEq, Repr

/-- A copy more, with its flag. -/
def Copies.add (s : Copies) (w : NvmmWrite) : Copies := { s with writes := s.writes ++ [w], dele := s.dele || w.dele }

/-- What was there before. -/
def Copies.old (s : Copies) (index offset blocknr len : Nat) (tryDele : Bool) : Copies :=
  match novaHandlePartialBlock g f (f.tree.slot index) index offset blocknr len tryDele with
  | .ok w => s.add w
  | .error e => { s with err := some e }

/-- The block at the head. -/
def Copies.headBlock (s : Copies) (pos count blocknr ubuf : Nat) (append tryDele : Bool) : Copies :=
  let offset := pos % 4096
  let s := if append then s else s.old g f (pos / 4096) 0 blocknr offset tryDele
  if s.err ≠ none then s
  else
    let bytes := if count > 4096 - offset then 4096 - offset else count
    { s.add (doNovaNvmmWrite g blocknr offset (.user ubuf) bytes tryDele) with head := bytes }

/-- The block at the tail. -/
def Copies.tailBlock (s : Copies) (pos count blocknr ubuf : Nat) (append tryDele : Bool) : Copies :=
  let eblkOffset := (pos + count) % 4096
  let numBlocks := writeNumBlocks pos count
  let endBlk := pos / 4096 + numBlocks - 1
  let blocknr := blocknr + (numBlocks - 1)
  let s :=
    if pos / 4096 ≠ endBlk ∨ s.head = 0 then
      { s.add (doNovaNvmmWrite g blocknr 0 (.user (ubuf + (count - eblkOffset))) eblkOffset tryDele) with
        tail := eblkOffset }
    else s
  if append then s else s.old g f endBlk eblkOffset blocknr (4096 - eblkOffset) tryDele

/-- `nova_handle_head_tail_blocks` -/
def novaHandleHeadTailBlocks (pos count blocknr ubuf : Nat) (append tryDele : Bool) : Copies :=
  let s : Copies := ⟨[], 0, 0, false, false, none⟩
  let s := if pos % 4096 ≠ 0 then s.headBlock g f pos count blocknr ubuf append tryDele else s
  if s.err ≠ none then s
  else if (pos + count) % 4096 ≠ 0 then s.tailBlock g f pos count blocknr ubuf append tryDele
  else s

/-- The whole blocks; of `cur_loop_dele` the last copy decides. -/
def Copies.wholeBlocks (s : Copies) (bytes blocknr ubuf : Nat) (tryDele : Bool) : Copies :=
  let num := (bytes - s.head - s.tail) / 4096
  let blocknr := if s.head ≠ 0 then blocknr + 1 else blocknr
  let writes :=
    if g.striped then
      (List.range num).map fun i => doNovaNvmmWrite g (blocknr + i) 0 (.user (ubuf + s.head + 4096 * i)) 4096 true
    else [doNovaNvmmWrite g blocknr 0 (.user (ubuf + s.head)) (num * 4096) tryDele]
  let dele := (writes.getLast?.map NvmmWrite.dele).getD s.dele
  { s with writes := s.writes ++ writes, dele := dele, isDele := s.isDele || dele }

/-- The copies of a turn into the blocks from `blocknr` on; `ubuf` is where in the buffer its
bytes are. -/
def turnCopies (pos bytes blocknr ubuf : Nat) (append tryDele : Bool) : Copies :=
  let s : Copies :=
    if pos % 4096 ≠ 0 || (pos + bytes) % 4096 ≠ 0 then
      let s := novaHandleHeadTailBlocks g f pos bytes blocknr ubuf append tryDele
      { s with isDele := s.dele }
    else ⟨[], 0, 0, false, false, none⟩
  if s.err ≠ none then s else s.wholeBlocks g bytes blocknr ubuf tryDele

end

/-! ### In a write -/

section

variable (mode : WriteMode) (c : WriteCall) (g : CopyConfig)

/-- The copies of the whole write, and the flags that outlast a turn. -/
structure CopyLoop where
  writes : List NvmmWrite
  isDele : Bool
  /-- `fair_new` of a write in place -/
  fairNew : Bool

/-- `fair_new`, once the turn has looked for an entry. -/
def CopyLoop.fair (s : CopyLoop) (w : WriteLoop) : Bool := s.fairNew || (w.file.tree.slot (w.pos / 4096)).isNone

/-- The copies of a turn; `w` has its blocks already.  A write in place that has an entry to write
to leaves the rest of its blocks alone, and so does one where `fair_new` is set and the turn
starts with a page. -/
def WriteLoop.copies (w : WriteLoop) (s : CopyLoop) (source : Option Nat) : Copies :=
  match mode, source with
  | .cow, _ => turnCopies g w.file w.pos w.bytes w.blocknr (w.pos - c.pos) false true
  | .inplace, some _ => turnCopies g w.file w.pos w.bytes w.blocknr (w.pos - c.pos) true false
  | .inplace, none =>
    turnCopies g w.file w.pos w.bytes w.blocknr (w.pos - c.pos) (s.fair w && w.pos % 4096 = 0) true

/-- The copies of a turn, if it gets that far. -/
def WriteLoop.turnCopies (w : WriteLoop) (s : CopyLoop) (t : WriteTurn) : Option Copies :=
  match w.take mode c t with
  | (w', .ok ()) => some (w'.copies mode c g s (w.source mode c))
  | (_, .error _) => none

/-- What the copies are for the turn. -/
def WriteTurn.copied (t : WriteTurn) (k : Option Copies) : WriteTurn :=
  { t with headTail := k.bind Copies.err, left := 0 }

/-- The copies of a turn are done. -/
def CopyLoop.after (s : CopyLoop) (w : WriteLoop) (k : Option Copies) : CopyLoop :=
  match k with
  | none => s
  | some k => ⟨s.writes ++ k.writes, s.isDele || k.isDele, s.fair w⟩

/-- The turns of a write with their copies. -/
def copyTurns : WriteLoop → CopyLoop → List WriteTurn → (WriteLoop × Except Int Unit) × CopyLoop
  | w, s, [] => ((w, .ok ()), s)
  | w, s, t :: ts =>
    if w.numBlocks = 0 then ((w, .ok ()), s)
    else
      let k := w.turnCopies mode c g s t
      match writeTurn mode c w (t.copied k) with
      | (w', .error ret) => ((w', .error ret), s.after w k)
      | (w', .ok ()) => copyTurns w' (s.after w k) ts

end

/-! ### What is in the blocks -/

section

variable (g : CopyConfig) (user : Nat → UInt8)

/-- How many bytes are stored: `memset_nt` leaves what is less than four at the end. -/
def NvmmWrite.stored (w : NvmmWrite) : Nat :=
  match w.src with
  | .zero => if w.dele && !g.supportClwb then w.len else w.len / 4 * 4
  | _ => w.len

/-- Whether a byte of a block is stored to. -/
def NvmmWrite.Covers (w : NvmmWrite) (b o : Nat) : Prop :=
  4096 * w.blocknr + w.offset ≤ 4096 * b + o ∧ 4096 * b + o < 4096 * w.blocknr + w.offset + w.stored g

instance (w : NvmmWrite) (b o : Nat) : Decidable (w.Covers g b o) := inferInstanceAs (Decidable (_ ∧ _))

/-- What is stored there. -/
def NvmmWrite.value (w : NvmmWrite) (data : Nat → Nat → UInt8) (b o : Nat) : UInt8 :=
  let k := 4096 * b + o - (4096 * w.blocknr + w.offset)
  match w.src with
  | .zero => 0
  | .block nvmm => data nvmm (w.offset + k)
  | .user off => user (off + k)

def NvmmWrite.apply (w : NvmmWrite) (data : Nat → Nat → UInt8) (b o : Nat) : UInt8 :=
  if w.Covers g b o then w.value user data b o else data b o

/-- The blocks after some copies. -/
def applyWrites (ws : List NvmmWrite) (data : Nat → Nat → UInt8) : Nat → Nat → UInt8 :=
  ws.foldl (fun data w => w.apply g user data) data

end

end Parfs
