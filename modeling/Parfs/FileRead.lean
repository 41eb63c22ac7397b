/-
Reading a file.

A read goes from page to page.  A page that is not mapped is filled with zeros.  Of an entry it
copies as many whole blocks as the entry still has, each with a transfer of its own, and then
the part of a block that is left.  Whether the caller or an agent does a transfer is in the module
about delegation: here a transfer is known by what it leaves.
-/
import Parfs.FileTree
import Parfs.Log

namespace Parfs

open Lib

/-- One of `__clear_user` or `do_nova_nvmm_read`. -/
structure Transfer where
  /-- in the buffer -/
  buf : Nat
  /-- block and offset; none for a hole -/
  src : Option (Nat × Nat)
  num : Nat
  left : Nat
  deriving DecidableEq, Repr

/-- The call, with what is not the file's. -/
structure ReadCall where
  isize : Nat
  pos : Nat
  len : Nat
  accessOk : Bool
  /-- `nova_get_entry_copy` -/
  entryCopy : Nat → Bool
  /-- what the transfers leave, by their numbers -/
  left : Nat → Nat

/-- The variables of the loop, and the transfers so far. -/
structure ReadLoop where
  index : Nat
  offset : Nat
  copied : Nat
  transfers : List Transfer
  deriving DecidableEq, Repr

/-- How the loop is left before `copied` reaches `len`. -/
inductive ReadExit where
  /-- `goto out` -/
  | out (error : Int)
  /-- a return from inside -/
  | returns (code : Int)
  deriving DecidableEq, Repr

section

variable (f : FileTree) (c : ReadCall)

/-- A transfer to where the last one ended. -/
def ReadLoop.transfer (w : ReadLoop) (src : Option (Nat × Nat)) (num : Nat) : ReadLoop :=
  { w with transfers := w.transfers ++ [⟨w.copied, src, num, min (c.left w.transfers.length) num⟩] }

/-- What it leaves. -/
def ReadLoop.leaves (w : ReadLoop) (num : Nat) : Nat := min (c.left w.transfers.length) num

/-- The required extent is not found. -/
def ReadLoop.hole (w : ReadLoop) (len : Nat) : ReadLoop × Option ReadExit :=
  let nr := min (4096 - w.offset) (len - w.copied)
  let left := w.leaves c nr
  let w := w.transfer c none nr
  if left ≠ 0 then (w, some (.out (-Errno.efault.code)))
  else
    let offset := w.offset + (nr - left)
    ({ w with
        copied := w.copied + (nr - left)
        index := w.index + offset / 4096
        -- `offset &= ~blocksize_mask`
        offset := offset / 4096 * 4096 }, none)

/-- The loop over whole blocks, with a bound on its turns; the last component is `nr`. -/
def ReadLoop.wholeBlocks (e : NovaFileWriteEntry) : Nat → ReadLoop → Nat → (ReadLoop × Option ReadExit) × Nat
  | 0, w, nr => ((w, none), nr)
  | fuel + 1, w, nr =>
    if nr + w.offset ≥ 4096 then
      let num := 4096 - w.offset
      let left := w.leaves c num
      let w := w.transfer c (some (getNvmm e w.index, w.offset)) num
      if left ≠ 0 then ((w, some (.out (-Errno.efault.code))), nr)
      else
        let offset := w.offset + num
        ReadLoop.wholeBlocks e fuel
          { w with copied := w.copied + num, index := w.index + offset / 4096, offset := offset % 4096 } (nr - num)
    else ((w, none), nr)

/-- The tail block. -/
def ReadLoop.tailBlock (w : ReadLoop) (e : NovaFileWriteEntry) (nr : Nat) : ReadLoop × Option ReadExit :=
  let left := w.leaves c nr
  let w := w.transfer c (some (getNvmm e w.index, w.offset)) nr
  if left ≠ 0 then (w, some (.out (-Errno.efault.code)))
  else
    let copied := w.copied + (nr - left)
    let nr := nr - (nr - left)
    let offset := w.offset + (nr - left)
    ({ w with copied := copied, index := w.index + offset / 4096, offset := offset % 4096 }, none)

/-- The pages of an entry. -/
def ReadLoop.extent (w : ReadLoop) (len : Nat) (e : NovaFileWriteEntry) : ReadLoop × Option ReadExit :=
  let nr := if e.reassigned = 0 then (e.numPages - (w.index - e.pgoff)) * 4096 else 4096
  let nr := min (nr - w.offset) (len - w.copied)
  match w.wholeBlocks c e ((nr + w.offset) / 4096) nr with
  | ((w, some exit), _) => (w, some exit)
  | ((w, none), nr) => if nr ≠ 0 then w.tailBlock c e nr else (w, none)

/-- One turn of the loop; `len` is cut to the size of the file already. -/
def ReadLoop.turn (w : ReadLoop) (len : Nat) : ReadLoop × Option ReadExit :=
  let endIndex := (c.isize - 1) / 4096
  if w.index ≥ endIndex ∧ (w.index > endIndex ∨ (c.isize - 1) % 4096 + 1 ≤ w.offset) then (w, some (.out 0))
  else
    match f.tree.slot w.index with
    | none => w.hole c len
    | some entry =>
      let e := f.entries entry
      if !c.entryCopy entry then (w, some (.returns (-Errno.eio.code)))
      else if w.index < e.pgoff ∨ w.index - e.pgoff ≥ e.numPages then (w, some (.returns (-Errno.einval.code)))
      else w.extent c len e

/-- The loop, with a bound on its turns. -/
def ReadLoop.run (len : Nat) : Nat → ReadLoop → Except Fault (ReadLoop × ReadExit)
  | 0, _ => .error .loops
  | fuel + 1, w =>
    match w.turn f c len with
    | (w, some exit) => .ok (w, exit)
    | (w, none) => if w.copied < len then ReadLoop.run len fuel w else .ok (w, .out 0)

/-- What a read comes to. -/
structure ReadResult where
  ret : Int
  copied : Nat
  transfers : List Transfer
  /-- whether the call got to `out` -/
  out : Bool
  deriving DecidableEq, Repr

/-- From `out` on. -/
def readOut (w : ReadLoop) (error : Int) : ReadResult :=
  ⟨if w.copied ≠ 0 then w.copied else error, w.copied, w.transfers, true⟩

/-- After the loop. -/
def readReturn (r : ReadLoop × ReadExit) : ReadResult :=
  match r.2 with
  | .out error => readOut r.1 error
  | .returns code => ⟨code, r.1.copied, r.1.transfers, false⟩

/-- `do_dax_mapping_read`; the pages up to the end of the file bound the turns. -/
def doDaxMappingRead : Except Fault ReadResult :=
  let w : ReadLoop := ⟨c.pos / 4096, c.pos % 4096, 0, []⟩
  if !c.accessOk then .ok (readOut w (-Errno.efault.code))
  else if c.isize = 0 then .ok (readOut w 0)
  else
    -- behind the end of the file the difference is a large unsigned number
    let len := if c.pos ≤ c.isize then min c.len (c.isize - c.pos) else c.len
    if len = 0 then .ok (readOut w 0)
    else
      (w.run f c len ((c.isize - 1) / 4096 + 1 - c.pos / 4096 + 1)).map readReturn

end

/-! ### What is read -/

/-- A byte of the file: `data` is what the blocks of data hold. -/
def FileTree.byte (f : FileTree) (data : Nat → Nat → UInt8) (p : Nat) : UInt8 :=
  match f.tree.slot (p / 4096) with
  | some entry => data (getNvmm (f.entries entry) (p / 4096)) (p % 4096)
  | none => 0

/-- A byte that a transfer brings. -/
def Transfer.byte (t : Transfer) (data : Nat → Nat → UInt8) (k : Nat) : UInt8 :=
  match t.src with
  | some (nvmm, offset) => data nvmm (offset + k)
  | none => 0

/-- What the transfers make of a byte of the user's buffer. -/
def userByte (data : Nat → Nat → UInt8) (ts : List Transfer) (k : Nat) : Option UInt8 :=
  ts.foldl (fun b t => if t.buf ≤ k ∧ k < t.buf + (t.num - t.left) then some (t.byte data (k - t.buf)) else b) none

end Parfs
