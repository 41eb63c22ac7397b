/-
Checksums of file data.

A block is eight stripes of 512 bytes with a checksum each, and the eight checksums of a block
make its slot.  The slots are known here by the block they belong to; where they lie is in the
module about the places of slots.

A write protects its pages before the blocks are in the file: the pages that it covers only in
part are completed from what the file holds so far, in a buffer of one block.
-/
import Parfs.Lib.Memory
import Parfs.FileTree

namespace Parfs

open Lib

/-- The checksums by block and stripe. -/
abbrev CsumSlots : Type := Nat → Nat → UInt32

/-- `nova_crc32c(NOVA_INIT_CSUM, ptr, NOVA_STRIPE_SIZE)` -/
def stripeCrc (p : ByteMem) (ptr : Nat) : UInt32 := crc32c 1 (p.read ptr 512)

/-- A copy of `n` checksums to the slot of a block. -/
def CsumSlots.store (s : CsumSlots) (blocknr n : Nat) (crc : Nat → UInt32) : CsumSlots :=
  fun b strp => if b = blocknr ∧ strp < n then crc strp else s b strp

section Update

variable (zeroCsum : Nat → UInt32) (p : ByteMem) (zero : Bool)

/-- The loop of `nova_stripe_csum_crc` over eight stripes at a time; the first argument is how
many of these there are. -/
def stripeBlocks : Nat → Nat → Nat → CsumSlots → CsumSlots
  | 0, _, _, s => s
  | blocks + 1, blocknr, strpPtr, s =>
    stripeBlocks blocks (blocknr + 1) (if zero then strpPtr else strpPtr + 4096)
      (s.store blocknr 8 fun strp => if zero then zeroCsum strp else stripeCrc p (strpPtr + 512 * strp))

/-- `nova_stripe_csum_crc` -/
def novaStripeCsumCrc (strps blocknr strpPtr : Nat) (s : CsumSlots) : CsumSlots :=
  let s := stripeBlocks zeroCsum p zero (strps / 8) blocknr strpPtr s
  let strpPtr := if zero then strpPtr else strpPtr + 4096 * (strps / 8)
  s.store (blocknr + strps / 8) (strps % 8) fun strp =>
    if zero then zeroCsum 0 else stripeCrc p (strpPtr + 512 * strp)

/-- `nova_update_block_csum` -/
def novaUpdateBlockCsum (bytes startBlknr strpPtr : Nat) (s : CsumSlots) : Int × CsumSlots :=
  if bytes % 512 ≠ 0 then (-Errno.einval.code, s)
  else (0, novaStripeCsumCrc zeroCsum p zero (bytes / 512) startBlknr strpPtr s)

end Update

/-! ### Writing -/

/-- The call, with what is not the file's. -/
structure ProtectCall where
  pos : Nat
  count : Nat
  ubufCopy : ByteMem
  blocknr : Nat
  /-- the block buffer, with what happens to be in it -/
  kmalloc : Option ByteMem
  /-- `nova_get_entry_copy` -/
  entryCopy : Nat → Bool
  zeroCsum : Nat → UInt32

namespace ProtectCall

variable (f : FileTree) (data : Nat → ByteMem) (c : ProtectCall)

/-- `num_blocks` -/
def numBlocks : Nat := (c.pos % 4096 + c.count - 1) / 4096 + 1

/-- The checksums of one block. -/
def protectBlock (p : ByteMem) (ptr blocknr : Nat) (s : CsumSlots) : CsumSlots :=
  (novaUpdateBlockCsum c.zeroCsum p false 4096 blocknr ptr s).2

/-- What the file has in a part of a page, into the buffer. -/
def loadOld (blockbuf : ByteMem) (index offset len : Nat) : Except Errno ByteMem :=
  match f.tree.slot index with
  | none => .ok (blockbuf.write offset (List.replicate len 0))
  | some entry =>
    if !c.entryCopy entry then .error .eio
    else .ok (blockbuf.write offset ((data (getNvmm (f.entries entry) index)).read offset len))

/-- `aligned_copy`: the blocks that come whole from the user. -/
def alignedCopy : Nat → Nat → Nat → CsumSlots → CsumSlots
  | 0, _, _, s => s
  | blocks + 1, blocknr, ubuf, s =>
    alignedCopy blocks (blocknr + 1) (ubuf + 4096) (c.protectBlock c.ubufCopy ubuf blocknr s)

/-- `eblk` -/
def protectLast (blockbuf : ByteMem) (blocknr : Nat) (s : CsumSlots) : Int × CsumSlots :=
  let eblkOffset := (c.pos + c.count) % 4096
  let endBlk := c.pos / 4096 + c.numBlocks - 1
  match if eblkOffset ≠ 0 then c.loadOld f data blockbuf endBlk eblkOffset (4096 - eblkOffset) else .ok blockbuf with
  | .error e => (-e.code, s)
  | .ok blockbuf => (0, c.protectBlock blockbuf 0 blocknr s)

/-- From the second block on, with the first one in the buffer. -/
def protectRest (blockbuf : ByteMem) (s : CsumSlots) : Int × CsumSlots :=
  let bytes := min (4096 - c.pos % 4096) c.count
  let s := c.protectBlock blockbuf 0 c.blocknr s
  if (c.pos + bytes) % 4096 ≠ 0 then (-Errno.einval.code, s)
  else
    let blocks := (c.count - bytes) / 4096
    let s := c.alignedCopy blocks (c.blocknr + 1) bytes s
    let blockbuf := blockbuf.write 0 (c.ubufCopy.read (bytes + 4096 * blocks) ((c.count - bytes) % 4096))
    c.protectLast f data blockbuf (c.blocknr + 1 + blocks) s

end ProtectCall

/-- `nova_protect_file_data` -/
def novaProtectFileData (f : FileTree) (data : Nat → ByteMem) (c : ProtectCall) (s : CsumSlots) : Int × CsumSlots :=
  let offset := c.pos % 4096
  if offset = 0 ∧ (c.pos + c.count) % 4096 = 0 then
    (0, c.alignedCopy (c.count / 4096) c.blocknr 0 s)
  else
    match c.kmalloc with
    | none => (-Errno.enomem.code, s)
    | some blockbuf =>
      let bytes := min (4096 - offset) c.count
      let blockbuf := blockbuf.write offset (c.ubufCopy.read 0 bytes)
      match if offset ≠ 0 then c.loadOld f data blockbuf (c.pos / 4096) 0 offset else .ok blockbuf with
      | .error e => (-e.code, s)
      | .ok blockbuf =>
        if c.numBlocks = 1 then c.protectLast f data blockbuf c.blocknr s
        else c.protectRest f data blockbuf s

/-! ### Verifying -/

/-- `nova_verify_data_csum`; `kmalloc` says for which blocks there is a stripe buffer.  Every
stripe is compared with the slot of the first block. -/
def novaVerifyDataCsum (data : Nat → ByteMem) (kmalloc : Nat → Bool) (s : CsumSlots) (blocknr bytes : Nat) : Bool :=
  let blocks := subU64 bytes 1 / 4096 + 1
  (List.range blocks).all fun block =>
    kmalloc block && (List.range 8).all fun strp =>
      stripeCrc (data (blocknr + block)) (512 * strp) == s blocknr strp

end Parfs
