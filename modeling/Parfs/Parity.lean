/-
Checksums and parity of a block in memory.

Besides its checksum slot a block has a parity stripe, the xor of its eight stripes.  For a write
of a whole block there is a loop that goes through the eight stripes side by side and computes
checksums and parity at once; the plain routines compute one after the other.

A buffer is the memory from its first byte on, so that to advance its pointer is to shift it.  A
store through `NULL` does not return.
-/
import Parfs.Lib.Xor
import Parfs.Checksum
import Parfs.CsumSlots

namespace Parfs

open Lib

/-- `nova_calculate_block_parity` in words of `w` bytes -/
def parityWords (w : Nat) (block : ByteMem) : List UInt8 :=
  (List.range (512 / w)).flatMap fun i =>
    leBytes w ((List.range 7).foldl (fun xor strp => xor ^^^ block.word (512 * (strp + 1) + w * i) w) (block.word (w * i) w))

/-- `nova_calculate_block_parity`; `xmm2` is `static_cpu_has(X86_FEATURE_XMM2)`. -/
def novaCalculateBlockParity (xmm2 : Bool) (block : ByteMem) : List UInt8 := parityWords (if xmm2 then 16 else 8) block

/-- `nova_crc32c_qword`; the upper half of the accumulator stays zero. -/
def novaCrc32cQword (qword : Nat) (crc : UInt32) : UInt32 := crc32c crc (leBytes 8 qword)

/-- Where data and metadata lie, the mount options, and what the processor has. -/
structure DataProtection where
  l : NvmLayout
  g : SbGeometry
  r : ReservedBlocks
  dataCsum : Bool
  dataParity : Bool
  /-- `static_cpu_has(X86_FEATURE_XMM2)` -/
  xmm2 : Bool
  /-- `static_cpu_has(X86_FEATURE_XMM4_2)` -/
  xmm42 : Bool
  /-- `sbi->zero_csum` -/
  zeroCsum : Nat → UInt32

namespace DataProtection

variable (c : DataProtection)

/-- `nova_get_data_csum_addr(sb, blocknr, 0)` -/
def novaGetDataCsumAddr (blocknr : Nat) : Option Nat :=
  if !c.dataCsum then none else c.l.novaGetDataCsumAddr c.g c.r blocknr

/-- `nova_get_parity_addr`.  Nothing sets `parity_start`, so it is 0. -/
def novaGetParityAddr (blocknr : Nat) : Option Nat :=
  let perDataListBlocks := c.g.perListBlocks .data
  if !c.dataParity ∨ perDataListBlocks = 0 then none
  else
    let cpu := blocknr / perDataListBlocks
    if cpu ≥ c.g.cpus then none
    else
      let strpBlockOff := subU64 blocknr (novaInitFreeList c.g cpu .data).blockStart * 512 % 2 ^ 64 / 4096
      some (c.l.novaGetVirtAddrFromOffset (c.l.novaGetBlockOff (0 + strpBlockOff) .b4K .log) .log)

/-- A copy to NVM. -/
def store (nvmmptr : Option Nat) (bytes : List UInt8) (m : ByteMem) : Option ByteMem :=
  nvmmptr.map fun a => m.write a bytes

/-! ### One after the other -/

/-- Checksums as they are stored. -/
def crcBytes (n : Nat) (crc : Nat → UInt32) : List UInt8 := (List.range n).flatMap fun strp => leBytes 4 (crc strp).toNat

section Csum

variable (zero : Bool)

/-- The loop of `nova_stripe_csum_crc` over eight stripes at a time. -/
def stripeCsumBlocks : Nat → Nat → ByteMem → ByteMem → Option ByteMem
  | 0, _, _, m => some m
  | blocks + 1, blocknr, strpPtr, m => do
    let crc strp := if zero then c.zeroCsum strp else stripeCrc strpPtr (512 * strp)
    let m ← store (c.novaGetDataCsumAddr blocknr) (crcBytes 8 crc) m
    stripeCsumBlocks blocks (blocknr + 1) (if zero then strpPtr else fun x => strpPtr (4096 + x)) m

/-- `nova_stripe_csum_crc` -/
def novaStripeCsumCrc (strps blocknr : Nat) (strpPtr : ByteMem) (m : ByteMem) : Option ByteMem := do
  let m ← c.stripeCsumBlocks zero (strps / 8) blocknr strpPtr m
  if strps % 8 = 0 then some m
  else
    let rest := if zero then 0 else 4096 * (strps / 8)
    let crc strp := if zero then c.zeroCsum 0 else stripeCrc strpPtr (rest + 512 * strp)
    store (c.novaGetDataCsumAddr (blocknr + strps / 8)) (crcBytes (strps % 8) crc) m

/-- `nova_update_block_csum` -/
def novaUpdateBlockCsum (bytes startBlknr : Nat) (strpPtr : ByteMem) (m : ByteMem) : Option (Int × ByteMem) :=
  if bytes % 512 ≠ 0 then some (-Errno.einval.code, m)
  else (c.novaStripeCsumCrc zero (bytes / 512) startBlknr strpPtr m).map fun m => (0, m)

end Csum

/-- `nova_update_block_parity`; it returns 0 whatever happens.  There is no `block` for `NULL`. -/
def novaUpdateBlockParity (kmalloc : Bool) (block : Option ByteMem) (blocknr : Nat) (zero : Bool) (m : ByteMem) :
    Option ByteMem :=
  if !kmalloc then some m
  else
    match block with
    | none => some m
    | some block =>
      let parity := if zero then List.replicate 512 0 else novaCalculateBlockParity c.xmm2 block
      store (c.novaGetParityAddr blocknr) parity m

/-! ### Unrolled by eight -/

/-- The variables of the loop. -/
structure Unrolled where
  block : ByteMem
  acc : Nat → UInt32
  parity : List UInt8

/-- One turn: eight bytes of each stripe. -/
def Unrolled.turn (csum parity : Bool) (u : Unrolled) : Unrolled :=
  let qwd k := u.block.word (512 * k) 8
  { block := fun x => u.block (8 + x)
    acc := if csum then fun k => novaCrc32cQword (qwd k) (u.acc k) else u.acc
    parity :=
      if parity then
        u.parity ++ leBytes 8 (qwd 0 ^^^ qwd 1 ^^^ qwd 2 ^^^ qwd 3 ^^^ qwd 4 ^^^ qwd 5 ^^^ qwd 6 ^^^ qwd 7)
      else u.parity }

/-- `n` turns. -/
def Unrolled.run (csum parity : Bool) : Nat → Unrolled → Unrolled
  | 0, u => u
  | n + 1, u => Unrolled.run csum parity n (u.turn csum parity)

/-- `nova_update_block_csum_parity`; it returns 0 whatever happens. -/
def novaUpdateBlockCsumParity (kmalloc : Bool) (btype : BlockType) (block : ByteMem) (blocknr offset bytes : Nat)
    (m : ByteMem) : Option ByteMem :=
  let blocksize := 4096 * novaGetNumblocks btype
  let strpNr := c.l.novaGetBlockOff blocknr btype .data / 512
  let numStrps := (subU64 (offset % 512 + bytes) 1 / 512 + 1) % 2 ^ 32
  let unrollParity := decide (blocksize / 512 = 8 ∧ numStrps = 8)
  let unrollCsum := unrollParity && c.xmm42
  if (unrollCsum || unrollParity) && c.dataParity && !kmalloc then some m
  else do
    let u := if unrollCsum || unrollParity then
        Unrolled.run (c.dataCsum && unrollCsum) c.dataParity 64 ⟨block, fun _ => 1, []⟩
      else ⟨block, fun _ => 1, []⟩
    let m ← if unrollCsum && c.dataCsum then store (c.novaGetDataCsumAddr strpNr) (crcBytes 8 u.acc) m else some m
    let m ← if unrollParity && c.dataParity then store (c.novaGetParityAddr blocknr) u.parity m else some m
    let m ← if c.dataCsum && !unrollCsum then
        (c.novaUpdateBlockCsum false bytes blocknr u.block m).map Prod.snd else some m
    if c.dataParity && !unrollParity then c.novaUpdateBlockParity kmalloc (some u.block) blocknr false m else some m

/-! ### Restoring a stripe -/

/-- `memcpy_mcsafe`: it is a `memcpy`, which always succeeds. -/
def memcpyMcsafe (m : ByteMem) (src size : Nat) : Int × List UInt8 := (0, m.read src size)

/-- The arguments of `nova_restore_data`, and whether there is memory. -/
structure RestoreCall where
  blocknr : Nat
  badstripId : Nat
  badstrip : ByteMem
  nvmmerr : Bool
  csum0 : UInt32
  csum1 : UInt32
  /-- the buffer of a block, with what happens to be in it -/
  kmallocBlock : Option ByteMem
  /-- the buffer of a stripe -/
  kmallocStrip : Bool

/-- The first loop of `nova_restore_data`: the block with the parity for the bad stripe. -/
def restoreLoad (m : ByteMem) (blockptr parity badstripId : Nat) : Nat → Nat → ByteMem → Int × ByteMem
  | 0, _, block => (0, block)
  | strps + 1, i, block =>
    let (ret, bytes) := memcpyMcsafe m (if i = badstripId then parity else blockptr + 512 * i) 512
    let block := block.write (512 * i) bytes
    if ret < 0 then (ret, block) else restoreLoad m blockptr parity badstripId strps (i + 1) block

/-- The second loop, with `i` good bytes in the bad stripe: the stripe and its checksum. -/
def restoreSearch (a : RestoreCall) : Nat → Nat → List UInt8 → Option (List UInt8 × UInt32)
  | 0, _, _ => none
  | turns + 1, i, strip =>
    let strip := a.badstrip.read 0 i ++ strip.drop i
    let csumCalc := crc32c 1 strip
    if csumCalc = a.csum0 ∨ csumCalc = a.csum1 then some (strip, csumCalc)
    else if a.nvmmerr then none
    else if a.badstripId = 7 then none
    else restoreSearch a turns (i + 1) strip

/-- `nova_restore_data`: what it returns, the memory and `csum_good`. -/
def novaRestoreData (a : RestoreCall) (m : ByteMem) : Int × ByteMem × Option UInt32 :=
  let blockptr := c.l.novaGetVirtAddrFromOffset (c.l.novaGetBlockOff a.blocknr .b4K .data) .data
  match a.kmallocBlock, a.kmallocStrip with
  | some block, true =>
    match c.novaGetParityAddr a.blocknr with
    | none => (-Errno.eio.code, m, none)
    | some parity =>
      let (ret, block) := restoreLoad m blockptr parity a.badstripId 8 0 block
      if ret < 0 then (ret, m, none)
      else
        match restoreSearch a 512 0 (novaCalculateBlockParity c.xmm2 block) with
        | some (strip, csumCalc) => (ret, m.write (blockptr + 512 * a.badstripId) strip, some csumCalc)
        | none => (-Errno.eio.code, m, none)
  | _, _ => (-Errno.enomem.code, m, none)

end DataProtection

end Parfs
