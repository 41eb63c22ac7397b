/-
Reading a log entry with the help of its replica.

With `metadata_csum` an entry has a checksum and a copy in the replica's page.  A copy that cannot
be read is repaired by the 512 bytes it starts in, a copy with the wrong checksum by the length of
the other one.  `memcpy_mcsafe` is a plain `memcpy` here: it does not report bad media, it stops
the kernel there.

Addresses are offsets in the metadata area.
-/
import Parfs.Log

namespace Parfs

open Lib

/-- What a kernel does not survive. -/
inductive Oops where
  /-- a load from bad media -/
  | machineCheck
  /-- a copy of a negative length, which is a huge one -/
  | wildCopy
  deriving DecidableEq, Repr

/-- Memory with the places where its media is bad. -/
structure Nvmm where
  bytes : ByteMem
  poisoned : Nat → Bool

namespace Nvmm

variable (nv : Nvmm)

def load (a n : Nat) : Except Oops (List UInt8) :=
  if (List.range n).any fun i => nv.poisoned (a + i) then .error .machineCheck else .ok (nv.bytes.read a n)

/-- A store makes the media good. -/
def store (a : Nat) (bs : List UInt8) : Nvmm where
  bytes := nv.bytes.write a bs
  poisoned := fun x => !(decide (a ≤ x) && decide (x < a + bs.length)) && nv.poisoned x

/-- `memcpy_mcsafe` from NVM -/
def memcpyMcsafe (src size : Nat) : Except Oops (Int × List UInt8) := (nv.load src size).map fun bytes => (0, bytes)

/-- `alter_log_entry` -/
def alterLogEntry (currP : Nat) : Except Oops Nat :=
  (nv.load (blockOff currP + logBlockTail + 16) 8).map fun alterPage => (leValue alterPage + entryLoc currP) % 2 ^ 64

end Nvmm

/-! ### One copy -/

/-- The types with a checksum. -/
def csumType : Nat → Option NovaEntryType
  | 1 => some .fileWrite
  | 2 => some .dirLog
  | 3 => some .setAttr
  | 4 => some .linkChange
  | 5 => some .mmapWrite
  | 6 => some .snapshotInfo
  | _ => none

/-- `offsetof(.., csum)` -/
def entryCsumAt : NovaEntryType → Nat
  | .fileWrite => 60
  | .dirLog => NovaDentry.csumAt
  | .setAttr => 52
  | .linkChange => 36
  | .mmapWrite => 36
  | .snapshotInfo => 36
  | .nextPage => 0

/-- `NOVA_MAX_ENTRY_LEN` -/
def novaMaxEntryLen : Nat := novaDirLogRecLen 255

/-- `entry_csum`, `entry_size` and `entry_copy`, with what is behind it on the stack. -/
structure EntryVars where
  csum : Nat
  size : Nat
  copy : ByteMem

/-- `get_entry_copy` of an entry of fixed size -/
def getFixedCopy (nv : Nvmm) (entry : Nat) (type : NovaEntryType) (v : EntryVars) : Except Oops (Int × EntryVars) := do
  let v := { v with size := novaGetLogEntrySize type }
  let (ret, bytes) ← nv.memcpyMcsafe entry v.size
  if ret < 0 then .ok (ret, v)
  else
    let v := { v with copy := v.copy.write 0 bytes }
    .ok (ret, { v with csum := v.copy.word (entryCsumAt type) 4 })

/-- `get_entry_copy` of a dentry -/
def getDentryCopy (nv : Nvmm) (entry : Nat) (v : EntryVars) : Except Oops (Int × EntryVars) := do
  let (ret, header) ← nv.memcpyMcsafe entry 48
  if ret < 0 then .ok (ret, v)
  else
    let v := { v with copy := v.copy.write 0 header }
    let deLen := v.copy.word NovaDentry.deLenAt 2
    if deLen > novaMaxEntryLen then .ok (ret, v)
    else if deLen < 48 then .error .wildCopy
    else
      let v := { v with size := deLen }
      let (ret, rest) ← nv.memcpyMcsafe (entry + 48) (deLen - 48)
      if ret < 0 then .ok (ret, v)
      else
        let v := { v with copy := v.copy.write 48 rest }
        .ok (ret, { v with csum := v.copy.word NovaDentry.csumAt 4 })

/-- `get_entry_copy` -/
def getEntryCopy (nv : Nvmm) (entry : Nat) (v : EntryVars) : Except Oops (Int × EntryVars) := do
  let (ret, type) ← nv.memcpyMcsafe entry 1
  if ret < 0 then .ok (ret, v)
  else
    match csumType (leValue type) with
    | some .dirLog => getDentryCopy nv entry v
    | some type => getFixedCopy nv entry type v
    | none => .ok (-Errno.einval.code, { v with csum := 0, size := 0 })

/-- `nova_calc_entry_csum` -/
def novaCalcEntryCsum (entry : ByteMem) : UInt32 :=
  match csumType (entry 0).toNat with
  | none => 0
  | some type =>
    let entryLen := if type = .dirLog then entry.word NovaDentry.deLenAt 2 else novaGetLogEntrySize type
    if entryLen = 0 then 0
    else
      let csum := crc32c 1 (entry.read 0 (entryCsumAt type))
      let checkLen := subU64 entryLen (entryCsumAt type + 4)
      if checkLen > 0 then crc32c csum (entry.read (entryCsumAt type + 4) checkLen) else csum

/-! ### Repair -/

/-- `nova_repair_entry_pr`: the 512 bytes the entry starts in. -/
def novaRepairEntryPr (nv : Nvmm) (entry : Nat) : Except Oops (Int × Nvmm) := do
  let alterOff ← nv.alterLogEntry entry
  if alterOff = 0 then .ok (-1, nv)
  else
    let (ret, bytes) ← nv.memcpyMcsafe (alterOff / 512 * 512) 512
    let nv := nv.store (entry / 512 * 512) bytes
    if ret < 0 then .ok (-1, nv) else .ok (0, nv)

/-- `get_entry_copy`, and once more after a repair. -/
def getRepairedCopy (nv : Nvmm) (entry : Nat) (v : EntryVars) : Except Oops (Int × EntryVars × Nvmm) := do
  let (ret, v) ← getEntryCopy nv entry v
  if ret < 0 then
    let (ret, nv) ← novaRepairEntryPr nv entry
    if ret < 0 then .ok (ret, v, nv)
    else
      let (ret, v) ← getEntryCopy nv entry v
      .ok (ret, v, nv)
  else .ok (ret, v, nv)

/-- The end of `nova_verify_entry_csum`: both copies are read, with `v` and `w` of the entry at
`entry` and of the one at `alter`. -/
def compareCopies (nv : Nvmm) (entry alter : Nat) (v w : EntryVars) : Bool × List UInt8 × Nvmm :=
  let entryBad := v.csum ≠ (novaCalcEntryCsum v.copy).toNat
  let alterBad := w.csum ≠ (novaCalcEntryCsum w.copy).toNat
  if entryBad ∧ alterBad then (false, [], nv)
  else if entryBad then (true, w.copy.read 0 w.size, nv.store entry (w.copy.read 0 w.size))
  else if alterBad ∨ v.copy.read 0 v.size ≠ w.copy.read 0 v.size then
    (true, v.copy.read 0 v.size, nv.store alter (v.copy.read 0 v.size))
  else (true, v.copy.read 0 v.size, nv)

/-- `nova_verify_entry_csum`: whether it succeeds, what it stores to `entryc`, and the memory.
`v` and `w` are what happens to be in its variables. -/
def novaVerifyEntryCsum (metadataCsum : Bool) (nv : Nvmm) (entry : Nat) (v w : EntryVars) :
    Except Oops (Bool × List UInt8 × Nvmm) := do
  if !metadataCsum then .ok (true, [], nv)
  else
    let (ret, v, nv) ← getRepairedCopy nv entry v
    if ret < 0 then .ok (false, [], nv)
    else
      let alter ← nv.alterLogEntry entry
      if alter = 0 then .ok (false, [], nv)
      else
        let (ret, w, nv) ← getRepairedCopy nv alter w
        if ret < 0 then .ok (false, [], nv) else .ok (compareCopies nv entry alter v w)

end Parfs
