/-
The places of a thread's arrays that recovery uses.

A thread has one pair of arrays of `MAX_PGOFF` places for all of its files.  For every loop
that reads or writes them there is a function here that lists the indices the loop uses, in
the order it uses them.  `index` is an `unsigned long`, so a page in front of the window has a
huge one.  With `metadata_csum` the scan returns at the first entry that fails verification;
an entry that the verification repairs counts as the one it has been repaired to.
-/
import Parfs.Lib.Machine
import Parfs.Recovery

namespace Parfs

open Lib

structure ThreadEnv extends RecoverEnv where
  /-- `nova_verify_entry_csum`, which holds of every entry with `metadata_csum` off -/
  verifyEntryCsum : ByteMem → Nat → Bool

/-! ### Replaying entries into the arrays -/

/-- `nova_check_old_entry` -/
def checkOldIndices (base pgoff numFree : Nat) : List Nat :=
  (List.range numFree).map fun i => subU64 (pgoff + i) base

/-- The loop over pages that gathers the runs, and what is left after it. -/
def gatherIndices (ring : TaskRing) (base : Nat) : OldRun → List Nat → List Nat
  | run, [] => if run.oldEntry ≠ 0 then checkOldIndices base run.oldPgoff run.numFree else []
  | run, pgoff :: pages =>
    let index := subU64 pgoff base
    let old := if ring.nvmmArray index ≠ 0 ∧ ring.entryArray index ≠ run.oldEntry ∧ run.oldEntry ≠ 0 then
      checkOldIndices base run.oldPgoff run.numFree else []
    index :: old ++ gatherIndices ring base (gatherOld ring base run pgoff) pages

/-- The two loops over the pages from `start` up to `stop`. -/
def replaceIndices (ring : TaskRing) (base start stop : Nat) : List Nat :=
  let pages := List.range' start (stop - start)
  gatherIndices ring base ⟨0, 0, 0, fun _ => false⟩ pages ++ pages.map fun pgoff => subU64 pgoff base

/-- `nova_set_ring_array` -/
def novaSetRingArrayIndices (r : Recovery) (base entry : Nat) : List Nat :=
  let e := wentry r.mem entry
  replaceIndices r.ring base (max e.pgoff base) (min (e.pgoff + e.numPages) (base + maxPgoff))

/-- `nova_ring_setattr_entry` -/
def novaRingSetattrEntryIndices (r : Recovery) (base entry : Nat) : List Nat :=
  let size := r.mem.word (entry + NovaSetattrLogentry.sizeAt) 8
  if r.iSize ≤ size then []
  else
    let firstBlocknr := (size + 4095) / 4096
    let lastBlocknr := (r.iSize - 1) / 4096
    if firstBlocknr > lastBlocknr then []
    else replaceIndices r.ring base (max firstBlocknr base) (min lastBlocknr (base + maxPgoff - 1) + 1)

/-- `nova_traverse_file_write_entry` -/
def novaTraverseFileWriteEntryIndices (r : Recovery) (base entry : Nat) : List Nat :=
  let e := wentry r.mem entry
  if e.numPages ≠ e.invalidPages ∧ e.pgoff < base + maxPgoff ∧ e.pgoff + e.numPages > base then
    novaSetRingArrayIndices r base entry
  else []

/-- The cases of the scan's switch. -/
def Traverse.handleIndices (t : Traverse) (base p : Nat) : List Nat :=
  if novaGetEntryType t.mem p = NovaEntryType.setAttr.code then novaRingSetattrEntryIndices t.toRecovery base p
  else if novaGetEntryType t.mem p = NovaEntryType.fileWrite.code then
    novaTraverseFileWriteEntryIndices t.toRecovery base p
  else []

/-- The loop that scans the log. -/
def scanIndices (env : ThreadEnv) (base : Nat) : Nat → Traverse → Nat → List Nat
  | 0, _, _ => []
  | fuel + 1, t, currP =>
    let p := scanFrom t.mem currP
    if (gotoNextPage t.mem currP ∧ base = 0 ∧ p % 4096 ≠ 0) ∨ p = 0 then []
    else if env.verifyEntryCsum t.mem p = false then []
    else
      match scanEntrySize t.mem p .file with
      | none => []
      | some size =>
        let t := t.markJump base currP
        t.handleIndices base p ++
          if (t.handle base p).loopEnd then [] else scanIndices env base fuel (t.handle base p) (p + size)

/-! ### The end of a window -/

/-- `nova_clear_file_entry_data_blocks` -/
def novaClearFileEntryDataBlocksIndices (m : ByteMem) (base entry : Nat) : List Nat :=
  let e := wentry m entry
  (List.range e.numPages).map fun i => subU64 (e.pgoff + i) base

/-- The loop that drops the last transaction. -/
def clearIndices (base currP : Nat) : Nat → Traverse → Nat → List Nat
  | 0, _, _ => []
  | fuel + 1, t, tmp =>
    if tmp = currP then []
    else
      let p := scanFrom t.mem tmp
      match scanEntrySize t.mem p .file with
      | none => []
      | some size =>
        if novaGetEntryType t.mem p = NovaEntryType.fileWrite.code then
          novaClearFileEntryDataBlocksIndices t.mem base p ++ clearIndices base currP fuel
            { t with toRecovery := novaClearFileEntryDataBlocks t.toRecovery base p } (p + size)
        else clearIndices base currP fuel t (p + size)

/-- The part of `nova_traverse_file_inode_log` about the last transaction. -/
def latestIndices (env : RecoverEnv) (fuel base : Nat) (t : Traverse) (currP : Nat) : List Nat :=
  if ckptId ≠ t.transId then
    match checkTransaction env t.mem currP fuel t.transCurr with
    | .ok c => if c.invalid then clearIndices base currP fuel t t.transCurr else []
    | .error _ => []
  else []

/-- `nova_set_file_bm` -/
def novaSetFileBmIndices (base lastBlocknr : Nat) : List Nat :=
  List.range ((if lastBlocknr ≥ base + maxPgoff then maxPgoff - 1 else subU64 lastBlocknr base) + 1)

/-! ### One window -/

/-- The loop that scans the log, with the address where it ends, `none` when it returns from
the function at an entry that fails verification. -/
def verifiedScan (env : ThreadEnv) (base : Nat) :
    Nat → Traverse → Nat → Except Fault (Traverse × Option Nat)
  | 0, _, _ => .error .loops
  | fuel + 1, t, currP =>
    let p := scanFrom t.mem currP
    if (gotoNextPage t.mem currP ∧ base = 0 ∧ p % 4096 ≠ 0) ∨ p = 0 then .error .bug
    else
      let t := t.markJump base currP
      if env.verifyEntryCsum t.mem p = false then .ok (t, none)
      else
        match scanEntrySize t.mem p .file with
        | none => .ok ({ t with loopEnd := true }, some p)
        | some size =>
          let t := t.handle base p
          if t.loopEnd then .ok (t, some (p + size)) else verifiedScan env base fuel t (p + size)

/-- The head of the log is marked, in the first window. -/
def Traverse.markHead (t : Traverse) (base : Nat) : Traverse :=
  if base = 0 then { t with bm := setBm t.bm (t.pi.logHead / 4096) } else t

/-- The indices one window of `nova_traverse_file_inode_log` uses. -/
def windowIndices (env : ThreadEnv) (fuel base : Nat) (t : Traverse) : List Nat :=
  scanIndices env base fuel (t.markHead base) t.pi.logHead ++
    match verifiedScan env base fuel (t.markHead base) t.pi.logHead with
    | .ok (t, some currP) => latestIndices env.toRecoverEnv fuel base t currP ++
        novaSetFileBmIndices base t.lastBlocknr
    | _ => []

/-- One window of `nova_traverse_file_inode_log`, and whether it goes on to another one. -/
def novaTraverseWindow (env : ThreadEnv) (fuel base : Nat) (t : Traverse) : Except Fault (Traverse × Bool) :=
  (verifiedScan env base fuel (t.markHead base) t.pi.logHead).bind fun scan =>
    match scan.2 with
    | none => .ok (scan.1, false)
    | some _ => (traversePass env.toRecoverEnv fuel base t).map fun r =>
        (r.1, decide (r.1.lastBlocknr ≥ base + maxPgoff))

end Parfs
