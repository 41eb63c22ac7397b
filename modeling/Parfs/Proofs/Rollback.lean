/-
Rolling a transaction back after a crash.

Recovery and rebuild are far apart.  Recovery finds the last transaction of a file invalid, drops
it from its arrays, marks its entries as dead in the log, and stores in the inode that it has
done so; but the inode it has is a copy, and the copy is gone when the file is rebuilt.  So the
rebuild takes the transaction for a valid one: the size and the `trans_id` are those of its
entries, and the second loop puts their pages back into the map.
-/
import Parfs.Proofs.RebuildFree
import Parfs.Proofs.RingIndex

namespace Parfs

open Lib ByteMem

/-- A recovery thread over the inodes at these addresses of the inode table.  `nova_get_reference`
gives it a copy of each, so the table stays as it is. -/
def recoverInodes (env : RecoverEnv) (fuel : Nat) (table : Nat → RecoverInode) (r : Recovery)
    (addrs : List (Nat × Nat)) : Except Fault (Recovery × List (List TraversePass)) :=
  failureThreadFunc env fuel r (addrs.map fun a => (table a.1, a.2))

/-- The log replayed without its last transaction. -/
def replayedWithoutLast (snapshots : List Nat) (m : ByteMem) (reb : NovaInodeRebuild) (transCurr : Nat)
    (visited : List Nat) : FileRebuild :=
  replayed snapshots m false (novaInitHeader m reb transCurr)
    (visited.filter fun p => decide (p ∉ lastTransaction m visited))

/-- The block of a page. -/
def mappedBlock (f : FileTree) (q : Nat) : Option Nat := (f.tree.slot q).map fun e => getNvmm (f.entries e) q

/-- The rebuilt inode is the one without the transaction. -/
structure RolledBack (snapshots : List Nat) (without : FileRebuild) (b : FileRebuilt) : Prop where
  size : b.final.iSize = without.reb.iSize
  map : ∀ q, mappedBlock b.final.file q = mappedBlock without.file q
  transId : b.final.transId = without.reb.transId + 1
  drain : DrainSafe snapshots b.final.file
  /-- the rebuild knows that the last transaction is invalid, and leaves it alone -/
  sees : b.pass = none

/-- A thread recovers inodes, then the one at `addr` is rebuilt: its last transaction is rolled back,
whatever `trans_curr` holds at first. -/
def RollsBack (env : RecoverEnv) (snapshots : List Nat) (m : ByteMem) (bm : Nat → Bool) (table : Nat → RecoverInode)
    (addrs : List (Nat × Nat)) (addr : Nat) (reb : NovaInodeRebuild) (visited : List Nat) : Prop :=
  ∀ transCurr, ∃ enough, ∀ fuel ≥ enough, ∃ r found b,
    recoverInodes env fuel table (Recovery.init m bm) addrs = .ok (r, found) ∧
      novaRebuildFileInodeTree snapshots r.mem fuel (table addr) (novaInitHeader r.mem reb transCurr) = .ok (some b) ∧
      RolledBack snapshots (replayedWithoutLast snapshots m reb transCurr visited) b

section

variable {env : RecoverEnv} {snapshots : List Nat} {m : ByteMem} {bm : Nat → Bool} {table : Nat → RecoverInode}
  {addrs : List (Nat × Nat)} {addr fuel : Nat} {reb : NovaInodeRebuild} {visited : List Nat} {pi : RecoverInode}
  {s : FileRebuild} {b : FileRebuilt}

/-- The rebuild leaves the last transaction alone exactly when the inode in the table says so. -/
theorem novaRebuildFileInodeTree_pass_none_iff (h : novaRebuildFileInodeTree snapshots m fuel pi s = .ok (some b)) :
    b.pass = none ↔ pi.recoveryLatestTransInvalid = true := by
  unfold novaRebuildFileInodeTree at h
  split at h
  · cases h
  cases hloop : rebuildFileLoop snapshots m pi.logTail (!pi.recoveryLatestTransInvalid) fuel pi.logHead s with
  | error e =>
      dsimp only at h
      rw [hloop] at h
      cases h
  | ok replayed =>
      dsimp only at h
      rw [hloop] at h
      simp only [Except.bind] at h
      cases hflag : pi.recoveryLatestTransInvalid with
      | true =>
          rw [hflag] at h
          cases h
          exact ⟨fun _ => rfl, fun _ => rfl⟩
      | false =>
          rw [hflag] at h
          simp only [Bool.not_false, if_true] at h
          cases hpass : lastTransactionLoop snapshots m pi.logTail replayed.entryc fuel replayed.transCurr
              replayed.file with
          | error e =>
              rw [hpass] at h
              cases h
          | ok r =>
              rw [hpass] at h
              cases h
              exact ⟨nofun, nofun⟩

/-- **Recovery rolls nothing back**: the inode in the table does not say that the last transaction is
invalid, and after recovery it still does not. -/
theorem recoverInodes_rollsBack_never (hflag : (table addr).recoveryLatestTransInvalid = false) :
    ¬RollsBack env snapshots m bm table addrs addr reb visited := by
  intro h
  obtain ⟨enough, h⟩ := h 0
  obtain ⟨r, found, b, -, hrebuild, hrolled⟩ := h enough le_rfl
  have hsees := (novaRebuildFileInodeTree_pass_none_iff hrebuild).mp hrolled.sees
  rw [hflag] at hsees
  cases hsees

end

/-- A file written to once. -/
def oneWriteInode : RecoverInode := ⟨false, false, 4096, 4160, false⟩

/-- The inode of a file that is empty, as a rebuild starts with it. -/
def emptyRebuild : NovaInodeRebuild := ⟨0, 0, 0, 0, 0, 0, 0, 0, 1, 33188, 0⟩

theorem recoverInodes_rollsBack_one :
    ¬RollsBack ⟨fun _ => false, true⟩ [] (farWriteMem 0) (fun _ => false) (fun _ => oneWriteInode) [(0, 0)] 0 emptyRebuild
      [4096] := recoverInodes_rollsBack_never rfl

/-- The one write entry of a file has a block that fails verification.  Recovery finds that out; but the rebuilt
inode has the page mapped to the block, and goes on after the `trans_id` of the entry. -/
theorem recoverInodes_keeps_invalid :
    (¬∀ (env : RecoverEnv) (snapshots : List Nat) (m : ByteMem) (bm : Nat → Bool) (table : Nat → RecoverInode)
        (addrs : List (Nat × Nat)) (addr : Nat) (reb : NovaInodeRebuild) (visited : List Nat),
      FileLog m (table addr).logHead (table addr).logTail visited →
      (∃ b ∈ transBlocks m (lastTransaction m visited), env.verifyDataCsum b = false) →
      (∃ transCurr, (addr, transCurr) ∈ addrs) → RollsBack env snapshots m bm table addrs addr reb visited) ∧
    ∃ r b, recoverInodes ⟨fun _ => false, true⟩ 5 (fun _ => oneWriteInode)
        (Recovery.init (farWriteMem 0) fun _ => false) [(0, 0)] = .ok (r, [[⟨4096, some [9]⟩]]) ∧
      novaRebuildFileInodeTree [] r.mem 5 oneWriteInode (novaInitHeader r.mem emptyRebuild 0) = .ok (some b) ∧
      mappedBlock b.final.file 0 = some 9 ∧ b.final.transId = 2 := by
  refine ⟨fun hall => ?_, ?_⟩
  · have hlog : FileLog (farWriteMem 0) 4096 4160 [4096] :=
      oneEntry_fileLog (farWriteMem_ok 0 (Or.inl rfl)).image rfl (by decide)
    obtain ⟨enough, h⟩ := hall ⟨fun _ => false, true⟩ [] (farWriteMem 0) (fun _ => false) (fun _ => oneWriteInode) [(0, 0)] 0
      emptyRebuild [4096] hlog ⟨9, by decide +kernel, rfl⟩ ⟨0, List.mem_singleton_self _⟩ 0
    obtain ⟨r, found, b, -, hrebuild, hrolled⟩ := h enough le_rfl
    have hsees := (novaRebuildFileInodeTree_pass_none_iff hrebuild).mp hrolled.sees
    cases hsees
  · refine ⟨_, _, rfl, rfl, ?_, ?_⟩
    · decide +kernel
    · decide +kernel

end Parfs
