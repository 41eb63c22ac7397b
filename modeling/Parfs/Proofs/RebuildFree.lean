/-
What the rebuild leaves to be freed.

The second loop puts every write entry of the last transaction at the pages of the last one,
and whatever it finds there goes to the list of replaced pages.  What it finds is the last
entry itself at first, then the entry it put there one turn before.  So the list it leaves
never names what was replaced: it names the last entry, which is live, or pages of the entry
before that that entry never had.
-/
import Parfs.Proofs.RebuildMap
import Parfs.Proofs.RebuildPass

namespace Parfs

open Lib ByteMem

/-- No run on the list of replaced pages is mapped to its entry, and draining the list frees no
block that is mapped. -/
def DrainSafe (snapshots : List Nat) (f : FileTree) : Prop :=
  (∀ o ∈ f.oldEntryList, ∀ j < o.numFree, f.tree.slot (o.startPgoff + j) ≠ some o.entry) ∧
    ∀ epochId calls, (freeOldEntry snapshots f epochId).freed = f.freed ++ calls →
      ∀ b ∈ calls, ∀ j < b.num, ∀ q e, f.tree.slot q = some e → getNvmm (f.entries e) q ≠ b.blocknr + j

/-- So it is after the rebuild, whatever `trans_curr` holds at first. -/
def RebuildDrainSafe (snapshots : List Nat) (m : ByteMem) (pi : RecoverInode) (reb : NovaInodeRebuild) : Prop :=
  ∀ transCurr, ∃ enough, ∀ fuel ≥ enough, ∃ r,
    novaRebuildFileInodeTree snapshots m fuel pi (novaInitHeader m reb transCurr) = .ok (some r) ∧
      DrainSafe snapshots r.final.file

/-- The last transaction has a write entry before its last one, `w`, and the blocks that would be
`w`'s at the pages of the last one are not blocks of the file. -/
def LastWritesApart (m : ByteMem) (visited : List Nat) : Prop :=
  ∃ before w z, writesOf m (sinceLastTransaction m visited) = before ++ [w, z] ∧
    ∀ j < (wentry m z).numPages, ∀ q e, pageMap m visited q = some e →
      getNvmm (wentry m e) q ≠ getNvmm (wentry m w) (wentry m z).pgoff + j

/-- Write entries of one transaction go up in the file. -/
def WritesAscend (m : ByteMem) (visited : List Nat) : Prop :=
  (writesOf m (sinceLastTransaction m visited)).Pairwise fun p q => (wentry m p).pgoff ≤ (wentry m q).pgoff

section

variable {snapshots : List Nat} {f : FileTree} {entry x lo : Nat} {entryc : NovaFileWriteEntry} {a : Assigning}

/-- Pages that are all of one entry are one run. -/
theorem foldl_assignPage_run (entry n : Nat) : ∀ (a : Assigning) (lo : Nat), a.startOldEntry = some x →
    (∀ q, lo ≤ q → q < lo + n → a.tree.slot q = some x) →
      ((List.range' lo n).foldl (assignPage entry true) a).startOldEntry = some x ∧
      ((List.range' lo n).foldl (assignPage entry true) a).startOldPgoff = a.startOldPgoff ∧
      ((List.range' lo n).foldl (assignPage entry true) a).numFree = a.numFree + n ∧
      ((List.range' lo n).foldl (assignPage entry true) a).oldEntryList = a.oldEntryList := by
  induction n with
  | zero => exact fun a lo hstart _ => ⟨hstart, rfl, rfl, rfl⟩
  | succ n ih =>
      intro a lo hstart hall
      have hpage : assignPage entry true a lo =
          { a with tree := a.tree.set lo entry, numFree := a.numFree + 1 } := by
        unfold assignPage
        rw [hall lo le_rfl (by omega)]
        simp only [hstart, ne_eq, not_true_eq_false, if_false]
      rw [List.range'_succ, List.foldl_cons, hpage]
      obtain ⟨h1, h2, h3, h4⟩ := ih { a with tree := a.tree.set lo entry, numFree := a.numFree + 1 } (lo + 1) hstart
        fun q hlo hhi => by
          rw [Radix.set_slot_of_ne (by omega)]
          exact hall q (by omega) (by omega)
      exact ⟨h1, h2, h3.trans (by show a.numFree + 1 + n = _; omega), h4⟩

/-- An entry put in the place of another leaves that one's pages on the list. -/
theorem novaAssignWriteEntry_over (snapshots : List Nat) (entry : Nat) (hn : entryc.numPages ≠ 0)
    (hall : ∀ q, entryc.pgoff ≤ q → q < entryc.pgoff + entryc.numPages → f.tree.slot q = some x) :
    (novaAssignWriteEntry snapshots f entry entryc true fun _ => true).1.oldEntryList =
      [⟨x, entryc.pgoff, entryc.numPages⟩] := by
  have hdrained := freeOldEntry_spec snapshots f entryc.epochId
  obtain ⟨n, hnum⟩ : ∃ n, entryc.numPages = n + 1 := ⟨entryc.numPages - 1, by omega⟩
  unfold novaAssignWriteEntry
  dsimp only
  rw [assignPages_all, hdrained.tree, hdrained.emptied]
  simp only [if_true]
  have hfirst : assignPage entry true ⟨f.tree, [], none, 0, 0⟩ entryc.pgoff =
      ⟨f.tree.set entryc.pgoff entry, [], some x, entryc.pgoff, 1⟩ := by
    unfold assignPage
    rw [hall _ le_rfl (by omega)]
    rfl
  obtain ⟨h1, h2, h3, h4⟩ := foldl_assignPage_run entry n
    ⟨f.tree.set entryc.pgoff entry, [], some x, entryc.pgoff, 1⟩ (entryc.pgoff + 1) rfl fun q hlo hhi => by
      rw [Radix.set_slot_of_ne (by omega)]
      exact hall q (by omega) (by omega)
  rw [hnum, List.range'_succ, List.foldl_cons, hfirst]
  unfold Assigning.flush
  rw [h1]
  simp only [if_true, insertOldEntry, h2, h3, h4]
  rw [Nat.add_comm]

end

section

variable {snapshots : List Nat} {m : ByteMem} {entryc z x : Nat} {f : FileTree} {visited : List Nat}

/-- The pages of the last entry belong to whichever write entry was put there last. -/
theorem passed_range (snapshots : List Nat) (m : ByteMem) (entryc : Nat) (visited : List Nat) :
    ∀ (f : FileTree) (x : Nat),
      (∀ q, (f.entries entryc).pgoff ≤ q → q < (f.entries entryc).pgoff + (f.entries entryc).numPages →
        f.tree.slot q = some x) →
      ∀ q, (f.entries entryc).pgoff ≤ q → q < (f.entries entryc).pgoff + (f.entries entryc).numPages →
        (passed snapshots m entryc f visited).tree.slot q = some ((writesOf m visited).getLast?.getD x) := by
  induction visited with
  | nil => exact fun f x hall => hall
  | cons p visited ih =>
      intro f x hall q hlo hhi
      rw [passed, List.foldl_cons]
      by_cases hw : IsWrite m p
      · rw [if_pos hw, writesOf_write hw, List.getLast?_cons, Option.getD_some]
        generalize hf' : (novaAssignWriteEntry snapshots f p (f.entries entryc) true fun _ => true).1 = f'
        have hext : SameExtents f.entries f'.entries := by
          rw [← hf']
          exact (freeOldEntry_spec snapshots f (f.entries entryc).epochId).extents
        obtain ⟨hpgoff, hnum, -, -⟩ := hext entryc
        have hih := ih f' p (fun q h1 h2 => by
          rw [← hf', novaAssignWriteEntry_slot, if_pos ⟨by omega, by omega⟩]) q (by omega) (by omega)
        exact hih
      · rw [if_neg hw, writesOf_other hw]
        exact ih f x hall q hlo hhi

end

section

variable {snapshots : List Nat} {m : ByteMem} {pi : RecoverInode} {reb : NovaInodeRebuild} {visited : List Nat}
  {head tail : Nat}

/-- What the second loop leaves on the list. -/
theorem FileLog.passed_list (h : FileLog m head tail visited) (hok : LastPassOk m visited) (snapshots : List Nat)
    (reb : NovaInodeRebuild) (transCurr : Nat) :
    let s := replayed snapshots m true (novaInitHeader m reb transCurr) visited
    ∃ init z, sinceLastTransaction m visited = init ++ [z] ∧ IsWrite m z ∧ z ∈ visited ∧ z ∉ init ∧
      (∀ j < (wentry m z).numPages, s.file.tree.slot ((wentry m z).pgoff + j) = some z) ∧
      (passed snapshots m s.entryc s.file (sinceLastTransaction m visited)).oldEntryList =
        [⟨(writesOf m init).getLast?.getD z, (wentry m z).pgoff, (wentry m z).numPages⟩] := by
  intro s
  obtain ⟨before, r₀, init, z, heq, -, hsince, -, hzw, hlive⟩ := h.since_last hok
  have hmem : z ∈ visited := by
    rw [heq]
    exact List.mem_append_right _ (List.mem_append_right _ List.mem_cons_self)
  have hnot : z ∉ init := by
    have hnodup := h.nodup
    rw [heq] at hnodup
    exact fun hin => (List.nodup_append.mp (List.nodup_append.mp hnodup).2.1).2.2 z hin z List.mem_cons_self rfl
  obtain ⟨hentryc, hslots⟩ := h.replayed_last snapshots reb ((List.append_assoc ..).symm ▸ heq) hzw true transCurr
  refine ⟨init, z, hsince, hzw, hmem, hnot, fun j hj => (hslots _).mpr ⟨hlive, by omega, by omega⟩, ?_⟩
  obtain ⟨hrep, -, -⟩ := (Replaying.start m reb transCurr).replayed snapshots true visited
  obtain ⟨hpgoff, hnum, -, -, -⟩ := hrep.writes.fields z
  obtain ⟨hext, -⟩ := passed_spec snapshots m z init s.file
  obtain ⟨hpgoff', hnum', -, -⟩ := hext z
  have hrange := passed_range snapshots m z init s.file z fun q h1 h2 =>
    (hslots q).mpr ⟨hlive, by rw [← hpgoff]; exact h1, by rw [← hpgoff, ← hnum]; exact h2⟩
  have hpages := (h.path.ok z hmem).pages hzw
  have hover := novaAssignWriteEntry_over (f := passed snapshots m z s.file init) snapshots z
    (by rw [hnum', hnum]; exact hpages) fun q h1 h2 => hrange q (by rw [← hpgoff']; exact h1)
      (by rw [← hpgoff', ← hnum']; exact h2)
  rw [hpgoff', hpgoff, hnum', hnum] at hover
  rw [hsince, hentryc, passed, List.foldl_append, List.foldl_cons, List.foldl_nil, if_pos hzw]
  exact hover

/-- **Draining that list is safe exactly when** the entry it names is not the last one, and the
blocks it leads to are not the file's. -/
theorem FileLog.drain_iff (h : FileLog m head tail visited) (hok : LastPassOk m visited) (snapshots : List Nat)
    (reb : NovaInodeRebuild) (transCurr : Nat) :
    let s := replayed snapshots m true (novaInitHeader m reb transCurr) visited
    DrainSafe snapshots (passed snapshots m s.entryc s.file (sinceLastTransaction m visited)) ↔
      LastWritesApart m visited := by
  intro s
  obtain ⟨init, z, hsince, hzw, hzmem, hznot, hzslot, hlist⟩ := h.passed_list hok snapshots reb transCurr
  obtain ⟨hrep, -, -⟩ := (Replaying.start m reb transCurr).replayed snapshots true visited
  have hext : SameExtents s.file.entries
      (passed snapshots m s.entryc s.file (sinceLastTransaction m visited)).entries :=
    (passed_spec snapshots m s.entryc (sinceLastTransaction m visited) s.file).1
  have hmap : s.file.tree.slot = pageMap m visited := replayed_map snapshots true reb transCurr h.nodup
  have hsame : ∀ q, (passed snapshots m s.entryc s.file (sinceLastTransaction m visited)).tree.slot q =
      s.file.tree.slot q := h.passed_same hok snapshots reb transCurr
  have hpages := (h.path.ok z hzmem).pages hzw
  have hwrites : writesOf m (sinceLastTransaction m visited) = writesOf m init ++ [z] := by
    have hz : writesOf m [z] = [z] := by rw [writesOf_write hzw]; rfl
    rw [hsince, writesOf, List.filter_append]
    exact congrArg _ hz
  generalize passed snapshots m s.entryc s.file (sinceLastTransaction m visited) = f at hlist hext hsame ⊢
  have hslot : ∀ q, f.tree.slot q = pageMap m visited q := fun q => (hsame q).trans (congrFun hmap q)
  have hnvmm : ∀ e q, getNvmm (f.entries e) q = getNvmm (wentry m e) q := by
    intro e q
    rw [hext.getNvmm]
    obtain ⟨hpgoff, -, -, -, hblocknr⟩ := hrep.writes.fields e
    unfold getNvmm
    rw [hpgoff, hblocknr]
  have hfreed : ∀ epochId, (freeOldEntry snapshots f epochId).freed =
      f.freed ++ f.oldEntryList.map (OldEntry.toFreed f.entries) :=
    fun epochId => (freeOldEntry_spec snapshots f epochId).freed
  unfold DrainSafe LastWritesApart
  simp only [hfreed, hwrites, hlist, hslot, hnvmm, List.append_cancel_left_eq]
  constructor
  · rintro ⟨hlisted, hcalls⟩
    rcases List.eq_nil_or_concat (writesOf m init) with hnil | ⟨before, w, hw⟩
    · -- the list names the last entry
      have hlive := hlisted _ List.mem_cons_self 0 (by show 0 < (wentry m z).numPages; omega)
      rw [hnil] at hlive
      refine absurd ?_ hlive
      rw [← hslot, hsame]
      exact hzslot 0 (by omega)
    · rw [List.concat_eq_append] at hw
      refine ⟨before, w, z, by rw [hw, List.append_assoc]; rfl, fun j hj q e hq => ?_⟩
      have hcall := hcalls 0 _ rfl _ List.mem_cons_self j hj q e hq
      rw [hw, List.getLast?_concat, Option.getD_some] at hcall
      rw [← hnvmm w]
      exact hcall
  · rintro ⟨before, w, z', heq, hapart⟩
    have heq' : writesOf m init ++ [z] = (before ++ [w]) ++ [z'] := by rw [heq, List.append_assoc]; rfl
    obtain ⟨hw, hz⟩ := List.append_inj' heq' rfl
    obtain rfl := List.singleton_inj.mp hz
    have hwz : w ≠ z := by
      rintro rfl
      have hmem : w ∈ writesOf m init := by rw [hw]; simp
      exact hznot (mem_writesOf.mp hmem).1
    rw [hw, List.getLast?_concat, Option.getD_some]
    constructor
    · intro o ho j hj hmapped
      obtain rfl := List.mem_singleton.mp ho
      rw [← hslot, hsame, hzslot j hj] at hmapped
      exact hwz (Option.some.inj hmapped).symm
    · intro epochId calls hcalls b hb j hj q e hq
      rw [← hcalls] at hb
      obtain rfl := List.mem_singleton.mp hb
      have hblock := hapart j hj q e hq
      rw [← hnvmm w] at hblock
      exact hblock

end

theorem oneWriteMem_since : sinceLastTransaction (oneWriteMem 1) [4096] = [4096] := by
  obtain ⟨before, r₀, rest, heq, -, hsince⟩ := (oneWriteMem_fileLog 1).since (by decide)
  obtain ⟨rfl, hr⟩ : before = [] ∧ r₀ :: rest = [4096] := by
    cases before with
    | nil => exact ⟨rfl, heq.symm⟩
    | cons p before => simp at heq
  rw [hsince, hr]

/-- The second loop is fit for the log of a file written to for the second time, when the first
write is gone. -/
theorem oneWriteMem_lastPassOk : LastPassOk (oneWriteMem 1) [4096] := by
  refine ⟨⟨4096, by decide, by decide⟩, ?_, fun p hp => ?_⟩
  · rw [oneWriteMem_since]
    simp
  · obtain rfl : 4096 = p := by simpa using hp
    have hnum : (wentry (oneWriteMem 1) 4096).numPages = (oneWriteMem 0).word 4100 4 :=
      oneWriteMem_word 1 (by decide)
    have hinvalid : (wentry (oneWriteMem 1) 4096).invalidPages = (oneWriteMem 0).word 4120 4 :=
      oneWriteMem_word 1 (by decide)
    refine ⟨rfl, ?_⟩
    rw [hnum, hinvalid]
    decide

end Parfs
