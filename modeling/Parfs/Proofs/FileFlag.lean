/-
The flag of a write entry that has lost pages.

Readers and in-place writers take a run of pages from an entry whose `reassigned` is clear,
looking up only the first one.  The flag is set when the list of replaced pages is drained, by
the next operation on the tree.  Until then it is wrong for an entry that lost some of its
pages and not all.
-/
import Parfs.Proofs.FileRun

namespace Parfs

open Lib

/-- An entry that is mapped with its flag clear is mapped at all its pages that were not cut. -/
def FlagValid (s : FileState) : Prop :=
  ∀ p x, s.file.tree.slot p = some x → (s.file.entries x).reassigned = 0 →
    ∀ q, (s.file.entries x).pgoff ≤ q → q < s.limit x → s.file.tree.slot q = some x

/-- No entry on the list of replaced pages is mapped with its flag clear. -/
def ListMarked (s : FileState) : Prop :=
  ∀ o ∈ s.file.oldEntryList, ∀ p, s.file.tree.slot p = some o.entry →
    (s.file.entries o.entry).reassigned ≠ 0

/-- A write replaces all mapped pages of an entry that counts as whole, or none. -/
def FileOp.Spares (s : FileState) : FileOp → Prop
  | .append _ e _ =>
    ∀ x, (s.file.entries x).reassigned = 0 → (∀ o ∈ s.file.oldEntryList, o.entry ≠ x) →
      (∀ p, s.file.tree.slot p = some x → e.pgoff ≤ p ∧ p < e.pgoff + e.numPages) ∨
      ∀ p, s.file.tree.slot p = some x → ¬ (e.pgoff ≤ p ∧ p < e.pgoff + e.numPages)
  | _ => True

/-- What holds of the flags in every state. -/
structure FlagInv (s : FileState) : Prop extends FileAccount s where
  below : ∀ p x, s.file.tree.slot p = some x → p < s.limit x
  /-- Entries that lost pages are marked or on the list. -/
  whole : ∀ p x, s.file.tree.slot p = some x → (s.file.entries x).reassigned = 0 →
    (∀ o ∈ s.file.oldEntryList, o.entry ≠ x) →
    ∀ q, (s.file.entries x).pgoff ≤ q → q < s.limit x → s.file.tree.slot q = some x
  /-- Entries on the list lost pages that were not cut. -/
  lost : ∀ o ∈ s.file.oldEntryList, o.startPgoff < s.limit o.entry ∧ s.file.tree.slot o.startPgoff ≠ some o.entry

section

variable {s t : FileState} {op : FileOp} {f f' : FileTree} {entry : Nat} {e : NovaFileWriteEntry}
  {inserts : Nat → Bool}

/-- **The flag is right exactly when the list has nothing left to mark.** -/
theorem FlagInv.valid_iff (h : FlagInv s) : FlagValid s ↔ ListMarked s := by
  constructor
  · intro hvalid o ho p hp hzero
    obtain ⟨hlt, hne⟩ := h.lost o ho
    exact hne (hvalid p o.entry hp hzero _ (h.sound.listed o ho) hlt)
  · intro hmarked p x hp hzero
    refine h.whole p x hp hzero fun o ho hox => ?_
    subst hox
    exact hmarked o ho p hp hzero

theorem FileStart.flagInv (h : FileStart s) : FlagInv s := by
  obtain ⟨entries, hfile⟩ := h.file
  refine ⟨h.account, ?_, ?_, ?_⟩
  · rw [hfile]
    exact fun p x hx => by cases hx
  · rw [hfile]
    exact fun p x hx => by cases hx
  · rw [hfile]
    exact nofun

/-- A page that is replaced is on the list. -/
theorem Assigned.replaced {p x : Nat} (h : Assigned f entry e f') (hx : f.tree.slot p = some x)
    (hne : x ≠ entry) (hin : e.pgoff ≤ p ∧ p < e.pgoff + e.numPages) : ∃ o ∈ f'.oldEntryList, o.entry = x := by
  have hmem : (x, p) ∈ f'.tree.members + listedPages f'.oldEntryList := by
    rw [h.account]
    exact Multiset.mem_add.mpr (Or.inl (Radix.mem_members.mpr hx))
  rcases Multiset.mem_add.mp hmem with hmem | hmem
  · rw [Radix.mem_members, h.slots, if_pos hin] at hmem
    exact absurd (Option.some.inj hmem).symm hne
  · obtain ⟨o, ho, hxo⟩ := mem_listedPages.mp hmem
    exact ⟨o, ho, (mem_runPages.mp hxo).1.symm⟩

/-- An entry that is not the new one is mapped where it was, outside the new one's pages. -/
theorem Assigned.slot_other {p x : Nat} (h : Assigned f entry e f') (hne : x ≠ entry) :
    f'.tree.slot p = some x ↔ f.tree.slot p = some x ∧ ¬ (e.pgoff ≤ p ∧ p < e.pgoff + e.numPages) := by
  rw [h.slots]
  by_cases hin : e.pgoff ≤ p ∧ p < e.pgoff + e.numPages
  · rw [if_pos hin]
    constructor
    · intro hx
      exact absurd (Option.some.inj hx).symm hne
    · intro hx
      exact absurd hin hx.2
  · rw [if_neg hin]
    exact ⟨fun hx => ⟨hx, hin⟩, fun hx => hx.1⟩

theorem FlagInv.append (h : FlagInv s) (hnew : s.file.Unused entry)
    (hspec : Assigned (s.file.store entry e) entry ((s.file.store entry e).entries entry)
      (s.assign entry e inserts).1)
    (haccount : FileAccount (s.apply (.append entry e inserts))) :
    FlagInv (s.apply (.append entry e inserts)) := by
  rw [FileTree.store_entries_self] at hspec
  have hlimit : ∀ x, x ≠ entry → (s.apply (.append entry e inserts)).limit x = s.limit x :=
    fun x hx => Function.update_of_ne hx ..
  have hself : (s.apply (.append entry e inserts)).limit entry = e.pgoff + e.numPages := Function.update_self ..
  have hmapped : ∀ p x, s.file.tree.slot p = some x → x ≠ entry := by
    rintro p x hx rfl
    exact hnew.mapped p hx
  have hpgoff : ∀ x, ((s.assign entry e inserts).1.entries x).pgoff = ((s.file.store entry e).entries x).pgoff :=
    fun x => (hspec.extents x).1
  refine ⟨haccount, fun p x hx => ?_, fun p x hx hzero hlisted q hq1 hq2 => ?_, fun o ho => ?_⟩
  · by_cases hxe : x = entry
    · rw [hxe, hself]
      by_contra hge
      have hx' := hspec.slots p
      rw [if_neg (by omega)] at hx'
      exact hnew.mapped p (hx'.symm.trans (hx.trans (congrArg some hxe)))
    · rw [hlimit x hxe]
      exact h.below p x ((hspec.slot_other hxe).mp hx).1
  · by_cases hxe : x = entry
    · subst hxe
      rw [hself] at hq2
      have hpg := hpgoff x
      rw [FileTree.store_entries_self] at hpg
      change ((s.assign x e inserts).1.entries x).pgoff ≤ q at hq1
      rw [hpg] at hq1
      exact (hspec.slots q).trans (if_pos ⟨hq1, hq2⟩)
    · have hold := (hspec.slot_other hxe).mp hx
      have hnot : ∀ o ∈ s.file.oldEntryList, o.entry ≠ x := by
        rintro o ho rfl
        have hone := hspec.marked o ho
        change ((s.assign entry e inserts).1.entries o.entry).reassigned = 0 at hzero
        omega
      have hsame : (s.assign entry e inserts).1.entries x = s.file.entries x :=
        (hspec.others x hnot).trans (FileTree.store_entries hxe)
      change ((s.assign entry e inserts).1.entries x).reassigned = 0 at hzero
      change ((s.assign entry e inserts).1.entries x).pgoff ≤ q at hq1
      rw [hsame] at hzero hq1
      rw [hlimit x hxe] at hq2
      have hq := h.whole p x hold.1 hzero hnot q hq1 hq2
      refine (hspec.slot_other hxe).mpr ⟨hq, fun hin => ?_⟩
      obtain ⟨o, ho, hox⟩ := hspec.replaced hq hxe hin
      exact hlisted o ho hox
  · obtain ⟨hpos, hlo, hhi, hrun⟩ := hspec.listed o ho
    have hslot : s.file.tree.slot o.startPgoff = some o.entry := hrun 0 hpos
    have hne := hmapped _ _ hslot
    refine ⟨by rw [hlimit _ hne]; exact h.below _ _ hslot, fun hslot' => ?_⟩
    exact ((hspec.slot_other hne).mp hslot').2 ⟨hlo, by omega⟩

/-- Whatever is cut, with `delete_nvmm` set and `delete_dead` clear or from the first page on. -/
theorem FlagInv.delete {start epochId : Nat} {deleteNvmm deleteDead : Bool} {cut : List OldEntry}
    (h : FlagInv s) (hspec : Deleted s.snapshots s.file start deleteNvmm deleteDead epochId cut t.file)
    (hcase : start = 0 ∨ deleteNvmm = true ∧ deleteDead = false) (hlimit : ∀ x, t.limit x = min (s.limit x) start)
    (haccount : FileAccount t) : FlagInv t := by
  have hslot : ∀ p x, t.file.tree.slot p = some x ↔ s.file.tree.slot p = some x ∧ p < start := by
    intro p x
    rw [hspec.slots]
    by_cases hp : start ≤ p
    · rw [if_pos hp]
      constructor
      · intro hx
        cases hx
      · rintro ⟨-, hlt⟩
        omega
    · rw [if_neg hp]
      exact ⟨fun hx => ⟨hx, by omega⟩, fun hx => hx.1⟩
  refine ⟨haccount, fun p x hx => ?_, fun p x hx hzero _ q hq1 hq2 => ?_, ?_⟩
  · obtain ⟨hx, hlt⟩ := (hslot p x).mp hx
    rw [hlimit x]
    exact lt_min (h.below p x hx) hlt
  · obtain ⟨hx, hlt⟩ := (hslot p x).mp hx
    obtain ⟨hnvmm, hdead⟩ := hcase.resolve_left (by omega)
    have hlisted : ∀ o ∈ s.file.oldEntryList, o.entry ≠ x := by
      rintro o ho rfl
      have hone := hspec.marked o ho
      omega
    have hcut : ∀ o ∈ cut, o.entry ≠ x := by
      rintro o ho rfl
      have hone := hspec.markedCut hnvmm hdead o ho
      omega
    have hsame := hspec.others x hlisted hcut
    rw [hsame] at hzero hq1
    rw [hlimit x, lt_min_iff] at hq2
    exact (hslot q x).mpr ⟨h.whole p x hx hzero hlisted q hq1 hq2.1, hq2.2⟩
  · rw [hspec.emptied]
    exact nofun

/-- Every step keeps it. -/
theorem FlagInv.step (h : FlagInv s) (hstep : FileStep s op t) (hdone : op.Completes s) : FlagInv t := by
  have haccount := h.toFileAccount.step hstep hdone
  obtain ⟨henabled, rfl⟩ := hstep
  cases op with
  | append entry e inserts =>
      obtain ⟨-, hmapped, hlisted, -⟩ := henabled
      exact h.append ⟨hmapped, hlisted⟩ (FileState.assign_spec h.sound ⟨hmapped, hlisted⟩ hdone) haccount
  | inplace entry mtime size transId csum =>
      have hentry : ∀ x, ((s.apply (.inplace entry mtime size transId csum)).file.entries x).reassigned =
          (s.file.entries x).reassigned ∧
          ((s.apply (.inplace entry mtime size transId csum)).file.entries x).pgoff = (s.file.entries x).pgoff := by
        intro x
        by_cases hx : x = entry
        · subst hx
          show ((s.file.store x _).entries x).reassigned = _ ∧ ((s.file.store x _).entries x).pgoff = _
          rw [FileTree.store_entries_self]
          exact ⟨rfl, rfl⟩
        · constructor
          · exact congrArg NovaFileWriteEntry.reassigned (FileTree.store_entries hx)
          · exact congrArg NovaFileWriteEntry.pgoff (FileTree.store_entries hx)
      refine ⟨haccount, h.below, fun p x hx hzero hlisted q hq1 hq2 => ?_, h.lost⟩
      rw [(hentry x).1] at hzero
      rw [(hentry x).2] at hq1
      exact h.whole p x hx hzero hlisted q hq1 hq2
  | truncate startBlocknr epochId =>
      obtain ⟨cut, hspec⟩ := s.file.delete_spec s.snapshots startBlocknr true false epochId h.sound
      exact h.delete (t := s.apply (.truncate startBlocknr epochId)) hspec (Or.inr ⟨rfl, rfl⟩) (fun _ => rfl)
        haccount
  | unlink epochId => exact ⟨haccount, h.below, h.whole, h.lost⟩
  | evict keep =>
      obtain ⟨cut, hspec⟩ := s.file.delete_spec s.snapshots 0 (s.destroys keep) (s.destroys keep) 0 h.sound
      exact h.delete (t := s.apply (.evict keep)) hspec (Or.inl rfl) (fun _ => (Nat.min_zero _).symm) haccount
  | createSnapshot ok => exact ⟨haccount, h.below, h.whole, h.lost⟩

theorem FlagInv.run {s₀ : FileState} {guard : FileState → FileOp → Prop} (h0 : FileStart s₀)
    (hguard : ∀ s op, guard s op → op.Completes s) (hrun : Runs (Guarded guard FileStep) s₀ s) : FlagInv s :=
  hrun.invariant (fun _ _ _ h hstep => h.step hstep.2 (hguard _ _ hstep.1)) h0.flagInv

/-- After a write, the list has nothing to mark exactly when the write spared the older entries. -/
theorem FlagInv.append_iff (h : FlagInv s) (henabled : s.Enabled (.append entry e inserts))
    (hdone : FileOp.Completes s (.append entry e inserts)) :
    FlagValid (s.apply (.append entry e inserts)) ↔ FileOp.Spares s (.append entry e inserts) := by
  rw [(h.step ⟨henabled, rfl⟩ hdone).valid_iff]
  obtain ⟨-, hmapped, hlisted, -⟩ := henabled
  have hspec := FileState.assign_spec h.sound ⟨hmapped, hlisted⟩ hdone
  rw [FileTree.store_entries_self] at hspec
  have hne : ∀ p x, s.file.tree.slot p = some x → x ≠ entry := by
    rintro p x hx rfl
    exact hmapped p hx
  have hsame : ∀ x, x ≠ entry → (∀ o ∈ s.file.oldEntryList, o.entry ≠ x) →
      (s.assign entry e inserts).1.entries x = s.file.entries x :=
    fun x hx hnot => (hspec.others x hnot).trans (FileTree.store_entries hx)
  constructor
  · intro hmarked x hzero hnot
    by_contra hboth
    push Not at hboth
    obtain ⟨⟨p, hp, hout⟩, q, hq, hin⟩ := hboth
    obtain ⟨o, ho, rfl⟩ := hspec.replaced hq (hne q x hq) hin
    refine hmarked o ho p ((hspec.slot_other (hne p _ hp)).mpr ⟨hp, by omega⟩) ?_
    show ((s.assign entry e inserts).1.entries o.entry).reassigned = 0
    rw [hsame _ (hne p _ hp) hnot, hzero]
  · intro hspares o ho p hp hzero
    obtain ⟨hpos, hlo, hhi, hrun⟩ := hspec.listed o ho
    have hslot : s.file.tree.slot o.startPgoff = some o.entry := hrun 0 hpos
    have hoe := hne _ _ hslot
    have hnot : ∀ o' ∈ s.file.oldEntryList, o'.entry ≠ o.entry := by
      intro o' ho' heq
      have hone := hspec.marked o' ho'
      change ((s.assign entry e inserts).1.entries o.entry).reassigned = 0 at hzero
      rw [heq] at hone
      omega
    change ((s.assign entry e inserts).1.entries o.entry).reassigned = 0 at hzero
    rw [hsame _ hoe hnot] at hzero
    obtain ⟨hp, hout⟩ := (hspec.slot_other hoe).mp hp
    rcases hspares o.entry hzero hnot with hall | hnone
    · exact hout (hall p hp)
    · exact hnone _ hslot ⟨hlo, by omega⟩

/-- The steps that do not write leave the flags valid. -/
theorem FlagInv.valid_step (h : FlagInv s) (hvalid : FlagValid s) (hstep : FileStep s op t)
    (hdone : op.Completes s) (hspares : op.Spares s) : FlagValid t := by
  have ht := h.step hstep hdone
  cases op with
  | append entry e inserts =>
      obtain ⟨henabled, rfl⟩ := hstep
      exact (h.append_iff henabled hdone).mpr hspares
  | inplace entry mtime size transId csum =>
      rw [ht.valid_iff]
      obtain ⟨-, rfl⟩ := hstep
      intro o ho p hp hzero
      refine h.valid_iff.mp hvalid o ho p hp ?_
      change ((s.file.store entry _).entries o.entry).reassigned = 0 at hzero
      by_cases hx : o.entry = entry
      · rw [hx, FileTree.store_entries_self] at hzero
        rw [hx]
        exact hzero
      · rw [FileTree.store_entries hx] at hzero
        exact hzero
  | truncate startBlocknr epochId =>
      rw [ht.valid_iff]
      obtain ⟨-, rfl⟩ := hstep
      obtain ⟨cut, hspec⟩ := s.file.delete_spec s.snapshots startBlocknr true false epochId h.sound
      intro o ho
      change o ∈ (novaDeleteFileTree _ _ _ _ _ _).oldEntryList at ho
      rw [hspec.emptied] at ho
      cases ho
  | unlink epochId =>
      obtain ⟨-, rfl⟩ := hstep
      exact hvalid
  | evict keep =>
      rw [ht.valid_iff]
      obtain ⟨-, rfl⟩ := hstep
      obtain ⟨cut, hspec⟩ := s.file.delete_spec s.snapshots 0 (s.destroys keep) (s.destroys keep) 0 h.sound
      intro o ho
      change o ∈ (novaDeleteFileTree _ _ _ _ _ _).oldEntryList at ho
      rw [hspec.emptied] at ho
      cases ho
  | createSnapshot ok =>
      obtain ⟨-, rfl⟩ := hstep
      exact hvalid

/-- **When the flags are right.**  In a run of writes that replace every entry whole or not at all the
flags are right in every state, and after any other write they are wrong. -/
theorem fileRun_flagValid {s₀ : FileState} (h0 : FileStart s₀) :
    (∀ s, Runs (Guarded (fun s op => op.Completes s ∧ op.Spares s) FileStep) s₀ s → FlagValid s) ∧
    ∀ s, Runs (Guarded FileOp.Completes FileStep) s₀ s →
      (FlagValid s ↔ ListMarked s) ∧
      ∀ entry e inserts, s.Enabled (.append entry e inserts) → FileOp.Completes s (.append entry e inserts) →
        (FlagValid (s.apply (.append entry e inserts)) ↔ FileOp.Spares s (.append entry e inserts)) := by
  refine ⟨fun s hrun => ?_, fun s hrun => ?_⟩
  · have hkeep : ∀ s op t, FlagInv s ∧ FlagValid s →
        Guarded (fun s op => FileOp.Completes s op ∧ op.Spares s) FileStep s op t → FlagInv t ∧ FlagValid t :=
      fun s op t h hstep =>
        ⟨h.1.step hstep.2 hstep.1.1, h.1.valid_step h.2 hstep.2 hstep.1.1 hstep.1.2⟩
    have hvalid : FlagValid s₀ := by
      rw [h0.flagInv.valid_iff]
      obtain ⟨entries, hfile⟩ := h0.file
      intro o ho
      rw [hfile] at ho
      cases ho
    exact (hrun.invariant hkeep ⟨h0.flagInv, hvalid⟩).2
  · have h := FlagInv.run h0 (fun _ _ => id) hrun
    exact ⟨h.valid_iff, fun entry e inserts henabled hdone => h.append_iff henabled hdone⟩

/-- Writing three pages spares everything. -/
theorem fileRun_flagValid_threePages : FlagValid threePages := by
  refine (fileRun_flagValid newFile_start).1 threePages (Runs.single ⟨⟨threePages_step.1.1, ?_⟩, threePages_step.2⟩)
  intro x _ _
  refine Or.inr fun p hp => ?_
  cases hp

/-- The page in the middle of the three is written again. -/
def middlePage : FileState := threePages.apply (.append 128 (writeEntry 1 1 20 1) fun _ => true)

theorem middlePage_step :
    Guarded FileOp.Completes FileStep threePages (.append 128 (writeEntry 1 1 20 1) fun _ => true)
      middlePage := by
  refine ⟨rfl, ⟨rfl, fun p hp => ?_, nofun, rfl, fun b hb => ?_, le_rfl, le_rfl⟩, rfl⟩
  · rw [threePages_slot] at hp
    split at hp
    · simp at hp
    · cases hp
  · obtain rfl : b = 20 := by simpa [NovaFileWriteEntry.blocks, writeEntry] using hb
    decide

/-- The entry of the three pages counts as whole while the page in the middle is another's. -/
theorem fileRun_flag_middlePage :
    ∃ s₀ s, FileStart s₀ ∧ Runs (Guarded FileOp.Completes FileStep) s₀ s ∧ ¬ FlagValid s := by
  have hthree : Guarded FileOp.Completes FileStep newFile (.append 64 (writeEntry 0 3 10 1) fun _ => true)
      threePages := ⟨threePages_step.1.1, threePages_step.2⟩
  refine ⟨newFile, middlePage, newFile_start, (Runs.single hthree).tail middlePage_step, fun hvalid => ?_⟩
  have h := hvalid 0 64 (by decide) (by decide) 1 (by decide) (by decide)
  revert h
  decide

end

end Parfs
