/-
Blocks that snapshots need.

A page leaves a file when it is written again, cut, or goes with the file.  A snapshot between
the epoch of its entry and the epoch in which it leaves needs its block.  The history of a file
is its state with the departures so far, each with the snapshots there were.

Pages that are cut are checked against the snapshots, and the pages of a file that is deleted
go by the check of its inode.  Pages that are written again are not: the list of replaced pages
is drained with `delete_dead` set.
-/
import Parfs.Proofs.FileRun

namespace Parfs

open Lib

/-- A block that a page left. -/
structure Departure where
  block : Nat
  /-- of the entry -/
  epochId : Nat
  deleteEpochId : Nat
  /-- there were at that time -/
  snapshots : List Nat
  /-- how many calls of `nova_free_data_blocks` came before -/
  since : Nat

/-- Some snapshot needs the block. -/
def Departure.Held (g : Departure) : Prop := ∃ i ∈ g.snapshots, g.epochId ≤ i ∧ i < g.deleteEpochId

structure History where
  state : FileState
  gone : Departure → Prop

/-- The epoch in which pages leave. -/
def FileOp.deleteEpoch (s : FileState) : FileOp → Option Nat
  | .append _ e _ => some e.epochId
  | .truncate _ epochId => some epochId
  | .evict _ => s.deleteEpochId
  | _ => none

/-- The pages that leave in a step. -/
def FileState.Departs (s : FileState) (op : FileOp) (g : Departure) : Prop :=
  ∃ x p d, op.deleteEpoch s = some d ∧ s.file.tree.slot p = some x ∧ (s.apply op).file.tree.slot p ≠ some x ∧
    g = ⟨getNvmm (s.file.entries x) p, (s.file.entries x).epochId, d, s.snapshots, s.file.freed.length⟩

def History.apply (h : History) (op : FileOp) : History :=
  ⟨h.state.apply op, fun g => h.gone g ∨ h.state.Departs op g⟩

def HistoryStep (h : History) (op : FileOp) (h' : History) : Prop := h.state.Enabled op ∧ h' = h.apply op

/-- The blocks that snapshots need were not freed since they were left. -/
def History.Kept (h : History) : Prop :=
  ∀ g, h.gone g → g.Held → g.block ∉ freedBlocks (h.state.file.freed.drop g.since)

/-- The operations that drain the list of replaced pages. -/
def FileOp.drains : FileOp → Bool
  | .append .. | .truncate .. | .evict _ => true
  | _ => false

/-- The list holds no block that a snapshot needs when it is drained. -/
def FileOp.Spared (h : History) (op : FileOp) : Prop :=
  op.drains = true → ∀ g, h.gone g → g.Held → g.block ∉ h.state.file.listedBlocks

/-- What holds of the departures in every state. -/
structure HistoryInv (h : History) : Prop extends FileAccount h.state where
  created : ∀ p x, h.state.file.tree.slot p = some x → h.state.createEpochId ≤ (h.state.file.entries x).epochId
  since : ∀ g, h.gone g → g.since ≤ h.state.file.freed.length
  /-- Blocks that snapshots need wait on the list, or were put away. -/
  place : ∀ g, h.gone g → g.Held → g.block ∈ recordedBlocks h.state.file.recorded ∨
    g.block ∈ h.state.file.listedBlocks ∨ g.block ∈ h.state.dropped
  safe : h.Kept

section

variable {h h' : History} {op : FileOp} {s t : FileState} {f f' : FileTree} {entry : Nat}
  {e : NovaFileWriteEntry} {inserts : Nat → Bool} {snapshots : List Nat}

/-- The check of an entry against the snapshots finds none exactly when none needs it. -/
theorem novaOldEntryDeleteable_none {c d : Nat} :
    novaOldEntryDeleteable snapshots c d = none ↔ ∀ i ∈ snapshots, c ≤ i → d ≤ i := by
  unfold novaOldEntryDeleteable
  by_cases hcd : c = d
  · rw [if_pos hcd]
    exact ⟨fun _ i _ hi => hcd ▸ hi, fun _ => rfl⟩
  · rw [if_neg hcd]
    unfold novaFindTargetSnapshotInfo
    cases hmin : (snapshots.filter fun i => c ≤ i).min? with
    | none =>
        rw [List.min?_eq_none_iff, List.filter_eq_nil_iff] at hmin
        exact ⟨fun _ i hi hci => absurd (decide_eq_true hci) (hmin i hi), fun _ => rfl⟩
    | some info =>
        obtain ⟨hmem, hle⟩ := List.min?_eq_some_iff.mp hmin
        rw [List.mem_filter, decide_eq_true_eq] at hmem
        dsimp only
        constructor
        · intro hnone i hi hci
          split at hnone
          · have := hle i (List.mem_filter.mpr ⟨hi, decide_eq_true hci⟩)
            omega
          · cases hnone
        · intro hall
          exact if_pos (hall info hmem.1 hmem.2)

/-- The block of a page of a run is one of the run's blocks. -/
theorem mem_pageBlocks (es : Nat → NovaFileWriteEntry) {m : Multiset (Nat × Nat)} {x p : Nat} (hmem : (x, p) ∈ m) :
    getNvmm (es x) p ∈ pageBlocks es m := Multiset.mem_map_of_mem _ hmem

theorem mem_recordedBlocks {l : List SnapshotData} {b : Nat} : b ∈ recordedBlocks l ↔ ∃ d ∈ l, b ∈ d.blocks := by
  induction l with
  | nil => simp
  | cons d l ih => simp [ih]

/-- A page that is cut while a snapshot needs it is put away. -/
theorem Deleted.recorded_of_held {start d : Nat} {cut : List OldEntry} {x p i : Nat}
    (hspec : Deleted snapshots f start true false d cut f') (hf : f.Sound) (hx : f.tree.slot p = some x)
    (hp : start ≤ p) (hi : i ∈ snapshots) (hci : (f.entries x).epochId ≤ i) (hid : i < d) :
    getNvmm (f.entries x) p ∈ recordedBlocks f'.recorded := by
  have hmem : (x, p) ∈ f'.tree.members + listedPages cut := by
    rw [hspec.account]
    exact Radix.mem_members.mpr hx
  rcases Multiset.mem_add.mp hmem with hmem | hmem
  · rw [Radix.mem_members, hspec.slots, if_pos hp] at hmem
    cases hmem
  · obtain ⟨o, ho, hxo⟩ := mem_listedPages.mp hmem
    have hox : o.entry = x := (mem_runPages.mp hxo).1.symm
    have hpgoff := hspec.cut_pgoff hf o ho
    have hblock : getNvmm (f.entries x) p ∈ pageBlocks f.entries o.pages := mem_pageBlocks _ hxo
    cases hinfo : novaOldEntryDeleteable snapshots (f.entries o.entry).epochId d with
    | none =>
        have := novaOldEntryDeleteable_none.mp hinfo i hi (by rw [hox]; exact hci)
        omega
    | some info =>
        have hrec : o.recordedBy snapshots f.entries true false d =
            some ⟨info, getNvmm (f.entries o.entry) o.startPgoff, o.numFree, d⟩ := by
          simp [OldEntry.recordedBy, hinfo]
        rw [hspec.recorded, recordedBlocks_append]
        refine Multiset.mem_add.mpr (Or.inr (mem_recordedBlocks.mpr ⟨_, List.mem_filterMap.mpr ⟨o, ho, hrec⟩, ?_⟩))
        rw [OldEntry.pages, pageBlocks_runPages hpgoff] at hblock
        exact hblock

/-- What was freed since, when more is freed. -/
theorem freedBlocks_drop {l l' : List FreedBlocks} {n b : Nat} (hn : n ≤ l.length) :
    b ∈ freedBlocks ((l ++ l').drop n) ↔ b ∈ freedBlocks (l.drop n) ∨ b ∈ freedBlocks l' := by
  rw [List.drop_append_of_le_length hn, freedBlocks_append, Multiset.mem_add]

/-- What a step does to the blocks that snapshots may need, with what it frees. -/
structure StepEffect (s : FileState) (op : FileOp) (t : FileState) (l : List FreedBlocks) : Prop where
  freed : t.file.freed = s.file.freed ++ l
  drained : op.drains = true → ∀ b ∈ s.file.listedBlocks, b ∈ freedBlocks l
  idle : op.drains = false → l = [] ∧ t.file.listedBlocks = s.file.listedBlocks
  away : ∀ b, b ∈ recordedBlocks s.file.recorded ∨ b ∈ s.dropped →
    b ∉ freedBlocks l ∧ (b ∈ recordedBlocks t.file.recorded ∨ b ∈ t.dropped)
  departs : ∀ g, s.Departs op g → g.Held → g.block ∉ freedBlocks l ∧
    (g.block ∈ recordedBlocks t.file.recorded ∨ g.block ∈ t.file.listedBlocks ∨ g.block ∈ t.dropped)

/-- A block of the file is in one place. -/
theorem FileAccount.apart (h : FileAccount s) {m m' : Multiset Nat} {b : Nat} (hle : m + m' ≤ s.owned)
    (hb : b ∈ m) : b ∉ m' := by
  have hnodup := Multiset.nodup_of_le hle h.nodup
  exact Multiset.disjoint_left.mp (Multiset.nodup_add.mp hnodup).2.2 hb

theorem FileState.mapped_listed_le (s : FileState) : s.file.mappedBlocks + s.file.listedBlocks ≤ s.owned := by
  unfold FileState.owned FileTree.owned
  rw [add_assoc (recordedBlocks _), add_comm (recordedBlocks _), add_assoc]
  exact Multiset.le_add_right _ _

theorem FileState.away_listed_le (s : FileState) :
    recordedBlocks s.file.recorded + s.dropped + s.file.listedBlocks ≤ s.owned := by
  unfold FileState.owned FileTree.owned
  calc _ ≤ recordedBlocks s.file.recorded + s.dropped + s.file.listedBlocks + s.file.mappedBlocks :=
        Multiset.le_add_right _ _
    _ = _ := by abel

theorem StepEffect.append (h : FileAccount s) (henabled : s.Enabled (.append entry e inserts))
    (hdone : FileOp.Completes s (.append entry e inserts)) :
    ∃ l, StepEffect s (.append entry e inserts) (s.apply (.append entry e inserts)) l := by
  obtain ⟨-, hmapped, hlisted, -⟩ := henabled
  have hnew : s.file.Unused entry := ⟨hmapped, hlisted⟩
  have hspec := FileState.assign_spec h.sound hnew hdone
  obtain ⟨⟨l, hfreed, hdrained⟩, -⟩ := hspec.blocks (hnew.sound h.sound)
  rw [hnew.listedBlocks] at hdrained
  rw [FileTree.store_entries_self] at hspec
  refine ⟨l, hfreed, fun _ b hb => by rw [hdrained]; exact hb, nofun, fun b hb => ?_, ?_⟩
  · rw [hdrained]
    refine ⟨h.apart s.away_listed_le (Multiset.mem_add.mpr hb), ?_⟩
    show b ∈ recordedBlocks (s.assign entry e inserts).1.recorded ∨ _
    rw [hspec.recorded]
    exact hb
  · rintro g ⟨x, p, d, hd, hx, hgone, rfl⟩ -
    have hblock : getNvmm (s.file.entries x) p ∈ s.file.mappedBlocks := mem_pageBlocks _ (Radix.mem_members.mpr hx)
    have hne : x ≠ entry := fun hxe => hmapped p (hxe ▸ hx)
    refine ⟨by rw [hdrained]; exact h.apart s.mapped_listed_le hblock, Or.inr (Or.inl ?_)⟩
    have hmem : (x, p) ∈ (s.assign entry e inserts).1.tree.members +
        listedPages (s.assign entry e inserts).1.oldEntryList := by
      rw [hspec.account]
      exact Multiset.mem_add.mpr (Or.inl (Radix.mem_members.mpr hx))
    rcases Multiset.mem_add.mp hmem with hmem | hmem
    · exact absurd (Radix.mem_members.mp hmem) hgone
    · have hpage := mem_pageBlocks (s.assign entry e inserts).1.entries hmem
      rw [hspec.extents.getNvmm, FileTree.store_entries hne] at hpage
      exact hpage

/-- What is put away when pages are cut stays the file's. -/
theorem FileAccount.away (h : FileAccount s) (hlive : s.live = true) {l : List FreedBlocks}
    (howned : freedBlocks l + f'.owned = s.file.owned) {b : Nat} (hb : b ∈ recordedBlocks f'.recorded) :
    b ∉ freedBlocks l := by
  refine h.apart ?_ hb
  unfold FileState.owned
  rw [← howned, h.kept hlive, add_zero, add_comm]
  unfold FileTree.owned
  rw [add_assoc (recordedBlocks _)]
  exact add_le_add_right (Multiset.le_add_right _ _) _

theorem Deleted.recorded_mono {start epochId : Nat} {deleteNvmm deleteDead : Bool} {cut : List OldEntry} {b : Nat}
    (hspec : Deleted snapshots f start deleteNvmm deleteDead epochId cut f') (hb : b ∈ recordedBlocks f.recorded) :
    b ∈ recordedBlocks f'.recorded := by
  rw [hspec.recorded, recordedBlocks_append]
  exact Multiset.mem_add.mpr (Or.inl hb)

theorem StepEffect.truncate (h : FileAccount s) {start epochId : Nat}
    (henabled : s.Enabled (.truncate start epochId)) :
    ∃ l, StepEffect s (.truncate start epochId) (s.apply (.truncate start epochId)) l := by
  obtain ⟨cut, hspec⟩ := s.file.delete_spec s.snapshots start true false epochId h.sound
  obtain ⟨l, hfreed, hlisted, howned⟩ := hspec.blocks h.sound
  have haway := fun b => @FileAccount.away s _ h henabled.1 l howned b
  refine ⟨l, hfreed, fun _ b hb => Multiset.mem_of_le hlisted hb, nofun, fun b hb => ?_, ?_⟩
  · rw [h.kept henabled.1] at hb
    have hrec := hspec.recorded_mono (hb.resolve_right (Multiset.notMem_zero b))
    exact ⟨haway b hrec, Or.inl hrec⟩
  · rintro g ⟨x, p, d, hd, hx, hgone, rfl⟩ ⟨i, hi, hci, hid⟩
    obtain rfl := Option.some.inj hd
    have hp : start ≤ p := by
      by_contra hlt
      exact hgone ((hspec.slots p).trans ((if_neg hlt).trans hx))
    have hrec := hspec.recorded_of_held h.sound hx hp hi hci hid
    exact ⟨haway _ hrec, Or.inl hrec⟩

/-- Deleting a file frees no block that a snapshot needs: the check of the inode covers its entries. -/
theorem StepEffect.evict {keep : Bool} (h : FileAccount s) (henabled : s.Enabled (.evict keep))
    (hcreated : ∀ p x, s.file.tree.slot p = some x → s.createEpochId ≤ (s.file.entries x).epochId) :
    ∃ l, StepEffect s (.evict keep) (s.apply (.evict keep)) l := by
  obtain ⟨cut, hspec⟩ := s.file.delete_spec s.snapshots 0 (s.destroys keep) (s.destroys keep) 0 h.sound
  generalize hf' : novaDeleteFileTree s.snapshots s.file 0 (s.destroys keep) (s.destroys keep) 0 = f' at hspec
  have happly : (s.apply (.evict keep)).file = f' := hf'
  cases hdestroy : s.destroys keep with
  | true =>
      rw [hdestroy] at hspec
      obtain ⟨l, hfreed, hlisted, howned⟩ := hspec.blocks h.sound
      refine ⟨l, by rw [happly, hfreed], fun _ b hb => Multiset.mem_of_le hlisted hb, nofun, fun b hb => ?_, ?_⟩
      · rw [h.kept henabled] at hb
        have hrec := hspec.recorded_mono (hb.resolve_right (Multiset.notMem_zero b))
        exact ⟨h.away henabled howned hrec, Or.inl (by rw [happly]; exact hrec)⟩
      · rintro g ⟨x, p, d, hd, hx, hgone, rfl⟩ ⟨i, hi, hci, hid⟩
        unfold FileState.destroys at hdestroy
        change s.deleteEpochId = some d at hd
        rw [hd] at hdestroy
        cases hinfo : novaOldEntryDeleteable s.snapshots s.createEpochId d with
        | none =>
            have hle := novaOldEntryDeleteable_none.mp hinfo i hi ((hcreated p x hx).trans hci)
            dsimp only at hid
            omega
        | some info => simp [hinfo] at hdestroy
  | false =>
      rw [hdestroy] at hspec
      obtain ⟨l, hfreed, hdrained, howned⟩ := hspec.blocks_kept h.sound
      have hdropped : (s.apply (.evict keep)).dropped = s.file.mappedBlocks := if_neg (by rw [hdestroy]; simp)
      refine ⟨l, by rw [happly, hfreed], fun _ b hb => by rw [hdrained]; exact hb, nofun, fun b hb => ?_, ?_⟩
      · rw [hdrained]
        refine ⟨h.apart s.away_listed_le (Multiset.mem_add.mpr hb), Or.inl ?_⟩
        rw [h.kept henabled] at hb
        rw [happly]
        exact hspec.recorded_mono (hb.resolve_right (Multiset.notMem_zero b))
      · rintro g ⟨x, p, d, hd, hx, hgone, rfl⟩ -
        have hblock : getNvmm (s.file.entries x) p ∈ s.file.mappedBlocks := mem_pageBlocks _ (Radix.mem_members.mpr hx)
        rw [hdrained, hdropped]
        exact ⟨h.apart s.mapped_listed_le hblock, Or.inr (Or.inr hblock)⟩

theorem Deleted.created {start epochId c : Nat} {deleteNvmm deleteDead : Bool} {cut : List OldEntry}
    (hspec : Deleted snapshots f start deleteNvmm deleteDead epochId cut f')
    (h : ∀ p x, f.tree.slot p = some x → c ≤ (f.entries x).epochId) :
    ∀ p x, f'.tree.slot p = some x → c ≤ (f'.entries x).epochId := by
  intro p x hx
  rw [hspec.slots] at hx
  rw [(hspec.extents x).2.2.2]
  split at hx
  · cases hx
  · exact h p x hx

/-- Steps that leave the tree and the list alone. -/
theorem StepEffect.still (hidle : op.drains = false) (htree : t.file.tree = s.file.tree)
    (hfreed : t.file.freed = s.file.freed) (hrec : t.file.recorded = s.file.recorded)
    (hlisted : t.file.listedBlocks = s.file.listedBlocks) (hdropped : t.dropped = s.dropped)
    (happly : t = s.apply op) : StepEffect s op t [] := by
  refine ⟨by rw [hfreed, List.append_nil], fun hd => ?_, fun _ => ⟨rfl, hlisted⟩, fun b hb => ?_, ?_⟩
  · rw [hidle] at hd
    cases hd
  · rw [hrec, hdropped]
    exact ⟨Multiset.notMem_zero b, hb⟩
  · rintro g ⟨x, p, d, hd, hx, hgone, rfl⟩ -
    rw [← happly, htree] at hgone
    exact absurd hx hgone

theorem HistoryInv.effect (h : HistoryInv h') (hstep : FileStep h'.state op t) (hdone : op.Completes h'.state) :
    ∃ l, StepEffect h'.state op t l := by
  obtain ⟨henabled, rfl⟩ := hstep
  cases op with
  | append entry e inserts => exact StepEffect.append h.toFileAccount henabled hdone
  | inplace entry mtime size transId csum =>
      exact ⟨[], .still rfl rfl rfl rfl (h'.state.inplace_extents entry mtime size transId csum).pageBlocks rfl rfl⟩
  | truncate startBlocknr epochId => exact StepEffect.truncate h.toFileAccount henabled
  | unlink epochId => exact ⟨[], .still rfl rfl rfl rfl rfl rfl rfl⟩
  | evict keep => exact StepEffect.evict h.toFileAccount henabled h.created
  | createSnapshot ok => exact ⟨[], .still rfl rfl rfl rfl rfl rfl rfl⟩

/-- **Exactly when a step frees a block that a snapshot needs.** -/
theorem HistoryInv.kept_iff (h : HistoryInv h') (henabled : h'.state.Enabled op) (hdone : op.Completes h'.state) :
    (h'.apply op).Kept ↔ op.Spared h' := by
  obtain ⟨l, heff⟩ := h.effect ⟨henabled, rfl⟩ hdone
  have hdrop : ∀ g, h'.gone g → ∀ b, b ∈ freedBlocks ((h'.apply op).state.file.freed.drop g.since) ↔
      b ∈ freedBlocks (h'.state.file.freed.drop g.since) ∨ b ∈ freedBlocks l := by
    intro g hg b
    show b ∈ freedBlocks (List.drop g.since (h'.state.apply op).file.freed) ↔ _
    rw [heff.freed]
    exact freedBlocks_drop (h.since g hg)
  constructor
  · intro hkept hdrains g hg hheld hmem
    exact hkept g (Or.inl hg) hheld ((hdrop g hg _).mpr (Or.inr (heff.drained hdrains _ hmem)))
  · intro hspared g hg hheld
    rcases hg with hg | hg
    · rw [hdrop g hg, not_or]
      refine ⟨h.safe g hg hheld, fun hmem => ?_⟩
      cases hdrains : op.drains with
      | false =>
          rw [(heff.idle hdrains).1] at hmem
          exact Multiset.notMem_zero _ hmem
      | true =>
          rcases h.place g hg hheld with hrec | hlisted | hdropped
          · exact (heff.away _ (Or.inl hrec)).1 hmem
          · exact hspared hdrains g hg hheld hlisted
          · exact (heff.away _ (Or.inr hdropped)).1 hmem
    · have hsafe := (heff.departs g hg hheld).1
      obtain ⟨x, p, d, hd, hx, hgone, rfl⟩ := hg
      show _ ∉ freedBlocks (List.drop h'.state.file.freed.length (h'.state.apply op).file.freed)
      rw [heff.freed, List.drop_left]
      exact hsafe

/-- A step that frees none of these blocks keeps the invariant. -/
theorem HistoryInv.step (h : HistoryInv h') (henabled : h'.state.Enabled op) (hdone : op.Completes h'.state)
    (hspared : op.Spared h') : HistoryInv (h'.apply op) := by
  obtain ⟨l, heff⟩ := h.effect ⟨henabled, rfl⟩ hdone
  have hfreed : (h'.apply op).state.file.freed = h'.state.file.freed ++ l := heff.freed
  refine ⟨h.toFileAccount.step ⟨henabled, rfl⟩ hdone, ?_, fun g hg => ?_, fun g hg hheld => ?_,
    (h.kept_iff henabled hdone).mpr hspared⟩
  · cases op with
    | append entry e inserts =>
        obtain ⟨-, hmapped, hlisted, -, -, hcreate, -⟩ := henabled
        have hspec := FileState.assign_spec h.sound ⟨hmapped, hlisted⟩ hdone
        rw [FileTree.store_entries_self] at hspec
        intro p x hx
        show _ ≤ ((h'.state.assign entry e inserts).1.entries x).epochId
        rw [(hspec.extents x).2.2.2]
        by_cases hxe : x = entry
        · rw [hxe, FileTree.store_entries_self]
          exact hcreate
        · rw [FileTree.store_entries hxe]
          have hslot := (hspec.slots p).symm.trans hx
          split at hslot
          · exact absurd (Option.some.inj hslot).symm hxe
          · exact h.created p x hslot
    | inplace entry mtime size transId csum =>
        intro p x hx
        show _ ≤ ((h'.state.apply (.inplace entry mtime size transId csum)).file.entries x).epochId
        rw [(h'.state.inplace_extents entry mtime size transId csum x).2.2.2]
        exact h.created p x hx
    | truncate startBlocknr epochId =>
        obtain ⟨cut, hspec⟩ := h'.state.file.delete_spec h'.state.snapshots startBlocknr true false epochId h.sound
        exact hspec.created h.created
    | unlink epochId => exact h.created
    | evict keep =>
        obtain ⟨cut, hspec⟩ := h'.state.file.delete_spec h'.state.snapshots 0 (h'.state.destroys keep)
          (h'.state.destroys keep) 0 h.sound
        exact hspec.created h.created
    | createSnapshot ok => exact h.created
  · rw [hfreed, List.length_append]
    rcases hg with hg | ⟨x, p, d, hd, hx, hgone, rfl⟩
    · have := h.since g hg
      omega
    · exact Nat.le_add_right _ _
  · rcases hg with hg | hg
    · rcases h.place g hg hheld with hrec | hlisted | hdropped
      · exact (heff.away _ (Or.inl hrec)).2.imp_right Or.inr
      · cases hdrains : op.drains with
        | false => exact Or.inr (Or.inl (by rw [← (heff.idle hdrains).2] at hlisted; exact hlisted))
        | true => exact absurd hlisted (hspared hdrains g hg hheld)
      · exact (heff.away _ (Or.inr hdropped)).2.imp_right Or.inr
    · exact (heff.departs g hg hheld).2

theorem HistoryInv.start (h : FileStart s) : HistoryInv ⟨s, fun _ => False⟩ := by
  refine ⟨h.account, ?_, nofun, nofun, nofun⟩
  obtain ⟨entries, hfile⟩ := h.file
  intro p x hx
  change s.file.tree.slot p = some x at hx
  rw [hfile] at hx
  cases hx

/-- The writes come to their end, and no list is drained that holds a block a snapshot needs. -/
def FileOp.Careful (h : History) (op : FileOp) : Prop := op.Completes h.state ∧ op.Spared h

/-- The three pages are written again after a snapshot was taken. -/
def pagesRewritten : FileState :=
  (threePages.apply (.createSnapshot true)).apply (.append 128 (writeEntry 0 3 20 2) fun _ => true)

theorem pagesRewritten_enabled :
    (threePages.apply (.createSnapshot true)).Enabled (.append 128 (writeEntry 0 3 20 2) fun _ => true) := by
  refine ⟨rfl, fun p hp => ?_, nofun, rfl, fun b hb => ?_, by decide, le_rfl⟩
  · change threePages.file.tree.slot p = some 128 at hp
    rw [threePages_slot] at hp
    split at hp
    · simp at hp
    · cases hp
  · have hrange : b = 20 ∨ b = 21 ∨ b = 22 := by
      have hmem : b ∈ ({20, 21, 22} : Multiset Nat) := hb
      simpa using hmem
    rcases hrange with rfl | rfl | rfl
    · decide
    · decide
    · decide

end

end Parfs
