/-
A file over whole runs.

The state is what the functions of the tree work on, the epoch and the snapshots of the file
system, and a ledger nobody keeps: the blocks the file was given.  `FileAccount` says that the
blocks of the ledger are those freed, those handed to a snapshot, those mapped and those on
the list of replaced pages, each as often as it was given.

A block that was freed may come back.  What the ledger says is therefore about how often a
block was given and freed; where the allocator gives no block twice the four are disjoint.
-/
import Parfs.Lib.Run
import Parfs.Proofs.FileTree

namespace Parfs

open Lib

/-- An inode in memory with the file system around it. -/
structure FileState where
  file : FileTree
  /-- the epochs in `snapshot_info_tree` -/
  snapshots : List Nat
  /-- `sbi->s_epoch_id` -/
  epochId : Nat
  createEpochId : Nat
  /-- `pi->delete_epoch_id`, when `pi->valid` is clear -/
  deleteEpochId : Option Nat
  /-- whether the inode was not evicted -/
  live : Bool
  /-- the blocks given so far -/
  allocated : Multiset Nat
  /-- the blocks that were mapped by the inode when it was dropped from memory and not deleted -/
  dropped : Multiset Nat
  /-- where the pages of an entry end, or the first one that was cut since it was appended -/
  limit : Nat → Nat

/-- The blocks of an entry. -/
def NovaFileWriteEntry.blocks (e : NovaFileWriteEntry) : Multiset Nat :=
  (Multiset.range e.numPages).map (e.blocknr + ·)

def FreedBlocks.blocks (b : FreedBlocks) : Multiset Nat := (Multiset.range b.num).map (b.blocknr + ·)

def SnapshotData.blocks (d : SnapshotData) : Multiset Nat := (Multiset.range d.numPages).map (d.nvmm + ·)

def freedBlocks (l : List FreedBlocks) : Multiset Nat := (l.map FreedBlocks.blocks).sum

def recordedBlocks (l : List SnapshotData) : Multiset Nat := (l.map SnapshotData.blocks).sum

/-- The blocks of pages of entries. -/
def pageBlocks (entries : Nat → NovaFileWriteEntry) (m : Multiset (Nat × Nat)) : Multiset Nat :=
  m.map fun x => getNvmm (entries x.1) x.2

namespace FileTree

def empty (entries : Nat → NovaFileWriteEntry) : FileTree := ⟨Radix.empty Nat, entries, [], [], []⟩

/-- The blocks the tree maps. -/
def mappedBlocks (f : FileTree) : Multiset Nat := pageBlocks f.entries f.tree.members

/-- The blocks `old_entry_list` names. -/
def listedBlocks (f : FileTree) : Multiset Nat := pageBlocks f.entries (listedPages f.oldEntryList)

/-- The entry is stored into the log. -/
def store (f : FileTree) (entry : Nat) (e : NovaFileWriteEntry) : FileTree :=
  { f with entries := Function.update f.entries entry e }

end FileTree

/-- What happens to a file. -/
inductive FileOp where
  /-- `nova_append_log_entry` of a write entry that was given its blocks -/
  | append (entry : Nat) (e : NovaFileWriteEntry) (inserts : Nat → Bool)
  /-- `nova_inplace_update_write_entry` -/
  | inplace (entry mtime size transId csum : Nat)
  /-- `nova_truncate_file_blocks` -/
  | truncate (startBlocknr epochId : Nat)
  /-- the last link goes: `pi->valid` is cleared -/
  | unlink (epochId : Nat)
  /-- `nova_evict_inode`, with whether `IS_APPEND(inode) || IS_IMMUTABLE(inode)` -/
  | evict (keep : Bool)
  /-- `nova_create_snapshot`, with whether it succeeds -/
  | createSnapshot (ok : Bool)

namespace FileState

variable (s : FileState)

/-- `nova_assign_write_entry` of the entry just stored. -/
def assign (entry : Nat) (e : NovaFileWriteEntry) (inserts : Nat → Bool) : FileTree × Bool :=
  novaAssignWriteEntry s.snapshots (s.file.store entry e) entry e true inserts

/-- Whether eviction deletes the file: `destroy` of `nova_evict_inode`. -/
def destroys (keep : Bool) : Bool :=
  match s.deleteEpochId with
  | none => false
  | some d => !keep && (novaOldEntryDeleteable s.snapshots s.createEpochId d).isNone

/-- The state after. -/
def apply : FileOp → FileState
  | .append entry e inserts =>
    { s with
      file := (s.assign entry e inserts).1
      allocated := s.allocated + e.blocks
      limit := Function.update s.limit entry (e.pgoff + e.numPages) }
  | .inplace entry mtime size transId csum =>
    { s with
      file := s.file.store entry { s.file.entries entry with
        mtime := mtime, size := size, transId := transId, csum := csum, updating := 0 } }
  | .truncate startBlocknr epochId =>
    { s with
      file := novaDeleteFileTree s.snapshots s.file startBlocknr true false epochId
      limit := fun x => min (s.limit x) startBlocknr }
  | .unlink epochId => { s with deleteEpochId := some epochId }
  | .evict keep =>
    { s with
      -- `nova_free_inode_resource`, else `nova_free_dram_resource`
      file := novaDeleteFileTree s.snapshots s.file 0 (s.destroys keep) (s.destroys keep) 0
      dropped := if s.destroys keep then 0 else s.file.mappedBlocks
      limit := fun _ => 0
      live := false }
  | .createSnapshot ok =>
    { s with
      epochId := s.epochId + 1
      snapshots := if ok then s.snapshots ++ [s.epochId] else s.snapshots }

/-- When it can happen.  The log has no entry of the tree or of the list where a new one goes, and
blocks are given when they are free: freed as often as given before. -/
def Enabled : FileOp → Prop
  | .append entry e _ =>
    s.live = true ∧ (∀ p, s.file.tree.slot p ≠ some entry) ∧
      (∀ o ∈ s.file.oldEntryList, o.entry ≠ entry) ∧ e.reassigned = 0 ∧
      (∀ b ∈ e.blocks, s.allocated.count b = (freedBlocks s.file.freed).count b) ∧
      s.createEpochId ≤ e.epochId ∧ e.epochId ≤ s.epochId
  | .inplace .. => s.live = true
  | .truncate _ epochId => s.live = true ∧ epochId ≤ s.epochId
  | .unlink epochId => s.live = true ∧ s.deleteEpochId = none ∧ epochId ≤ s.epochId
  | .evict _ => s.live = true
  | .createSnapshot _ => True

end FileState

/-- The write comes to its end. -/
def FileOp.Completes (s : FileState) : FileOp → Prop
  | .append entry e inserts => (s.assign entry e inserts).2 = true
  | _ => True

def FileStep (s : FileState) (op : FileOp) (t : FileState) : Prop := s.Enabled op ∧ t = s.apply op

/-- A new file. -/
structure FileStart (s : FileState) : Prop where
  file : ∃ entries, s.file = FileTree.empty entries
  live : s.live = true
  linked : s.deleteEpochId = none
  allocated : s.allocated = 0
  dropped : s.dropped = 0
  created : s.createEpochId ≤ s.epochId
  snapshots : ∀ x ∈ s.snapshots, x < s.epochId

/-! ### Blocks of pages -/

section

variable {es es' : Nat → NovaFileWriteEntry} {m m' : Multiset (Nat × Nat)} {s t : FileState} {op : FileOp}
  {f f' : FileTree} {o : OldEntry} {l l' : List FreedBlocks} {entry x : Nat} {e : NovaFileWriteEntry}

@[simp] theorem pageBlocks_add : pageBlocks es (m + m') = pageBlocks es m + pageBlocks es m' :=
  Multiset.map_add _ m m'

@[simp] theorem pageBlocks_zero : pageBlocks es 0 = 0 := rfl

theorem SameExtents.pageBlocks (h : SameExtents es es') : pageBlocks es' m = pageBlocks es m :=
  Multiset.map_congr rfl fun _ _ => h.getNvmm

theorem pageBlocks_congr (h : ∀ x ∈ m, es' x.1 = es x.1) : pageBlocks es' m = pageBlocks es m :=
  Multiset.map_congr rfl fun x hx => by rw [h x hx]

@[simp] theorem freedBlocks_nil : freedBlocks [] = 0 := rfl

@[simp] theorem freedBlocks_cons {b : FreedBlocks} : freedBlocks (b :: l) = b.blocks + freedBlocks l := by
  simp [freedBlocks]

@[simp] theorem freedBlocks_append : freedBlocks (l ++ l') = freedBlocks l + freedBlocks l' := by
  simp [freedBlocks]

@[simp] theorem recordedBlocks_nil : recordedBlocks [] = 0 := rfl

@[simp] theorem recordedBlocks_cons {d : SnapshotData} {k : List SnapshotData} :
    recordedBlocks (d :: k) = d.blocks + recordedBlocks k := by simp [recordedBlocks]

@[simp] theorem recordedBlocks_append {k k' : List SnapshotData} :
    recordedBlocks (k ++ k') = recordedBlocks k + recordedBlocks k' := by simp [recordedBlocks]

/-- Pages of an entry stand side by side in its blocks. -/
theorem pageBlocks_runPages {x s n : Nat} (h : (es x).pgoff ≤ s) :
    pageBlocks es (runPages x s n) = (Multiset.range n).map (getNvmm (es x) s + ·) := by
  unfold pageBlocks runPages
  rw [Multiset.map_map]
  refine Multiset.map_congr rfl fun j _ => ?_
  show getNvmm (es x) (s + j) = getNvmm (es x) s + j
  unfold getNvmm
  omega

/-- The blocks that are freed are those of the pages. -/
theorem OldEntry.blocks_toFreed (h : (es o.entry).pgoff ≤ o.startPgoff) :
    (o.toFreed es).blocks = pageBlocks es o.pages := (pageBlocks_runPages h).symm

theorem freedBlocks_toFreed {l : List OldEntry} (h : ∀ o ∈ l, (es o.entry).pgoff ≤ o.startPgoff) :
    freedBlocks (l.map (OldEntry.toFreed es)) = pageBlocks es (listedPages l) := by
  induction l with
  | nil => rfl
  | cons o l ih =>
      rw [List.map_cons, freedBlocks_cons, listedPages_cons, pageBlocks_add,
        OldEntry.blocks_toFreed (h o List.mem_cons_self), ih fun o' ho' => h o' (List.mem_cons_of_mem _ ho')]

/-- What is cut with `delete_nvmm` set is freed or goes to a snapshot. -/
theorem freedBlocks_cut (snapshots : List Nat) (deleteDead : Bool) (epochId : Nat) {cut : List OldEntry}
    (h : ∀ o ∈ cut, (es o.entry).pgoff ≤ o.startPgoff) :
    freedBlocks ((cut.filter (OldEntry.freedBy snapshots es true deleteDead epochId)).map (OldEntry.toFreed es)) +
        recordedBlocks (cut.filterMap (OldEntry.recordedBy snapshots es true deleteDead epochId)) =
      pageBlocks es (listedPages cut) := by
  induction cut with
  | nil => rfl
  | cons o cut ih =>
      have hpages := OldEntry.blocks_toFreed (h o List.mem_cons_self)
      have ih := ih fun o' ho' => h o' (List.mem_cons_of_mem _ ho')
      rw [listedPages_cons, pageBlocks_add, ← ih, ← hpages]
      cases hdead : deleteDead with
      | true =>
          have hfreed : o.freedBy snapshots es true true epochId = true := rfl
          have hrec : o.recordedBy snapshots es true true epochId = none := rfl
          rw [List.filter_cons_of_pos hfreed, List.filterMap_cons_none hrec, List.map_cons, freedBlocks_cons,
            add_assoc]
      | false =>
          cases hinfo : novaOldEntryDeleteable snapshots (es o.entry).epochId epochId with
          | none =>
              have hfreed : o.freedBy snapshots es true false epochId = true := by
                simp [OldEntry.freedBy, hinfo]
              have hrec : o.recordedBy snapshots es true false epochId = none := by
                simp [OldEntry.recordedBy, hinfo]
              rw [List.filter_cons_of_pos hfreed, List.filterMap_cons_none hrec, List.map_cons, freedBlocks_cons,
                add_assoc]
          | some info =>
              have hfreed : ¬ o.freedBy snapshots es true false epochId = true := by
                simp [OldEntry.freedBy, hinfo]
              have hrec : o.recordedBy snapshots es true false epochId =
                  some ⟨info, getNvmm (es o.entry) o.startPgoff, o.numFree, epochId⟩ := by
                simp [OldEntry.recordedBy, hinfo]
              have hblocks : SnapshotData.blocks ⟨info, getNvmm (es o.entry) o.startPgoff, o.numFree, epochId⟩ =
                  (o.toFreed es).blocks := rfl
              rw [List.filter_cons_of_neg hfreed, List.filterMap_cons_some hrec, recordedBlocks_cons, hblocks,
                add_left_comm]

/-! ### The account is kept -/

/-- The tree can be walked: entries are mapped inside their pages, and without holes. -/
structure FileTree.Sound (f : FileTree) : Prop where
  solid : Solid f.tree.slot
  within : ∀ p x, f.tree.slot p = some x →
    (f.entries x).pgoff ≤ p ∧ p < (f.entries x).pgoff + (f.entries x).numPages
  listed : ∀ o ∈ f.oldEntryList, (f.entries o.entry).pgoff ≤ o.startPgoff

/-- The blocks that were not freed. -/
def FileTree.owned (f : FileTree) : Multiset Nat := recordedBlocks f.recorded + f.mappedBlocks + f.listedBlocks

def FileState.owned (s : FileState) : Multiset Nat := s.file.owned + s.dropped

/-- **What becomes of the blocks of a file.** -/
structure FileAccount (s : FileState) : Prop where
  sound : s.file.Sound
  account : s.allocated = freedBlocks s.file.freed + s.owned
  nodup : s.owned.Nodup
  kept : s.live = true → s.dropped = 0

/-- Blocks of the file are freed, or nothing happens to them. -/
theorem FileAccount.frees (h : FileAccount s) (hsound : t.file.Sound)
    (halloc : t.allocated = s.allocated) (hfreed : t.file.freed = s.file.freed ++ l)
    (howned : freedBlocks l + t.owned = s.owned) (hkept : t.live = true → t.dropped = 0) : FileAccount t where
  sound := hsound
  account := by rw [halloc, h.account, hfreed, freedBlocks_append, ← howned, add_assoc]
  nodup := Multiset.nodup_of_le (by rw [← howned]; exact Multiset.le_add_left _ _) h.nodup
  kept := hkept

theorem FileStart.account (h : FileStart s) : FileAccount s := by
  obtain ⟨entries, hfile⟩ := h.file
  have hmapped : s.file.mappedBlocks = 0 := by rw [hfile]; rfl
  have hlisted : s.file.listedBlocks = 0 := by rw [hfile]; rfl
  have hfreed : freedBlocks s.file.freed = 0 := by rw [hfile]; rfl
  have hrec : recordedBlocks s.file.recorded = 0 := by rw [hfile]; rfl
  refine ⟨⟨?_, ?_, ?_⟩, ?_, ?_, fun _ => h.dropped⟩
  · rw [hfile]
    exact fun _ _ _ _ _ _ h => by cases h
  · rw [hfile]
    exact fun _ _ h => by cases h
  · rw [hfile]
    exact nofun
  · unfold FileState.owned FileTree.owned
    rw [h.allocated, hmapped, hlisted, hfreed, hrec, h.dropped]
    rfl
  · unfold FileState.owned FileTree.owned
    rw [hmapped, hlisted, hrec, h.dropped]
    exact Multiset.nodup_zero

/-- Where the entry goes, nothing of the file is. -/
structure FileTree.Unused (f : FileTree) (entry : Nat) : Prop where
  mapped : ∀ p, f.tree.slot p ≠ some entry
  listed : ∀ o ∈ f.oldEntryList, o.entry ≠ entry

theorem FileTree.store_entries (h : x ≠ entry) : (f.store entry e).entries x = f.entries x :=
  Function.update_of_ne h ..

theorem FileTree.store_entries_self : (f.store entry e).entries entry = e := Function.update_self ..

theorem FileTree.Unused.sound (h : f.Unused entry) (hf : f.Sound) : (f.store entry e).Sound where
  solid := hf.solid
  within := by
    intro p x hx
    have hne : x ≠ entry := fun hxe => h.mapped p (hxe ▸ hx)
    rw [FileTree.store_entries hne]
    exact hf.within p x hx
  listed := by
    intro o ho
    rw [FileTree.store_entries (h.listed o ho)]
    exact hf.listed o ho

theorem FileTree.Unused.mappedBlocks (h : f.Unused entry) : (f.store entry e).mappedBlocks = f.mappedBlocks := by
  refine pageBlocks_congr fun x hx => FileTree.store_entries fun hxe => ?_
  exact h.mapped x.2 (by rw [← hxe]; exact Radix.mem_members.mp hx)

theorem FileTree.Unused.listedBlocks (h : f.Unused entry) : (f.store entry e).listedBlocks = f.listedBlocks := by
  refine pageBlocks_congr fun x hx => FileTree.store_entries fun hxe => ?_
  obtain ⟨o, ho, hxo⟩ := mem_listedPages.mp hx
  exact h.listed o ho (by rw [← hxe]; exact (mem_runPages.mp hxo).1.symm)

theorem SameExtents.sound (h : SameExtents f.entries f'.entries) (hf : f.Sound) (htree : f'.tree = f.tree)
    (hlist : f'.oldEntryList = f.oldEntryList) : f'.Sound where
  solid := by rw [htree]; exact hf.solid
  within := by
    intro p x hx
    rw [htree] at hx
    rw [(h x).1, (h x).2.1]
    exact hf.within p x hx
  listed := by
    intro o ho
    rw [hlist] at ho
    rw [(h o.entry).1]
    exact hf.listed o ho

/-- The pages of an entry that is new to the tree are mapped, and the rest as before. -/
theorem Assigned.sound (h : Assigned f entry (f.entries entry) f') (hf : f.Sound) (hnew : ∀ p, f.tree.slot p ≠ some entry) :
    f'.Sound where
  solid := by
    intro x p q r hpq hqr hp hr
    rw [h.slots] at hp hr ⊢
    by_cases hq : (f.entries entry).pgoff ≤ q ∧ q < (f.entries entry).pgoff + (f.entries entry).numPages
    · rw [if_pos hq]
      simp
    · rw [if_neg hq]
      by_cases hx : x = entry
      · -- outside its range the new entry is nowhere
        have hin : ∀ k, (if (f.entries entry).pgoff ≤ k ∧ k < (f.entries entry).pgoff + (f.entries entry).numPages
            then some entry else f.tree.slot k) = some x →
            (f.entries entry).pgoff ≤ k ∧ k < (f.entries entry).pgoff + (f.entries entry).numPages := by
          intro k hk
          by_contra hout
          rw [if_neg hout, hx] at hk
          exact hnew k hk
        have h1 := hin p hp
        have h2 := hin r hr
        omega
      · have hout : ∀ k, (if (f.entries entry).pgoff ≤ k ∧ k < (f.entries entry).pgoff + (f.entries entry).numPages
            then some entry else f.tree.slot k) = some x → f.tree.slot k = some x := by
          intro k hk
          split at hk
          · exact absurd (Option.some.inj hk).symm hx
          · exact hk
        exact hf.solid x p q r hpq hqr (hout p hp) (hout r hr)
  within := by
    intro p x hx
    rw [h.slots] at hx
    rw [(h.extents x).1, (h.extents x).2.1]
    split at hx
    · obtain rfl := Option.some.inj hx
      assumption
    · exact hf.within p x hx
  listed := by
    intro o ho
    obtain ⟨hpos, -, -, hrun⟩ := h.listed o ho
    rw [(h.extents o.entry).1]
    exact (hf.within _ _ (hrun 0 hpos)).1

theorem Deleted.sound {snapshots : List Nat} {start epochId : Nat} {deleteNvmm deleteDead : Bool}
    {cut : List OldEntry} (h : Deleted snapshots f start deleteNvmm deleteDead epochId cut f') (hf : f.Sound) :
    f'.Sound where
  solid := by
    intro x p q r hpq hqr hp hr
    rw [h.slots] at hp hr ⊢
    by_cases hr' : start ≤ r
    · rw [if_pos hr'] at hr
      cases hr
    · rw [if_neg hr'] at hr
      rw [if_neg (by omega)] at hp ⊢
      exact hf.solid x p q r hpq hqr hp hr
  within := by
    intro p x hx
    rw [h.slots] at hx
    rw [(h.extents x).1, (h.extents x).2.1]
    split at hx
    · cases hx
    · exact hf.within p x hx
  listed := by
    rw [h.emptied]
    exact nofun

theorem Deleted.cut_pgoff {snapshots : List Nat} {start epochId : Nat} {deleteNvmm deleteDead : Bool}
    {cut : List OldEntry} (h : Deleted snapshots f start deleteNvmm deleteDead epochId cut f') (hf : f.Sound) :
    ∀ o ∈ cut, (f.entries o.entry).pgoff ≤ o.startPgoff := by
  intro o ho
  obtain ⟨hpos, -, hrun⟩ := h.runs o ho
  exact (hf.within _ _ (hrun 0 hpos)).1

/-- What leaves the tree and the list with `delete_nvmm` set is freed or goes to a snapshot. -/
theorem Deleted.blocks {snapshots : List Nat} {start epochId : Nat} {deleteDead : Bool}
    {cut : List OldEntry} (h : Deleted snapshots f start true deleteDead epochId cut f') (hf : f.Sound) :
    ∃ l, f'.freed = f.freed ++ l ∧ f.listedBlocks ≤ freedBlocks l ∧ freedBlocks l + f'.owned = f.owned := by
  have hcut := freedBlocks_cut snapshots deleteDead epochId (h.cut_pgoff hf)
  have hmapped : f'.mappedBlocks + pageBlocks f.entries (listedPages cut) = f.mappedBlocks := by
    unfold FileTree.mappedBlocks
    rw [h.extents.pageBlocks, ← pageBlocks_add, h.account]
  have hlisted : freedBlocks (f.oldEntryList.map (OldEntry.toFreed f.entries)) = f.listedBlocks :=
    freedBlocks_toFreed hf.listed
  have hlisted' : f'.listedBlocks = 0 := by
    unfold FileTree.listedBlocks
    rw [h.emptied]
    rfl
  refine ⟨_, by rw [h.freed, List.append_assoc], ?_, ?_⟩
  · rw [freedBlocks_append, hlisted]
    exact Multiset.le_add_right _ _
  unfold FileTree.owned
  rw [freedBlocks_append, hlisted, h.recorded, recordedBlocks_append, hlisted', ← hmapped, ← hcut]
  abel

/-- Cutting from the first page on leaves nothing. -/
theorem Deleted.empty {snapshots : List Nat} {epochId : Nat} {deleteNvmm deleteDead : Bool} {cut : List OldEntry}
    (h : Deleted snapshots f 0 deleteNvmm deleteDead epochId cut f') :
    f'.mappedBlocks = 0 ∧ f'.listedBlocks = 0 := by
  have hmembers : f'.tree.members = 0 := by
    rw [Multiset.eq_zero_iff_forall_notMem]
    rintro ⟨x, p⟩ hmem
    rw [Radix.mem_members, h.slots, if_pos (Nat.zero_le p)] at hmem
    cases hmem
  constructor
  · unfold FileTree.mappedBlocks
    rw [hmembers, pageBlocks_zero]
  · unfold FileTree.listedBlocks
    rw [h.emptied]
    rfl

/-- With `delete_nvmm` clear the tree is forgotten. -/
theorem Deleted.blocks_kept {snapshots : List Nat} {epochId : Nat} {deleteDead : Bool}
    {cut : List OldEntry} (h : Deleted snapshots f 0 false deleteDead epochId cut f') (hf : f.Sound) :
    ∃ l, f'.freed = f.freed ++ l ∧ freedBlocks l = f.listedBlocks ∧
      freedBlocks l + (f'.owned + f.mappedBlocks) = f.owned := by
  have hfreed : cut.filter (OldEntry.freedBy snapshots f.entries false deleteDead epochId) = [] :=
    List.filter_false cut
  have hrec : cut.filterMap (OldEntry.recordedBy snapshots f.entries false deleteDead epochId) = [] :=
    List.filterMap_none cut
  have hdrained : freedBlocks (f.oldEntryList.map (OldEntry.toFreed f.entries)) = f.listedBlocks :=
    freedBlocks_toFreed hf.listed
  refine ⟨_, by rw [h.freed, hfreed, List.map_nil, List.append_nil], hdrained, ?_⟩
  obtain ⟨hmapped, hlisted⟩ := h.empty
  unfold FileTree.owned
  rw [hdrained, h.recorded, hrec, List.append_nil, hmapped, hlisted]
  abel

theorem NovaFileWriteEntry.blocks_eq (e : NovaFileWriteEntry) (h : es entry = e) :
    pageBlocks es (runPages entry e.pgoff e.numPages) = e.blocks := by
  rw [pageBlocks_runPages (by rw [h]), h]
  unfold NovaFileWriteEntry.blocks
  refine Multiset.map_congr rfl fun j _ => ?_
  unfold getNvmm
  rw [Nat.sub_self, Nat.add_zero]

theorem NovaFileWriteEntry.nodup_blocks (e : NovaFileWriteEntry) : e.blocks.Nodup :=
  (Multiset.nodup_range _).map fun _ _ h => Nat.add_left_cancel h

/-- The blocks of the new entry come in, those on the list are freed, those replaced go to the
list. -/
theorem Assigned.blocks (h : Assigned f entry (f.entries entry) f') (hf : f.Sound) :
    (∃ l, f'.freed = f.freed ++ l ∧ freedBlocks l = f.listedBlocks) ∧
    f'.mappedBlocks + f'.listedBlocks = f.mappedBlocks + (f.entries entry).blocks := by
  constructor
  · exact ⟨_, h.freed, freedBlocks_toFreed hf.listed⟩
  · unfold FileTree.mappedBlocks FileTree.listedBlocks
    rw [h.extents.pageBlocks, h.extents.pageBlocks, ← pageBlocks_add, h.account, pageBlocks_add,
      NovaFileWriteEntry.blocks_eq _ rfl]

theorem FileState.assign_spec {inserts : Nat → Bool} (hs : s.file.Sound) (hnew : s.file.Unused entry)
    (hdone : (s.assign entry e inserts).2 = true) :
    Assigned (s.file.store entry e) entry ((s.file.store entry e).entries entry) (s.assign entry e inserts).1 := by
  have h := novaAssignWriteEntry_spec (hnew.sound hs).solid hdone
  rw [FileTree.store_entries_self]
  exact h

/-- An update in place leaves what the entry says about its pages. -/
theorem FileState.inplace_extents (s : FileState) (entry mtime size transId csum : Nat) :
    SameExtents s.file.entries (s.apply (.inplace entry mtime size transId csum)).file.entries := by
  intro x
  generalize hf' : (s.apply (.inplace entry mtime size transId csum)).file = f'
  by_cases hx : x = entry
  · have hself : f'.entries x = { s.file.entries x with
        mtime := mtime, size := size, transId := transId, csum := csum, updating := 0 } := by
      rw [← hf', hx]
      exact FileTree.store_entries_self
    rw [hself]
    exact ⟨rfl, rfl, rfl, rfl⟩
  · have hother : f'.entries x = s.file.entries x := by
      rw [← hf']
      exact FileTree.store_entries hx
    rw [hother]
    exact ⟨rfl, rfl, rfl, rfl⟩

theorem FileTree.delete_spec (f : FileTree) (snapshots : List Nat) (start : Nat) (deleteNvmm deleteDead : Bool)
    (epochId : Nat) (hf : f.Sound) :
    ∃ cut, Deleted snapshots f start deleteNvmm deleteDead epochId cut
      (novaDeleteFileTree snapshots f start deleteNvmm deleteDead epochId) :=
  novaDeleteFileTree_spec hf.solid fun q x hx => (hf.within q x hx).1

/-- Every step keeps the account. -/
theorem FileAccount.step (h : FileAccount s) (hstep : FileStep s op t) (hdone : op.Completes s) :
    FileAccount t := by
  obtain ⟨henabled, rfl⟩ := hstep
  cases op with
  | append entry e inserts =>
      obtain ⟨-, hmapped, hlisted, -, hfree, -, -⟩ := henabled
      have hnew : s.file.Unused entry := ⟨hmapped, hlisted⟩
      have hsound := hnew.sound (e := e) h.sound
      have hspec := FileState.assign_spec h.sound hnew hdone
      obtain ⟨⟨l, hfreed, hdrained⟩, hpages⟩ := hspec.blocks hsound
      rw [hnew.mappedBlocks, FileTree.store_entries_self] at hpages
      rw [hnew.listedBlocks] at hdrained
      have howned : (s.apply (.append entry e inserts)).owned =
          e.blocks + (recordedBlocks s.file.recorded + s.file.mappedBlocks + s.dropped) := by
        show FileTree.owned (s.assign entry e inserts).1 + s.dropped = _
        unfold FileTree.owned
        rw [hspec.recorded, add_assoc (recordedBlocks _), hpages]
        show recordedBlocks s.file.recorded + _ + _ = _
        abel
      have hrest : recordedBlocks s.file.recorded + s.file.mappedBlocks + s.dropped ≤ s.owned := by
        unfold FileState.owned FileTree.owned
        rw [add_right_comm _ s.file.listedBlocks]
        exact Multiset.le_add_right _ _
      refine ⟨hspec.sound hsound hnew.mapped, ?_, ?_, h.kept⟩
      · rw [howned]
        show s.allocated + e.blocks = freedBlocks (s.assign entry e inserts).1.freed + _
        rw [hfreed, freedBlocks_append, hdrained, h.account]
        show _ = freedBlocks s.file.freed + _ + _
        unfold FileState.owned FileTree.owned
        abel
      · rw [howned]
        -- what is free belongs to no part of the file
        refine Multiset.nodup_add.mpr ⟨e.nodup_blocks, Multiset.nodup_of_le hrest h.nodup, ?_⟩
        rw [Multiset.disjoint_left]
        intro b hb hb'
        have hcount := hfree b hb
        rw [h.account, Multiset.count_add] at hcount
        have hpos := Multiset.count_pos.mpr (Multiset.mem_of_le hrest hb')
        omega
  | inplace entry mtime size transId csum =>
      have hext := s.inplace_extents entry mtime size transId csum
      generalize hf' : (s.apply (.inplace entry mtime size transId csum)).file = f' at hext
      have hfile : f'.tree = s.file.tree ∧ f'.oldEntryList = s.file.oldEntryList ∧ f'.freed = s.file.freed ∧
          f'.recorded = s.file.recorded := by
        rw [← hf']
        exact ⟨rfl, rfl, rfl, rfl⟩
      have howned : f'.owned = s.file.owned := by
        unfold FileTree.owned FileTree.mappedBlocks FileTree.listedBlocks
        rw [hext.pageBlocks, hext.pageBlocks, hfile.1, hfile.2.1, hfile.2.2.2]
      have happly : s.apply (.inplace entry mtime size transId csum) = { s with file := f' } := by
        rw [← hf']
        rfl
      rw [happly]
      refine h.frees (hext.sound h.sound hfile.1 hfile.2.1) rfl (hfile.2.2.1.trans (List.append_nil _).symm) ?_ h.kept
      show 0 + (f'.owned + s.dropped) = _
      rw [howned, zero_add]
      rfl
  | truncate startBlocknr epochId =>
      obtain ⟨cut, hspec⟩ := s.file.delete_spec s.snapshots startBlocknr true false epochId h.sound
      obtain ⟨l, hfreed, -, howned⟩ := hspec.blocks h.sound
      refine h.frees (hspec.sound h.sound) rfl hfreed ?_ h.kept
      show freedBlocks l + (FileTree.owned _ + s.dropped) = _
      rw [← add_assoc]
      exact congrArg (· + s.dropped) howned
  | unlink epochId => exact ⟨h.sound, h.account, h.nodup, h.kept⟩
  | evict keep =>
      have hlive : s.dropped = 0 := h.kept henabled
      obtain ⟨cut, hspec⟩ := s.file.delete_spec s.snapshots 0 (s.destroys keep) (s.destroys keep) 0 h.sound
      generalize hf' : novaDeleteFileTree s.snapshots s.file 0 (s.destroys keep) (s.destroys keep) 0 = f' at hspec
      have happly : s.apply (.evict keep) = { s with
          file := f'
          dropped := if s.destroys keep then 0 else s.file.mappedBlocks
          limit := fun _ => 0
          live := false } := by
        rw [← hf']
        rfl
      rw [happly]
      cases hdestroy : s.destroys keep with
      | true =>
          rw [hdestroy] at hspec
          obtain ⟨l, hfreed, -, howned⟩ := hspec.blocks h.sound
          refine h.frees (hspec.sound h.sound) rfl hfreed ?_ ?_
          · show freedBlocks l + (f'.owned + 0) = s.file.owned + s.dropped
            rw [add_zero, howned, hlive, add_zero]
          · exact fun hf => by cases hf
      | false =>
          rw [hdestroy] at hspec
          obtain ⟨l, hfreed, -, howned⟩ := hspec.blocks_kept h.sound
          refine h.frees (hspec.sound h.sound) rfl hfreed ?_ ?_
          · show freedBlocks l + (f'.owned + s.file.mappedBlocks) = s.file.owned + s.dropped
            rw [howned, hlive, add_zero]
          · exact fun hf => by cases hf
  | createSnapshot ok => exact ⟨h.sound, h.account, h.nodup, h.kept⟩

/-! ### Without snapshots -/

/-- Where there are no snapshots none is needed. -/
theorem novaOldEntryDeleteable_nil (c d : Nat) : novaOldEntryDeleteable [] c d = none := by
  unfold novaOldEntryDeleteable
  split
  · rfl
  · rfl

theorem OldEntry.recordedBy_nil {deleteNvmm deleteDead : Bool} {epochId : Nat} :
    o.recordedBy [] es deleteNvmm deleteDead epochId = none := by
  unfold OldEntry.recordedBy
  split
  · rw [novaOldEntryDeleteable_nil]
    rfl
  · rfl

/-- The writes come to their end, and no snapshot is taken. -/
def FileOp.Plain (s : FileState) (op : FileOp) : Prop := op.Completes s ∧ ∀ ok, op ≠ .createSnapshot ok

theorem Deleted.recorded_nil {snapshots : List Nat} {start epochId : Nat} {deleteNvmm deleteDead : Bool}
    {cut : List OldEntry} (h : Deleted snapshots f start deleteNvmm deleteDead epochId cut f')
    (hnone : snapshots = []) : f'.recorded = f.recorded := by
  subst hnone
  rw [h.recorded, List.filterMap_eq_nil_iff.mpr fun o _ => OldEntry.recordedBy_nil, List.append_nil]

/-- A file of a file system without snapshots. -/
structure PlainFile (s : FileState) : Prop extends FileAccount s where
  snapshots : s.snapshots = []
  recorded : s.file.recorded = []

theorem PlainFile.step (h : PlainFile s) (hstep : FileStep s op t) (hplain : op.Plain s) : PlainFile t := by
  refine ⟨h.toFileAccount.step hstep hplain.1, ?_, ?_⟩
  · obtain ⟨-, rfl⟩ := hstep
    cases op with
    | createSnapshot ok => exact absurd rfl (hplain.2 ok)
    | _ => exact h.snapshots
  · obtain ⟨henabled, rfl⟩ := hstep
    cases op with
    | append entry e inserts =>
        obtain ⟨-, hmapped, hlisted, -⟩ := henabled
        exact (FileState.assign_spec h.sound ⟨hmapped, hlisted⟩ hplain.1).recorded.trans h.recorded
    | truncate startBlocknr epochId =>
        obtain ⟨cut, hspec⟩ := s.file.delete_spec s.snapshots startBlocknr true false epochId h.sound
        exact (hspec.recorded_nil h.snapshots).trans h.recorded
    | evict keep =>
        obtain ⟨cut, hspec⟩ := s.file.delete_spec s.snapshots 0 (s.destroys keep) (s.destroys keep) 0 h.sound
        exact (hspec.recorded_nil h.snapshots).trans h.recorded
    | createSnapshot ok => exact absurd rfl (hplain.2 ok)
    | _ => exact h.recorded

theorem PlainFile.run {s₀ : FileState} (h0 : FileStart s₀) (hnone : s₀.snapshots = [])
    (hrun : Runs (Guarded FileOp.Plain FileStep) s₀ s) : PlainFile s := by
  refine hrun.invariant (fun s op t h hstep => h.step hstep.2 hstep.1) ⟨h0.account, hnone, ?_⟩
  obtain ⟨entries, hfile⟩ := h0.file
  rw [hfile]
  rfl

/-- A file system without snapshots, and a file without pages. -/
def newFile : FileState :=
  ⟨FileTree.empty fun _ => ⟨0, 0, 0, 0, 0, 0, 0, 0, 0, 0, 0⟩, [], 1, 1, none, true, 0, 0, fun _ => 0⟩

/-- Pages of a new write. -/
def writeEntry (pgoff numPages blocknr epochId : Nat) : NovaFileWriteEntry :=
  ⟨0, 0, numPages, blocknr, pgoff, 0, 0, 0, epochId, 0, 0⟩

/-- Three pages are written. -/
def threePages : FileState := newFile.apply (.append 64 (writeEntry 0 3 10 1) fun _ => true)

theorem newFile_start : FileStart newFile where
  file := ⟨_, rfl⟩
  live := rfl
  linked := rfl
  allocated := rfl
  dropped := rfl
  created := le_rfl
  snapshots := nofun

theorem threePages_step :
    Guarded FileOp.Plain FileStep newFile (.append 64 (writeEntry 0 3 10 1) fun _ => true) threePages := by
  refine ⟨⟨rfl, nofun⟩, ⟨rfl, fun p => ?_, ?_, rfl, fun b _ => rfl, le_rfl, le_rfl⟩, rfl⟩
  · show none ≠ some 64
    simp
  · exact nofun

theorem threePages_slot (p : Nat) : threePages.file.tree.slot p = if p < 3 then some 64 else none := by
  obtain ⟨-, hmapped, hlisted, -⟩ := threePages_step.2.1
  have hspec := FileState.assign_spec newFile_start.account.sound ⟨hmapped, hlisted⟩ threePages_step.1.1
  refine (hspec.slots p).trans ?_
  show (if 0 ≤ p ∧ p < 0 + 3 then some 64 else none) = _
  simp

end

end Parfs
