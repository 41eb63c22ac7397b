/-
What the block counters say.

The counters should be the pages the tree maps and those on the list of replaced pages.  A write
or a reservation keeps them so: the pages it maps are those it was given, and what it frees was
counted before.  Three things do not.  A truncation copies the second counter over the first
when the list has been freed too.  A rebuild goes by the size, and its second loop lists pages that
are still mapped.  A call that fails leaves pages in the tree that are never counted.
-/
import Mathlib.Order.Interval.Finset.Nat
import Parfs.BlockCount
import Parfs.Proofs.FileHoles
import Parfs.Proofs.FileWriteFail
import Parfs.Proofs.RebuildMap

namespace Parfs

open Lib

/-! ### Counting pages -/

namespace FileTree

variable (f : FileTree)

/-- The pages mapped in the radix tree. -/
def numMapped : Nat := f.tree.members.card

/-- The pages listed in `old_entry_list`. -/
def numListed : Nat := (f.oldEntryList.map OldEntry.numFree).sum

end FileTree

section Count

variable {snapshots : List Nat} {f f' : FileTree} {entry start epochId : Nat} {e : NovaFileWriteEntry}

/-- **Each call counts.** -/
theorem novaFreeOldEntry_numFreed (pgoff numFree : Nat) (deleteDead : Bool) :
    (novaFreeOldEntry snapshots f entry pgoff numFree deleteDead epochId).numFreed = f.numFreed + numFree := by
  have hinv : ∀ (g : FileTree) (n : Nat), (novaInvalidateWriteEntry g entry true n).freed = g.freed ∧
      (novaInvalidateWriteEntry g entry true n).recorded = g.recorded := by
    intro g n
    obtain ⟨-, -, -, -, hfreed, hrecorded⟩ := novaInvalidateWriteEntry_spec g entry n
    exact ⟨hfreed, hrecorded⟩
  unfold novaFreeOldEntry FileTree.numFreed
  dsimp only
  split
  · simp only [List.map_append, List.sum_append, List.map_cons, List.map_nil, List.sum_singleton]
    omega
  · split
    · rw [(hinv _ 0).1, (hinv _ 0).2]
      simp only [List.map_append, List.sum_append, List.map_cons, List.map_nil, List.sum_singleton]
      omega
    · dsimp only
      rw [(hinv f numFree).1, (hinv f numFree).2]
      simp only [List.map_append, List.sum_append, List.map_cons, List.map_nil, List.sum_singleton]
      omega

theorem card_listedPages (l : List OldEntry) : (listedPages l).card = (l.map OldEntry.numFree).sum := by
  induction l with
  | nil => rfl
  | cons o l ih =>
      rw [listedPages_cons, Multiset.card_add, ih, List.map_cons, List.sum_cons]
      simp [OldEntry.pages, runPages]

theorem map_num_toFreed (es : Nat → NovaFileWriteEntry) (l : List OldEntry) :
    (l.map (OldEntry.toFreed es)).map FreedBlocks.num = l.map OldEntry.numFree := by
  rw [List.map_map]
  rfl

theorem Drained.numFreed (h : Drained f f') : f'.numFreed = f.numFreed + f.numListed := by
  unfold FileTree.numFreed FileTree.numListed
  rw [h.freed, h.recorded, List.map_append, List.sum_append, map_num_toFreed]
  omega

theorem Assigned.numFreed (h : Assigned f entry e f') : f'.numFreed = f.numFreed + f.numListed := by
  unfold FileTree.numFreed FileTree.numListed
  rw [h.freed, h.recorded, List.map_append, List.sum_append, map_num_toFreed]
  omega

/-- The pages an entry brings are those that are mapped or listed more. -/
theorem Assigned.numMapped (h : Assigned f entry e f') : f'.numMapped + f'.numListed = f.numMapped + e.numPages := by
  have hcard := congrArg Multiset.card h.account
  rw [Multiset.card_add, Multiset.card_add, card_listedPages] at hcard
  simpa [FileTree.numMapped, FileTree.numListed, runPages] using hcard

/-- What is cut goes to a snapshot or is freed. -/
theorem sum_cut (snapshots : List Nat) (f : FileTree) (epochId : Nat) (deleteDead : Bool) (l : List OldEntry) :
    ((l.filter (OldEntry.freedBy snapshots f.entries true deleteDead epochId)).map OldEntry.numFree).sum +
      ((l.filterMap (OldEntry.recordedBy snapshots f.entries true deleteDead epochId)).map SnapshotData.numPages).sum =
      (l.map OldEntry.numFree).sum := by
  induction l with
  | nil => rfl
  | cons o l ih =>
      rw [List.map_cons, List.sum_cons]
      by_cases hfreed : OldEntry.freedBy snapshots f.entries true deleteDead epochId o = true
      · have hnone : OldEntry.recordedBy snapshots f.entries true deleteDead epochId o = none := by
          unfold OldEntry.freedBy at hfreed
          unfold OldEntry.recordedBy
          cases deleteDead with
          | true => rfl
          | false => simpa using hfreed
        rw [List.filter_cons_of_pos hfreed, List.filterMap_cons_none hnone, List.map_cons, List.sum_cons]
        omega
      · obtain ⟨d, hd, hnum⟩ : ∃ d, OldEntry.recordedBy snapshots f.entries true deleteDead epochId o = some d ∧
            d.numPages = o.numFree := by
          unfold OldEntry.freedBy at hfreed
          unfold OldEntry.recordedBy
          cases deleteDead with
          | true => exact absurd rfl hfreed
          | false =>
              cases hold : novaOldEntryDeleteable snapshots (f.entries o.entry).epochId epochId with
              | none => simp [hold] at hfreed
              | some info => exact ⟨_, rfl, rfl⟩
        rw [List.filter_cons_of_neg hfreed, List.filterMap_cons_some hd, List.map_cons, List.sum_cons, hnum]
        omega

theorem Deleted.numFreed {deleteDead : Bool} {cut : List OldEntry}
    (h : Deleted snapshots f start true deleteDead epochId cut f') :
    f'.numFreed = f.numFreed + f.numListed + (cut.map OldEntry.numFree).sum := by
  have hcut := sum_cut snapshots f epochId deleteDead cut
  unfold FileTree.numFreed FileTree.numListed
  rw [h.freed, h.recorded, List.map_append, List.sum_append, List.map_append, List.sum_append, List.map_append,
    List.sum_append, map_num_toFreed, map_num_toFreed]
  omega

theorem Deleted.numMapped {deleteNvmm deleteDead : Bool} {cut : List OldEntry}
    (h : Deleted snapshots f start deleteNvmm deleteDead epochId cut f') :
    f'.numMapped + (cut.map OldEntry.numFree).sum = f.numMapped := by
  have hcard := congrArg Multiset.card h.account
  rwa [Multiset.card_add, card_listedPages] at hcard

end Count

/-! ### Putting pages into the tree -/

/-- Page offsets come from sizes, which are `loff_t`; so there are not many pages. -/
structure FileTree.Small (f : FileTree) : Prop where
  inside : ∀ p, f.tree.slot p ≠ none → p < 2 ^ 52
  few : f.numMapped + f.numListed ≤ 2 ^ 53

/-- What a loop that puts new extents into the tree has done so far: these pages are those of its
extents. -/
structure Taking (f : FileTree) (pages : Finset Nat) (f' : FileTree) : Prop where
  sound : f'.Sound
  small : f'.Small
  mapped : ∀ p ∈ pages, f'.tree.slot p ≠ none
  account : f'.numMapped + f'.numListed + f'.numFreed = f.numMapped + f.numListed + f.numFreed + pages.card
  freed : f.numFreed ≤ f'.numFreed

section Taking

variable {snapshots : List Nat} {f f' f'' : FileTree} {pages : Finset Nat} {entry currP : Nat} {e : NovaFileWriteEntry}

theorem numMapped_le (h : ∀ p, f.tree.slot p ≠ none → p < 2 ^ 52) : f.numMapped ≤ 2 ^ 52 := by
  have hsub : f.tree.filled ⊆ Finset.range (2 ^ 52) := by
    intro p hp
    exact Finset.mem_range.mpr (h p (Radix.mem_filled.mp hp))
  have hcard := Finset.card_le_card hsub
  rw [Finset.card_range] at hcard
  unfold FileTree.numMapped
  rwa [Radix.card_members]

theorem Taking.start (hsound : f.Sound) (hsmall : f.Small) : Taking f ∅ f where
  sound := hsound
  small := hsmall
  mapped := fun p hp => absurd hp (Finset.notMem_empty p)
  account := rfl
  freed := le_rfl

/-- The pages were mapped by the loop, so what it has freed or listed was there before. -/
theorem Taking.freed_le (h : Taking f pages f') : f'.numFreed - f.numFreed + f'.numListed ≤ f.numMapped + f.numListed := by
  have hsub : pages ⊆ f'.tree.filled := by
    intro p hp
    exact Radix.mem_filled.mpr (h.mapped p hp)
  have hcard := Finset.card_le_card hsub
  rw [← Radix.card_members] at hcard
  have haccount := h.account
  have hfreed := h.freed
  unfold FileTree.numMapped at haccount ⊢
  omega

/-- An entry is written over, and says the same about its pages. -/
theorem Taking.inplace (h : Taking f pages f') (hsame : SameExtents f'.entries (f'.store entry e).entries) :
    Taking f pages (f'.store entry e) where
  sound := hsame.sound h.sound rfl rfl
  small := ⟨h.small.inside, h.small.few⟩
  mapped := h.mapped
  account := h.account
  freed := h.freed

/-- An entry is stored where nothing of the file is. -/
theorem Taking.store (h : Taking f pages f') (hunused : f'.Unused currP) : Taking f pages (f'.store currP e) where
  sound := hunused.sound h.sound
  small := ⟨h.small.inside, h.small.few⟩
  mapped := h.mapped
  account := h.account
  freed := h.freed

/-- **An entry is appended**, of pages the loop has not been at. -/
theorem Taking.append (h : Taking f pages f') (hunused : f'.Unused currP) (hspan : e.pgoff + e.numPages ≤ 2 ^ 52)
    (hnew : ∀ p ∈ pages, p < e.pgoff)
    (hf'' : f'' = (novaAssignWriteEntry snapshots (f'.store currP e) currP e true fun _ => true).1) :
    Taking f (pages ∪ Finset.Ico e.pgoff (e.pgoff + e.numPages)) f'' := by
  have hsound := hunused.sound (e := e) h.sound
  have hself : (f'.store currP e).entries currP = e := FileTree.store_entries_self
  have hspec : Assigned (f'.store currP e) currP e f'' := by
    rw [hf'']
    exact novaAssignWriteEntry_spec hsound.solid (novaAssignWriteEntry_done ..)
  have hspec' : Assigned (f'.store currP e) currP ((f'.store currP e).entries currP) f'' := by
    rw [hself]
    exact hspec
  have hmapped := hspec.numMapped
  have hfreed := hspec.numFreed
  have hinside : ∀ p, f''.tree.slot p ≠ none → p < 2 ^ 52 := by
    intro p hp
    rw [hspec.slots] at hp
    split at hp
    · omega
    · exact h.small.inside p hp
  have hdisjoint : Disjoint pages (Finset.Ico e.pgoff (e.pgoff + e.numPages)) := by
    refine Finset.disjoint_left.mpr fun p hp hin => ?_
    have := hnew p hp
    have := (Finset.mem_Ico.mp hin).1
    omega
  have hcard : (pages ∪ Finset.Ico e.pgoff (e.pgoff + e.numPages)).card = pages.card + e.numPages := by
    rw [Finset.card_union_of_disjoint hdisjoint, Nat.card_Ico]
    omega
  have hsame : (f'.store currP e).numMapped = f'.numMapped ∧ (f'.store currP e).numListed = f'.numListed ∧
      (f'.store currP e).numFreed = f'.numFreed := ⟨rfl, rfl, rfl⟩
  have hbefore := numMapped_le h.small.inside
  refine
    { sound := hspec'.sound hsound hunused.mapped
      small := ⟨hinside, by omega⟩
      mapped := ?_
      account := by
        have := h.account
        omega
      freed := by
        have := h.freed
        omega }
  intro p hp
  rw [hspec.slots]
  split
  · exact Option.some_ne_none _
  · rename_i hout
    rcases Finset.mem_union.mp hp with hp | hp
    · exact h.mapped p hp
    · exact absurd (Finset.mem_Ico.mp hp) hout

end Taking

/-! ### Writes -/

/-- Every turn goes well. -/
def GoesThrough (mode : WriteMode) (c : WriteCall) : WriteLoop → List WriteTurn → Prop
  | _, [] => True
  | w, t :: ts => w.numBlocks = 0 ∨ (t.Goes mode c w ∧ GoesThrough mode c (writeTurn mode c w t).1 ts)

/-- A turn goes wrong, and those before it only write in place. -/
def FailsUntouched (mode : WriteMode) (c : WriteCall) : WriteLoop → List WriteTurn → Prop
  | _, [] => False
  | w, t :: ts => w.numBlocks ≠ 0 ∧
      (¬t.Goes mode c w ∨ (t.Goes mode c w ∧ w.source mode c ≠ none ∧ FailsUntouched mode c (writeTurn mode c w t).1 ts))

/-- A write that has put these pages into the tree. -/
structure Writing (mode : WriteMode) (c : WriteCall) (f : FileTree) (pages : Finset Nat) (w : WriteLoop) : Prop
    extends Taking f pages w.file where
  aligned : w.Aligned
  span : w.pos + w.count = c.pos + c.count
  behind : w.numBlocks ≠ 0 → ∀ p ∈ pages, p < w.pos / 4096
  given : (w.given.map Prod.snd).sum = pages.card
  left : mode = .cow → pages.card + w.numBlocks = writeNumBlocks c.pos c.count

section Write

variable {mode : WriteMode} {c : WriteCall} {w w' : WriteLoop} {t : WriteTurn} {ts : List WriteTurn} {f : FileTree}
  {pages : Finset Nat} {ret : Int}

theorem Writing.start (hsound : f.Sound) (hsmall : f.Small) (hcount : 0 < c.count) :
    Writing mode c f ∅ (c.start f) where
  toTaking := Taking.start hsound hsmall
  aligned := fun _ => ⟨hcount, rfl⟩
  span := rfl
  behind := fun _ p hp => absurd hp (Finset.notMem_empty p)
  given := rfl
  left := fun _ => Nat.zero_add _

theorem writeTurn_given (hsource : w.source mode c = none) (h : writeTurn mode c w t = (w', .ok ())) :
    w'.given = w.given ++ [(t.alloc.blocknr, t.alloc.ret.toNat)] := by
  unfold writeTurn WriteLoop.take at h
  simp only [hsource] at h
  by_cases hret : t.alloc.ret ≤ 0
  · rw [if_pos hret] at h
    cases h
  · rw [if_neg hret] at h
    dsimp only at h
    split at h
    · cases h
    · rename_i w₁ hcopy
      rw [WriteLoop.copy_ok hcopy] at h
      unfold novaAppendFileWriteEntry at h
      cases happend : t.append with
      | refused => simp [happend] at h
      | unmirrored currP => simp [happend] at h
      | appended currP =>
          simp only [happend, Prod.mk.injEq, and_true] at h
          subst h
          rfl

/-- A turn that goes wrong has stored an entry at most. -/
theorem writeTurn_error_file (h : writeTurn mode c w t = (w', .error ret)) :
    w'.file = w.file ∨ ∃ currP e, t.append = .unmirrored currP ∧ w'.file = w.file.store currP e := by
  have htake : (w.take mode c t).1.file = w.file := by
    unfold WriteLoop.take
    split
    · rfl
    · split <;> rfl
  unfold writeTurn at h
  split at h
  · rename_i w₁ code hfail
    cases h
    rw [hfail] at htake
    exact Or.inl htake
  · rename_i w₁ hok
    rw [hok] at htake
    split at h
    · rename_i w₂ code hcopy
      cases h
      rcases WriteLoop.copy_error_cases hcopy with hsame | hshift
      · rw [hsame.1]
        exact Or.inl htake
      · rw [hshift.1]
        exact Or.inl htake
    · rename_i w₂ hcopy
      rw [WriteLoop.copy_ok hcopy] at h
      split at h
      · cases h
      · split at h
        · rename_i w₃ code happend
          cases h
          unfold novaAppendFileWriteEntry at happend
          cases hlog : t.append with
          | refused =>
              simp only [hlog, Prod.mk.injEq] at happend
              rw [← happend.1]
              exact Or.inl htake
          | unmirrored currP =>
              simp only [hlog, Prod.mk.injEq] at happend
              rw [← happend.1]
              refine Or.inr ⟨currP, novaInitFileWriteEntry c w₁ t, rfl, ?_⟩
              rw [← htake]
              rfl
          | appended currP => simp [hlog] at happend
        · cases h

/-- **One turn.** -/
theorem Writing.turn (h : Writing mode c f pages w) (hspan : c.pos + c.count ≤ 2 ^ 63) (hnum : w.numBlocks ≠ 0)
    (hfit : t.Fits w) (hok : writeTurn mode c w t = (w', .ok ())) :
    (w.source mode c ≠ none ∧ Writing mode c f pages w') ∨
      (w.source mode c = none ∧ ∃ more, Writing mode c f more w') := by
  have hbehind := h.behind hnum
  obtain ⟨hcount, hblocks⟩ := h.aligned hnum
  unfold writeNumBlocks at hblocks
  have hend := h.span
  cases writeTurn_ok hok with
  | inplace entry e hsource hfile hsame hadv hgiven hbegin =>
      obtain ⟨hpos, hle⟩ := entBlks_bounds hsource h.sound hnum
      obtain ⟨haligned, hpage⟩ := hadv.aligned h.aligned hnum hpos hle
      have hmode : mode ≠ .cow := by
        intro hcow
        rw [hcow] at hsource
        cases hsource
      refine Or.inl ⟨by simp [hsource], ?_⟩
      refine
        { toTaking := by
            rw [hfile]
            exact h.toTaking.inplace hsame
          aligned := haligned
          span := by
            rw [hadv.pos, hadv.count]
            omega
          behind := ?_
          given := by
            rw [hgiven]
            exact h.given
          left := fun hcow => absurd hcow hmode }
      intro hnum' p hp
      have := hbehind p hp
      rw [hpage hnum']
      omega
  | append currP hsource hret happend hfile hadv =>
      have hle : t.alloc.ret.toNat ≤ w.numBlocks := by
        have := hfit.alloc
        omega
      obtain ⟨haligned, hpage⟩ := hadv.aligned h.aligned hnum (by omega) hle
      have hunused := (hfit.unused currP (Or.inr happend)).1
      have htaking : Taking f (pages ∪ Finset.Ico (w.pos / 4096) (w.pos / 4096 + t.alloc.ret.toNat)) w'.file :=
        h.toTaking.append (e := extentEntry c w t) hunused
          (show w.pos / 4096 + t.alloc.ret.toNat ≤ 2 ^ 52 by omega) hbehind hfile
      have hdisjoint : Disjoint pages (Finset.Ico (w.pos / 4096) (w.pos / 4096 + t.alloc.ret.toNat)) := by
        refine Finset.disjoint_left.mpr fun p hp hin => ?_
        have := hbehind p hp
        have := (Finset.mem_Ico.mp hin).1
        omega
      have hcard : (pages ∪ Finset.Ico (w.pos / 4096) (w.pos / 4096 + t.alloc.ret.toNat)).card =
          pages.card + t.alloc.ret.toNat := by
        rw [Finset.card_union_of_disjoint hdisjoint, Nat.card_Ico]
        omega
      refine Or.inr ⟨hsource, pages ∪ Finset.Ico (w.pos / 4096) (w.pos / 4096 + t.alloc.ret.toNat), ?_⟩
      refine
        { toTaking := htaking
          aligned := haligned
          span := by
            rw [hadv.pos, hadv.count]
            omega
          behind := ?_
          given := by
            rw [writeTurn_given hsource hok, List.map_append, List.sum_append, h.given, hcard]
            rfl
          left := by
            intro hcow
            have := h.left hcow
            rw [hcard, hadv.numBlocks]
            omega }
      intro hnum' p hp
      rw [hpage hnum']
      rcases Finset.mem_union.mp hp with hp | hp
      · have := hbehind p hp
        omega
      · exact (Finset.mem_Ico.mp hp).2

/-- **A write that goes through.** -/
theorem Writing.turns (h : Writing mode c f pages w) (hspan : c.pos + c.count ≤ 2 ^ 63) (hfit : TurnsFit mode c w ts)
    (hgoes : GoesThrough mode c w ts) : ∃ w' more, writeTurns mode c w ts = (w', .ok ()) ∧ Writing mode c f more w' := by
  induction ts generalizing w pages with
  | nil => exact ⟨w, pages, rfl, h⟩
  | cons t ts ih =>
      unfold writeTurns
      by_cases hnum : w.numBlocks = 0
      · rw [if_pos hnum]
        exact ⟨w, pages, rfl, h⟩
      · rw [if_neg hnum]
        obtain ⟨hgo, hrest⟩ := hgoes.resolve_left hnum
        have hok := (writeTurn_ok_iff w t).mp hgo
        obtain ⟨w₁, res, hturn⟩ : ∃ w₁ res, writeTurn mode c w t = (w₁, res) := ⟨_, _, rfl⟩
        obtain ⟨hfirst, hfit⟩ := hfit
        rw [hturn] at hok hrest hfit ⊢
        dsimp only at hok hrest hfit
        subst hok
        rcases h.turn hspan hnum hfirst hturn with ⟨-, hnext⟩ | ⟨-, more, hnext⟩
        · exact ih hnext hfit hrest
        · exact ih hnext hfit hrest

/-- **A write that fails before it has appended an entry** has freed and listed nothing. -/
theorem Writing.fails (h : Writing mode c f pages w) (hspan : c.pos + c.count ≤ 2 ^ 63) (hfit : TurnsFit mode c w ts)
    (hfails : FailsUntouched mode c w ts) :
    ∃ w' ret, writeTurns mode c w ts = (w', .error ret) ∧ Taking f pages w'.file ∧
      w'.file.numFreed = w.file.numFreed := by
  induction ts generalizing w with
  | nil => exact hfails.elim
  | cons t ts ih =>
      obtain ⟨hnum, hcases⟩ := hfails
      unfold writeTurns
      rw [if_neg hnum]
      obtain ⟨w₁, res, hturn⟩ : ∃ w₁ res, writeTurn mode c w t = (w₁, res) := ⟨_, _, rfl⟩
      obtain ⟨hfirst, hfit⟩ := hfit
      have hiff : t.Goes mode c w ↔ (writeTurn mode c w t).2 = .ok () := writeTurn_ok_iff w t
      rw [hturn] at hiff hcases hfit ⊢
      rcases hcases with hwrong | ⟨hgo, hsource, hrest⟩
      · cases res with
        | ok u => exact absurd (hiff.mpr rfl) hwrong
        | error ret =>
            refine ⟨w₁, ret, rfl, ?_⟩
            rcases writeTurn_error_file hturn with hsame | ⟨currP, e, hlog, hstore⟩
            · rw [hsame]
              exact ⟨h.toTaking, rfl⟩
            · rw [hstore]
              exact ⟨h.toTaking.store (hfirst.unused currP (Or.inl hlog)).1, rfl⟩
      · have hok := hiff.mp hgo
        dsimp only at hok
        subst hok
        rcases h.turn hspan hnum hfirst hturn with ⟨-, hnext⟩ | ⟨hnone, -⟩
        · obtain ⟨w', ret, hrun, htaking, hfreed⟩ := ih hnext hfit hrest
          refine ⟨w', ret, hrun, htaking, hfreed.trans ?_⟩
          cases writeTurn_ok hturn with
          | inplace entry e hsource hfile hsame hadv hgiven hbegin =>
              rw [hfile]
              rfl
          | append currP hnone hret happend hfile hadv => exact absurd hnone hsource
        · exact absurd hnone hsource

end Write

/-! ### Reservations -/

/-- The page has an entry of this epoch, which keeps it. -/
def FallocLoop.Current (c : FallocCall) (w : FallocLoop) : Prop :=
  ∃ x, w.file.tree.slot w.startBlk = some x ∧ (w.file.entries x).epochId = c.epochId

/-- Nothing goes wrong in the turn. -/
def FallocTurn.Goes (c : FallocCall) (w : FallocLoop) (t : FallocTurn) : Prop :=
  w.Current c ∨ (0 < t.alloc.ret ∧ ∃ currP, t.append = .appended currP)

/-- What the allocator and the log promise: no more blocks than were asked for, and a place
that nothing of the file uses. -/
structure FallocTurn.FitsCount (w : FallocLoop) (t : FallocTurn) : Prop where
  unused : t.Fits w
  alloc : t.alloc.ret ≤ w.numBlocks

/-- So in every turn. -/
def ReservesFitCount (c : FallocCall) : FallocLoop → List FallocTurn → Prop
  | _, [] => True
  | w, t :: ts => t.FitsCount w ∧ ∀ w', fallocTurn c w t = .ok (w', .ok ()) → ReservesFitCount c w' ts

/-- Every turn goes well. -/
def ReservesThrough (c : FallocCall) : FallocLoop → List FallocTurn → Prop
  | _, [] => True
  | w, t :: ts => w.numBlocks = 0 ∨
      (t.Goes c w ∧ ∀ w', fallocTurn c w t = .ok (w', .ok ()) → ReservesThrough c w' ts)

/-- A turn goes wrong, and those before it find entries of this epoch. -/
def ReservesUntouched (c : FallocCall) : FallocLoop → List FallocTurn → Prop
  | _, [] => False
  | w, t :: ts => w.numBlocks ≠ 0 ∧
      (¬t.Goes c w ∨ (w.Current c ∧ ∀ w', fallocTurn c w t = .ok (w', .ok ()) → ReservesUntouched c w' ts))

/-- A reservation that has put these pages into the tree. -/
structure Allotting (f : FileTree) (limit : Nat) (pages : Finset Nat) (w : FallocLoop) : Prop
    extends Taking f pages w.file where
  span : w.startBlk + w.numBlocks = limit
  behind : ∀ p ∈ pages, p < w.startBlk

/-- What a turn does. -/
inductive FallocDone (c : FallocCall) (w : FallocLoop) (t : FallocTurn) : FallocLoop → Except Int Unit → Prop
  | current (k : Nat) (f : FileTree) (hcurrent : w.Current c) (hk : k ≤ w.numBlocks)
      (hfile : f = w.file ∨ ∃ x e, f = w.file.store x e ∧ SameExtents w.file.entries f.entries) :
      FallocDone c w t (w.advance f k) (.ok ())
  | append (currP : Nat) (hcurrent : ¬w.Current c) (hret : 0 < t.alloc.ret) (happend : t.append = .appended currP) :
      FallocDone c w t (w.advance (novaAssignWriteEntry c.snapshots (w.file.store currP (fallocEntry c w t)) currP
        (fallocEntry c w t) true fun _ => true).1 t.alloc.ret.toNat) (.ok ())
  | fails (f : FileTree) (ret : Int) (hgoes : ¬t.Goes c w)
      (hfile : f = w.file ∨ ∃ currP e, t.append = .unmirrored currP ∧ f = w.file.store currP e) :
      FallocDone c w t { w with file := f } (.error ret)

section Falloc

variable {c : FallocCall} {w w' : FallocLoop} {t : FallocTurn} {ts : List FallocTurn} {f : FileTree} {limit : Nat}
  {pages : Finset Nat} {res : Except Int Unit} {data data' : Nat → Nat → UInt8}

/-- What the look at the page finds. -/
theorem checkExisting_current {r : ExistingEntry}
    (h : novaCheckExistingEntry w.file w.numBlocks w.startBlk true c.epochId = .ok r) :
    ((r.entry.isSome && r.inplace) = true ↔ w.Current c) ∧ r.entBlks ≤ w.numBlocks ∧
      ∀ x, r.entry = some x → w.file.tree.slot w.startBlk = some x := by
  unfold novaCheckExistingEntry at h
  unfold FallocLoop.Current
  cases hslot : w.file.tree.slot w.startBlk with
  | some x =>
      simp only [hslot] at h
      cases h
      exact ⟨by simp, Nat.min_le_right _ _, fun y hy => hy⟩
  | none =>
      simp only [hslot, if_true] at h
      split at h
      · split at h
        · cases h
        · cases h
          exact ⟨by simp, Nat.min_le_right _ _, nofun⟩
      · cases h
        exact ⟨by simp, le_rfl, nofun⟩

theorem fallocTurn_done (h : fallocTurn c w t = .ok (w', res)) : FallocDone c w t w' res := by
  unfold fallocTurn at h
  cases hcheck : novaCheckExistingEntry w.file w.numBlocks w.startBlk true c.epochId with
  | error fault =>
      rw [hcheck] at h
      cases h
  | ok r =>
      obtain ⟨hcurrent, hle, hentry⟩ := checkExisting_current hcheck
      rw [hcheck] at h
      have hnew : ¬w.Current c → fallocNew c w t = (w', res) →
          FallocDone c w t w' res := by
        intro hnot heq
        unfold fallocNew at heq
        split at heq
        · rename_i hret
          cases heq
          refine .fails w.file _ (fun hgoes => ?_) (Or.inl rfl)
          have := (hgoes.resolve_left hnot).1
          omega
        · rename_i hret
          cases happend : t.append with
          | refused =>
              rw [happend] at heq
              cases heq
              refine .fails w.file _ (fun hgoes => ?_) (Or.inl rfl)
              obtain ⟨currP, hlog⟩ := (hgoes.resolve_left hnot).2
              rw [happend] at hlog
              cases hlog
          | unmirrored currP =>
              rw [happend] at heq
              cases heq
              refine .fails _ _ (fun hgoes => ?_) (Or.inr ⟨currP, _, happend, rfl⟩)
              obtain ⟨currP', hlog⟩ := (hgoes.resolve_left hnot).2
              rw [happend] at hlog
              cases hlog
          | appended currP =>
              rw [happend] at heq
              cases heq
              exact .append currP hnot (by omega) happend
      have hres := Except.ok.inj h
      dsimp only at hres
      cases hentry' : r.entry with
      | none =>
          rw [hentry'] at hcurrent hres
          exact hnew (fun hc => absurd (hcurrent.mpr hc) (by simp)) hres
      | some x =>
          cases hinplace : r.inplace with
          | false =>
              rw [hentry', hinplace] at hcurrent hres
              exact hnew (fun hc => absurd (hcurrent.mpr hc) (by simp)) hres
          | true =>
              rw [hentry', hinplace] at hcurrent hres
              cases hres
              refine .current r.entBlks _ (hcurrent.mp (by simp)) hle ?_
              split
              · refine Or.inr ⟨x, _, rfl, fun y => ?_⟩
                by_cases hy : y = x
                · subst hy
                  show (Function.update w.file.entries y _ y).pgoff = _ ∧ (Function.update w.file.entries y _ y).numPages = _ ∧
                    (Function.update w.file.entries y _ y).blocknr = _ ∧ (Function.update w.file.entries y _ y).epochId = _
                  rw [Function.update_self]
                  exact ⟨rfl, rfl, rfl, rfl⟩
                · show (Function.update w.file.entries x _ y).pgoff = _ ∧ (Function.update w.file.entries x _ y).numPages = _ ∧
                    (Function.update w.file.entries x _ y).blocknr = _ ∧ (Function.update w.file.entries x _ y).epochId = _
                  rw [Function.update_of_ne hy]
                  exact ⟨rfl, rfl, rfl, rfl⟩
              · exact Or.inl rfl

/-- **One turn that goes well.** -/
theorem Allotting.turn (h : Allotting f limit pages w) (hlimit : limit ≤ 2 ^ 52) (hfit : t.FitsCount w)
    (hturn : fallocTurn c w t = .ok (w', .ok ())) :
    (w.Current c ∧ w'.file.numFreed = w.file.numFreed ∧ Allotting f limit pages w') ∨
      (¬w.Current c ∧ ∃ more : Finset Nat, more.card = pages.card + t.alloc.ret.toNat ∧ Allotting f limit more w') := by
  have hspan := h.span
  have hbehind := h.behind
  cases fallocTurn_done hturn with
  | current k g hcurrent hk hfile =>
      have htaking : Taking f pages g ∧ g.numFreed = w.file.numFreed := by
        rcases hfile with rfl | ⟨x, e, rfl, hsame⟩
        · exact ⟨h.toTaking, rfl⟩
        · exact ⟨h.toTaking.inplace hsame, rfl⟩
      refine Or.inl ⟨hcurrent, htaking.2, htaking.1, ?_, fun p hp => ?_⟩
      · show w.startBlk + k + (w.numBlocks - k) = limit
        omega
      · exact Nat.lt_of_lt_of_le (hbehind p hp) (Nat.le_add_right _ _)
  | append currP hcurrent hret happend =>
      have hle : t.alloc.ret.toNat ≤ w.numBlocks := by
        have := hfit.alloc
        omega
      have hdisjoint : Disjoint pages (Finset.Ico w.startBlk (w.startBlk + t.alloc.ret.toNat)) := by
        refine Finset.disjoint_left.mpr fun p hp hin => ?_
        have := hbehind p hp
        have := (Finset.mem_Ico.mp hin).1
        omega
      refine Or.inr ⟨hcurrent, pages ∪ Finset.Ico w.startBlk (w.startBlk + t.alloc.ret.toNat), ?_, ?_, ?_, ?_⟩
      · rw [Finset.card_union_of_disjoint hdisjoint, Nat.card_Ico]
        omega
      · exact h.toTaking.append (e := fallocEntry c w t) (hfit.unused currP (Or.inr happend))
          (show w.startBlk + t.alloc.ret.toNat ≤ 2 ^ 52 by omega) hbehind rfl
      · show w.startBlk + t.alloc.ret.toNat + (w.numBlocks - t.alloc.ret.toNat) = limit
        omega
      · intro p hp
        show p < w.startBlk + t.alloc.ret.toNat
        rcases Finset.mem_union.mp hp with hp | hp
        · have := hbehind p hp
          omega
        · exact (Finset.mem_Ico.mp hp).2

/-- A turn ends well exactly when nothing goes wrong in it. -/
theorem fallocTurn_goes_iff (h : fallocTurn c w t = .ok (w', res)) : t.Goes c w ↔ res = .ok () := by
  cases fallocTurn_done h with
  | current k g hcurrent hk hfile => exact iff_of_true (Or.inl hcurrent) rfl
  | append currP hcurrent hret happend => exact iff_of_true (Or.inr ⟨hret, currP, happend⟩) rfl
  | fails g ret hgoes hfile => exact iff_of_false hgoes nofun

theorem fallocTotal_cons (hnum : w.numBlocks ≠ 0) (hturn : fallocTurn c w t = .ok (w', .ok ()))
    (ts : List FallocTurn) :
    (w.Current c → fallocTotal c w (t :: ts) = fallocTotal c w' ts) ∧
      (¬w.Current c → fallocTotal c w (t :: ts) = t.alloc.ret.toNat + fallocTotal c w' ts) := by
  cases hcheck : novaCheckExistingEntry w.file w.numBlocks w.startBlk true c.epochId with
  | error fault =>
      unfold fallocTurn at hturn
      rw [hcheck] at hturn
      cases hturn
  | ok r =>
      obtain ⟨hcurrent, -⟩ := checkExisting_current hcheck
      rw [fallocTotal, if_neg hnum, hcheck, hturn]
      refine ⟨fun hc => ?_, fun hc => ?_⟩
      · dsimp only
        rw [if_pos (hcurrent.mpr hc), Nat.zero_add]
      · dsimp only
        rw [if_neg fun hr => hc (hcurrent.mp hr)]

/-- **A reservation that goes through.** -/
theorem Allotting.turns (h : Allotting f limit pages w) (hlimit : limit ≤ 2 ^ 52) (hfit : ReservesFitCount c w ts)
    (hgoes : ReservesThrough c w ts) (hok : reserveTurns c w data ts = .ok ((w', res), data')) :
    res = .ok () ∧ ∃ more : Finset Nat, Allotting f limit more w' ∧ more.card = pages.card + fallocTotal c w ts := by
  induction ts generalizing w pages data with
  | nil =>
      unfold reserveTurns at hok
      split at hok
      · cases hok
        exact ⟨rfl, pages, h, rfl⟩
      · cases hok
  | cons t ts ih =>
      unfold reserveTurns at hok
      by_cases hnum : w.numBlocks = 0
      · rw [if_pos hnum] at hok
        cases hok
        refine ⟨rfl, pages, h, ?_⟩
        rw [fallocTotal, if_pos hnum, Nat.add_zero]
      · rw [if_neg hnum] at hok
        obtain ⟨hgo, hrest⟩ := hgoes.resolve_left hnum
        obtain ⟨hfirst, hfit⟩ := hfit
        split at hok
        · cases hok
        · rename_i w₁ ret hturn
          exact absurd ((fallocTurn_goes_iff hturn).mp hgo) nofun
        · rename_i w₁ hturn
          obtain ⟨hreused, hfilled⟩ := fallocTotal_cons hnum hturn ts
          rcases h.turn hlimit hfirst hturn with ⟨hcurrent, -, hnext⟩ | ⟨hcurrent, more, hcard, hnext⟩
          · obtain ⟨hres, more, hend, hcount⟩ := ih hnext (hfit w₁ hturn) (hrest w₁ hturn) hok
            exact ⟨hres, more, hend, by rw [hcount, hreused hcurrent]⟩
          · obtain ⟨hres, more', hend, hcount⟩ := ih hnext (hfit w₁ hturn) (hrest w₁ hturn) hok
            refine ⟨hres, more', hend, ?_⟩
            rw [hcount, hfilled hcurrent, hcard]
            omega

/-- **A reservation that fails before it has appended an entry** has freed and listed nothing. -/
theorem Allotting.fails (h : Allotting f limit pages w) (hlimit : limit ≤ 2 ^ 52) (hfit : ReservesFitCount c w ts)
    (hfails : ReservesUntouched c w ts) (hok : reserveTurns c w data ts = .ok ((w', res), data')) :
    (∃ ret, res = .error ret) ∧ Taking f pages w'.file ∧ w'.file.numFreed = w.file.numFreed := by
  induction ts generalizing w data with
  | nil => exact hfails.elim
  | cons t ts ih =>
      obtain ⟨hnum, hcases⟩ := hfails
      unfold reserveTurns at hok
      rw [if_neg hnum] at hok
      obtain ⟨hfirst, hfit⟩ := hfit
      split at hok
      · cases hok
      · rename_i w₁ ret hturn
        cases hok
        refine ⟨⟨ret, rfl⟩, ?_⟩
        cases fallocTurn_done hturn with
        | fails g _ hgoes hfile =>
            rcases hfile with rfl | ⟨currP, e, hlog, rfl⟩
            · exact ⟨h.toTaking, rfl⟩
            · exact ⟨h.toTaking.store (hfirst.unused currP (Or.inl hlog)), rfl⟩
      · rename_i w₁ hturn
        have hgo := (fallocTurn_goes_iff hturn).mpr rfl
        obtain ⟨hcurrent, hrest⟩ := hcases.resolve_left fun hwrong => hwrong hgo
        rcases h.turn hlimit hfirst hturn with ⟨-, hfreed, hnext⟩ | ⟨hnot, -⟩
        · obtain ⟨hres, htaking, hsame⟩ := ih hnext (hfit w₁ hturn) (hrest w₁ hturn) hok
          exact ⟨hres, htaking, hsame.trans hfreed⟩
        · exact absurd hcurrent hnot

end Falloc

/-! ### The size a rebuild goes by -/

/-- The last `trans_id` the size was taken with, and the size, after one more entry. -/
def sizeEntry (m : ByteMem) (last : Nat × Nat) (p : Nat) : Nat × Nat :=
  if IsWrite m p then
    if transIdOf m p ≥ last.1 then (transIdOf m p, (wentry m p).size) else last
  else if novaGetEntryType m p = NovaEntryType.setAttr.code then
    if (sentry m p).transId ≥ last.1 then ((sentry m p).transId, (sentry m p).size) else last
  else last

/-- The size of a log. -/
def logSize (m : ByteMem) (reb : NovaInodeRebuild) (visited : List Nat) : Nat :=
  (visited.foldl (sizeEntry m) (reb.transId, reb.iSize)).2

/-- So many pages are in the page map of a log. -/
def MapsPages (m : ByteMem) (visited : List Nat) (n : Nat) : Prop :=
  ∃ pages : Finset Nat, (∀ q, q ∈ pages ↔ pageMap m visited q ≠ none) ∧ pages.card = n

section Size

variable {m : ByteMem} {s : FileRebuild} {v : Bool} {p : Nat}

theorem SameWrites.size {es es' : Nat → NovaFileWriteEntry} (h : SameWrites es es') (x : Nat) :
    (es' x).size = (es x).size := by
  have hx := h x
  simp only [NovaFileWriteEntry.mk.injEq] at hx
  exact hx.2.2.2.2.2.2.2.1

theorem FileRebuild.handle_size (snapshots : List Nat) (v : Bool) (h : Replaying m s) (p : Nat) :
    ((s.handle snapshots m v p).reb.transId, (s.handle snapshots m v p).reb.iSize) =
      sizeEntry m (s.reb.transId, s.reb.iSize) p := by
  unfold FileRebuild.handle sizeEntry
  dsimp only
  by_cases hset : novaGetEntryType m p = NovaEntryType.setAttr.code
  · have hw : ¬IsWrite m p := by
      intro hw
      exact absurd (hset.symm.trans hw) (by decide)
    rw [if_pos hset, if_neg hw, if_pos hset]
    have hreb : (novaApplySetattrEntry snapshots { s with entryc := p } (sentry m p)).reb.transId = s.reb.transId ∧
        (novaApplySetattrEntry snapshots { s with entryc := p } (sentry m p)).reb.iSize = s.reb.iSize := by
      unfold novaApplySetattrEntry
      dsimp only
      split <;> exact ⟨rfl, rfl⟩
    dsimp only
    rw [hreb.1]
    split
    · rfl
    · rw [hreb.1, hreb.2]
  · rw [if_neg hset]
    by_cases hlink : novaGetEntryType m p = NovaEntryType.linkChange.code
    · have hw : ¬IsWrite m p := by
        intro hw
        exact absurd (hlink.symm.trans hw) (by decide)
      rw [if_pos hlink, if_neg hw, if_neg hset]
      rfl
    · rw [if_neg hlink]
      by_cases hw : IsWrite m p
      · have htrans : (s.file.entries p).transId = transIdOf m p := (h.writes.fields p).2.2.2.1
        have hsize : (s.file.entries p).size = (wentry m p).size := h.writes.size p
        rw [if_pos hw, if_pos hw]
        split <;>
        · unfold novaRebuildHandleWriteEntry
          dsimp only
          rw [htrans, hsize]
          split <;> rfl
      · rw [if_neg hw, if_neg hw, if_neg hset]

/-- The main loop comes to the size of the log. -/
theorem Replaying.logSize (snapshots : List Nat) (v : Bool) (visited : List Nat) (h : Replaying m s) :
    (Parfs.replayed snapshots m v s visited).reb.iSize = (visited.foldl (sizeEntry m) (s.reb.transId, s.reb.iSize)).2 := by
  induction visited generalizing s with
  | nil => rfl
  | cons p visited ih =>
      rw [List.foldl_cons, ← FileRebuild.handle_size snapshots v h p]
      exact ih (FileRebuild.handle_spec snapshots v h p).1

/-- Nothing is recorded for a snapshot in the main loop. -/
theorem FileRebuild.handle_recorded (snapshots : List Nat) (v : Bool) (h : Replaying m s) (p : Nat) :
    (s.handle snapshots m v p).file.recorded = s.file.recorded := by
  unfold FileRebuild.handle
  dsimp only
  split
  · unfold novaApplySetattrEntry
    dsimp only
    split
    · exact (novaDeleteFileTree_slots snapshots _ false 0 h.emptied).1.recorded
    · rfl
  · split
    · rfl
    · split
      · split <;>
        · unfold novaRebuildHandleWriteEntry
          dsimp only
          have hassign := (novaAssignWriteEntry_alone snapshots p (s.file.entries p) h.emptied).2.recorded
          split <;> split <;> first | exact hassign | rfl
      · rfl

theorem Replaying.recorded (snapshots : List Nat) (v : Bool) (visited : List Nat) (h : Replaying m s) :
    (Parfs.replayed snapshots m v s visited).file.recorded = s.file.recorded := by
  induction visited generalizing s with
  | nil => rfl
  | cons p visited ih =>
      exact (ih (FileRebuild.handle_spec snapshots v h p).1).trans (FileRebuild.handle_recorded snapshots v h p)

end Size

/-! ### Operations -/

namespace CountedFile

variable (s : CountedFile)

/-- **The block count is exact.** -/
structure Exact : Prop where
  sih : s.sihBlocks = s.file.numMapped + s.file.numListed
  inode : s.inodeBlocks = s.sihBlocks

/-- An exact count of a file in order. -/
structure Inv : Prop extends Exact s where
  sound : s.file.Sound
  small : s.file.Small

/-- What the callers, the allocator and the log promise. -/
def Enabled : BlockOp → Prop
  | .write mode c early turns => early ≠ none ∨
      (0 < c.count ∧ c.pos + c.count ≤ 2 ^ 63 ∧ TurnsFit mode c (c.start s.file) turns ∧
        -- the turns are told to the end
        ((writeTurns mode c (c.start s.file) turns).2 = .ok () →
          (writeTurns mode c (c.start s.file) turns).1.numBlocks = 0))
  | .fallocate a _ turns => a.refused = true ∨
      (0 < a.len ∧ a.offset + a.len ≤ 2 ^ 63 ∧ ReservesFitCount a.loop ⟨s.file, a.startBlk, a.numBlocks⟩ turns)
  | .truncate .. => True
  | .rebuild _ m fuel pi _ _ => (pi.logHead = 0 ∨ pi.logTail = 0) ∨
      ∃ visited, FileLog m pi.logHead pi.logTail visited ∧ visited.length < fuel ∧
        ∀ p ∈ visited, IsWrite m p → (wentry m p).pgoff + (wentry m p).numPages ≤ 2 ^ 52

/-- When the count stays exact.  A call that fails does so before it has appended an entry.  What
is cut leaves no list behind, and an `int` holds its number.  A log is replayed without the second
loop, and has as many pages as its size. -/
def KeepsCount : BlockOp → Prop
  | .write mode c early turns => early ≠ none ∨ GoesThrough mode c (c.start s.file) turns ∨
      FailsUntouched mode c (c.start s.file) turns
  | .fallocate a _ turns => a.refused = true ∨ ReservesThrough a.loop ⟨s.file, a.startBlk, a.numBlocks⟩ turns ∨
      ReservesUntouched a.loop ⟨s.file, a.startBlk, a.numBlocks⟩ turns
  | .truncate _ start endp _ =>
      (start + 4095) / 4096 > (if endp = 0 then 0 else (endp - 1) / 4096) ∨
        (s.file.oldEntryList = [] ∧ (s.file.tree.filled.filter fun q => (start + 4095) / 4096 ≤ q).card < 2 ^ 31)
  | .rebuild _ m _ pi reb _ => (pi.logHead = 0 ∨ pi.logTail = 0) ∨
      (pi.recoveryLatestTransInvalid = true ∧ ∀ visited, FileLog m pi.logHead pi.logTail visited →
        MapsPages m visited ((logSize m reb visited + 4095) / 4096))

/-- No subtraction of the step goes below zero; a rebuild starts from a header that is zero. -/
def NoWrap (op : BlockOp) (t : CountedFile) : Prop :=
  match op with
  | .truncate snapshots .. => t.file.numFreed - s.file.numFreed ≤ s.sihBlocks ∧
      t.file.numFreed - (freeOldEntry snapshots s.file 0).numFreed ≤ s.inodeBlocks
  | .rebuild .. => t.file.numFreed = 0
  | _ => t.file.numFreed - s.file.numFreed ≤ s.sihBlocks

end CountedFile

def BlockStep (s : CountedFile) (op : BlockOp) (t : CountedFile) : Prop := s.Enabled op ∧ s.apply op = .ok t

section Operations

variable {s t : CountedFile} {mode : WriteMode} {c : WriteCall} {early : Option Errno} {turns : List WriteTurn}
  {a : FallocateCall} {data : Nat → Nat → UInt8} {fturns : List FallocTurn} {snapshots : List Nat}
  {start endp epochId : Nat} {m : ByteMem} {fuel : Nat} {pi : RecoverInode} {reb : NovaInodeRebuild} {transCurr : Nat}
  {f : FileTree} {pages : Finset Nat}

/-- The pages are those the call leaves. -/
theorem CountedFile.doNovaFileWrite_file :
    (s.doNovaFileWrite mode c early turns).file = (Parfs.doNovaFileWrite mode c s.file early turns).out.file := by
  unfold CountedFile.doNovaFileWrite Parfs.doNovaFileWrite
  cases early with
  | some e => rfl
  | none =>
      obtain ⟨w, res, hrun⟩ : ∃ w res, writeTurns mode c (c.start s.file) turns = (w, res) := ⟨_, _, rfl⟩
      dsimp only
      rw [hrun]
      cases res <;> rfl

theorem FallocateCall.refused_file (h : a.refused = true) :
    (Parfs.novaFallocate a f data fturns).map FallocateResult.file = .ok f := by
  unfold FallocateCall.refused at h
  unfold Parfs.novaFallocate fallocateLocked
  by_cases hmode : a.mode / 2 ≠ 0
  · rw [if_pos hmode]
    rfl
  · rw [if_neg hmode]
    cases hdir : a.isDir with
    | true => rfl
    | false =>
        cases hinode : a.inode with
        | false => cases a.newsizeOk <;> cases a.grows <;> rfl
        | true =>
            cases hsize : a.newsizeOk with
            | none => simp [hmode, hdir, hinode, hsize] at h
            | some e =>
                cases hgrows : a.grows with
                | true => rfl
                | false => simp [hmode, hdir, hinode, hgrows] at h

theorem FallocateCall.accepted (h : a.refused = false) :
    Parfs.novaFallocate a f data fturns = fallocateLocked a f data fturns ∧ a.inode = true := by
  unfold FallocateCall.refused at h
  simp only [Bool.or_eq_false_iff, decide_eq_false_iff_not, Bool.not_eq_false', Bool.and_eq_false_iff] at h
  obtain ⟨⟨⟨hmode, hdir⟩, hsize⟩, hinode⟩ := h
  refine ⟨?_, hinode⟩
  unfold Parfs.novaFallocate
  rw [if_neg hmode, hdir, if_neg Bool.false_ne_true]
  cases hnew : a.newsizeOk with
  | none => rfl
  | some e =>
      have hgrows : a.grows = false := by simpa [hnew] using hsize
      rw [hgrows]

theorem CountedFile.novaFallocate_file : (s.novaFallocate a data fturns).map CountedFile.file =
    (Parfs.novaFallocate a s.file data fturns).map FallocateResult.file := by
  unfold CountedFile.novaFallocate
  cases href : a.refused with
  | true =>
      rw [FallocateCall.refused_file href]
      rfl
  | false =>
      obtain ⟨hlocked, hinode⟩ :
          Parfs.novaFallocate a s.file data fturns = fallocateLocked a s.file data fturns ∧ a.inode = true :=
        FallocateCall.accepted href
      rw [if_neg Bool.false_ne_true, hlocked]
      unfold fallocateLocked
      rw [hinode]
      simp only [Bool.not_true, Bool.false_eq_true, if_false]
      cases hrun : reserveTurns a.loop ⟨s.file, a.startBlk, a.numBlocks⟩ data fturns with
      | error fault => rfl
      | ok r =>
          obtain ⟨⟨w, res⟩, data'⟩ := r
          cases res <;> rfl

theorem CountedFile.Inv.few (h : s.Inv) : s.sihBlocks ≤ 2 ^ 53 := by
  rw [h.sih]
  exact h.small.few

/-- What the call has put into the tree is added at its end. -/
theorem CountedFile.Inv.added (h : s.Inv) (htaking : Taking s.file pages f) :
    (⟨f, s.freeOld f + pages.card, s.freeOld f + pages.card⟩ : CountedFile).Inv ∧
      f.numFreed - s.file.numFreed ≤ s.sihBlocks := by
  have hle := htaking.freed_le
  have haccount := htaking.account
  have hfreed := htaking.freed
  have hsih := h.sih
  have hfew := h.few
  have hsub : s.freeOld f = s.sihBlocks - (f.numFreed - s.file.numFreed) := subU64_of_le (by omega) (by omega)
  refine ⟨⟨⟨?_, rfl⟩, htaking.sound, htaking.small⟩, by omega⟩
  rw [hsub]
  show s.sihBlocks - (f.numFreed - s.file.numFreed) + pages.card = f.numMapped + f.numListed
  omega

/-- A call that has freed nothing. -/
theorem CountedFile.Inv.kept (h : s.Inv) (htaking : Taking s.file ∅ f) (hfreed : f.numFreed = s.file.numFreed) :
    (⟨f, s.freeOld f, s.inodeBlocks⟩ : CountedFile).Inv ∧ f.numFreed - s.file.numFreed ≤ s.sihBlocks := by
  have hfew := h.few
  have haccount := htaking.account
  rw [hfreed, Finset.card_empty] at haccount
  have hsub : s.freeOld f = s.sihBlocks := by
    have hzero : f.numFreed - s.file.numFreed = 0 := by omega
    unfold CountedFile.freeOld
    rw [hzero]
    exact subU64_of_le (Nat.zero_le _) (by omega)
  have hsih := h.sih
  refine ⟨⟨⟨?_, ?_⟩, htaking.sound, htaking.small⟩, by omega⟩
  · rw [hsub]
    show s.sihBlocks = f.numMapped + f.numListed
    omega
  · rw [hsub]
    exact h.inode

theorem CountedFile.Inv.write (h : s.Inv) (hen : s.Enabled (.write mode c early turns))
    (hkeeps : s.KeepsCount (.write mode c early turns)) :
    (s.doNovaFileWrite mode c early turns).Inv ∧
      (s.doNovaFileWrite mode c early turns).file.numFreed - s.file.numFreed ≤ s.sihBlocks := by
  unfold CountedFile.doNovaFileWrite
  cases early with
  | some e => exact ⟨h, (Nat.sub_self s.file.numFreed).trans_le (Nat.zero_le _)⟩
  | none =>
      obtain ⟨hcount, hspan, hfit, htold⟩ := hen.resolve_left fun hne => hne rfl
      have hstart : Writing mode c s.file ∅ (c.start s.file) := Writing.start h.sound h.small hcount
      rcases hkeeps.resolve_left fun hne => hne rfl with hgoes | hfails
      · obtain ⟨w, pages, hrun, hw⟩ := hstart.turns hspan hfit hgoes
        rw [hrun] at htold
        have hend := htold rfl
        dsimp only at hend
        have hadded : ∀ total, total = pages.card →
            (⟨w.file, s.freeOld w.file + total, s.freeOld w.file + total⟩ : CountedFile).Inv ∧
              w.file.numFreed - s.file.numFreed ≤ s.sihBlocks := by
          intro total htotal
          rw [htotal]
          exact h.added hw.toTaking
        rw [hrun]
        cases mode with
        | cow =>
            have hleft := hw.left rfl
            exact hadded (writeNumBlocks c.pos c.count) (by omega)
        | inplace => exact hadded _ hw.given
      · obtain ⟨w, ret, hrun, htaking, hfreed⟩ := hstart.fails hspan hfit hfails
        rw [hrun]
        exact h.kept htaking hfreed

theorem CountedFile.Inv.fallocate (h : s.Inv) (hen : s.Enabled (.fallocate a data fturns))
    (hkeeps : s.KeepsCount (.fallocate a data fturns)) (hok : s.novaFallocate a data fturns = .ok t) :
    t.Inv ∧ t.file.numFreed - s.file.numFreed ≤ s.sihBlocks := by
  unfold CountedFile.novaFallocate at hok
  by_cases hrefused : a.refused = true
  · rw [if_pos hrefused] at hok
    cases hok
    exact ⟨h, by omega⟩
  · rw [if_neg hrefused] at hok
    obtain ⟨hlen, hspan, hfit⟩ := hen.resolve_left hrefused
    have hlimit : a.startBlk + a.numBlocks ≤ 2 ^ 52 := by
      have hand : a.offset &&& FallocateCall.blocksizeMask ≤ 11 := Nat.and_le_right
      unfold FallocateCall.startBlk FallocateCall.numBlocks
      omega
    have hstart : Allotting s.file (a.startBlk + a.numBlocks) ∅ ⟨s.file, a.startBlk, a.numBlocks⟩ :=
      ⟨Taking.start h.sound h.small, rfl, fun p hp => absurd hp (Finset.notMem_empty p)⟩
    cases hrun : reserveTurns a.loop ⟨s.file, a.startBlk, a.numBlocks⟩ data fturns with
    | error fault =>
        rw [hrun] at hok
        cases hok
    | ok r =>
        obtain ⟨⟨w, res⟩, data'⟩ := r
        rw [hrun] at hok
        rcases hkeeps.resolve_left hrefused with hgoes | hfails
        · obtain ⟨rfl, pages, hw, hcard⟩ := hstart.turns hlimit hfit hgoes hrun
          rw [Finset.card_empty, Nat.zero_add] at hcard
          rw [← Except.ok.inj hok, ← hcard]
          exact h.added hw.toTaking
        · obtain ⟨⟨ret, rfl⟩, htaking, hfreed⟩ := hstart.fails hlimit hfit hfails hrun
          rw [← Except.ok.inj hok]
          exact h.kept htaking hfreed

theorem FileTree.empty_sound (es : Nat → NovaFileWriteEntry) : (FileTree.empty es).Sound where
  solid := fun _ _ _ _ _ _ h => by cases h
  within := fun _ _ h => by cases h
  listed := nofun

theorem FileTree.empty_small (es : Nat → NovaFileWriteEntry) : (FileTree.empty es).Small where
  inside := fun _ h => absurd rfl h
  few := Nat.zero_le _

theorem intToU64_ofNat {n : Nat} (h : n < 2 ^ 31) : intToU64 (toS32 (n : Int)) = n := by
  rw [toS32_of_lt h]
  unfold intToU64
  rw [Int.emod_eq_of_lt (by omega) (by omega)]
  rfl

theorem CountedFile.Inv.truncate (h : s.Inv) (hkeeps : s.KeepsCount (.truncate snapshots start endp epochId)) :
    (s.novaTruncateFileBlocks snapshots start endp epochId).Inv ∧
      s.NoWrap (.truncate snapshots start endp epochId) (s.novaTruncateFileBlocks snapshots start endp epochId) := by
  have hdrained := (freeOldEntry_spec snapshots s.file 0).numFreed
  unfold CountedFile.NoWrap CountedFile.novaTruncateFileBlocks Parfs.novaTruncateFileBlocks
  dsimp only
  by_cases hfirst : (start + 4095) / 4096 > (if endp = 0 then 0 else (endp - 1) / 4096)
  · rw [if_pos hfirst, if_pos hfirst]
    exact ⟨h, by dsimp only; omega, by dsimp only; omega⟩
  · rw [if_neg hfirst, if_neg hfirst]
    obtain ⟨hlist, hint⟩ := hkeeps.resolve_left hfirst
    have hnone : s.file.numListed = 0 := by
      unfold FileTree.numListed
      rw [hlist]
      rfl
    obtain ⟨cut, hcut⟩ : ∃ cut, Deleted snapshots s.file ((start + 4095) / 4096) true false epochId cut
        (novaDeleteFileTree snapshots s.file ((start + 4095) / 4096) true false epochId) :=
      novaDeleteFileTree_spec h.sound.solid fun q e hq => (h.sound.within q e hq).1
    generalize novaDeleteFileTree snapshots s.file ((start + 4095) / 4096) true false epochId = f at hcut ⊢
    have hfreed := hcut.numFreed
    have hmapped := hcut.numMapped
    have hempty : f.numListed = 0 := by
      unfold FileTree.numListed
      rw [hcut.emptied]
      rfl
    have hinside : ∀ p, f.tree.slot p ≠ none → p < 2 ^ 52 := by
      intro p hp
      rw [hcut.slots] at hp
      split at hp
      · exact absurd rfl hp
      · exact h.small.inside p hp
    have hbefore := numMapped_le hinside
    have hcard : (cut.map OldEntry.numFree).sum =
        (s.file.tree.filled.filter fun q => (start + 4095) / 4096 ≤ q).card := by
      have hkept : f.tree.filled = s.file.tree.filled.filter fun q => ¬(start + 4095) / 4096 ≤ q := by
        ext q
        rw [Finset.mem_filter, Radix.mem_filled, Radix.mem_filled, hcut.slots]
        by_cases hq : (start + 4095) / 4096 ≤ q
        · simp [hq]
        · simp [hq]
      have hsplit := Finset.card_filter_add_card_filter_not (s := s.file.tree.filled)
        fun q => (start + 4095) / 4096 ≤ q
      unfold FileTree.numMapped at hmapped
      rw [Radix.card_members, Radix.card_members, hkept] at hmapped
      omega
    rw [← hcard] at hint
    have hdiff : f.numFreed - (freeOldEntry snapshots s.file 0).numFreed = (cut.map OldEntry.numFree).sum := by omega
    have hsih := h.sih
    have hinode := h.inode
    have hfew := h.few
    have hsub : subU64 s.inodeBlocks (cut.map OldEntry.numFree).sum = s.inodeBlocks - (cut.map OldEntry.numFree).sum :=
      subU64_of_le (by omega) (by omega)
    rw [hdiff, intToU64_ofNat hint, hsub]
    refine ⟨⟨⟨?_, rfl⟩, hcut.sound h.sound, hinside, show f.numMapped + f.numListed ≤ 2 ^ 53 by omega⟩, ?_, ?_⟩
    · show s.inodeBlocks - (cut.map OldEntry.numFree).sum = f.numMapped + f.numListed
      omega
    · show f.numFreed - s.file.numFreed ≤ s.sihBlocks
      omega
    · omega

theorem CountedFile.Inv.rebuild (hen : s.Enabled (.rebuild snapshots m fuel pi reb transCurr))
    (hkeeps : s.KeepsCount (.rebuild snapshots m fuel pi reb transCurr))
    (hok : rebuildCounted snapshots m fuel pi reb transCurr = .ok t) : t.Inv ∧ t.file.numFreed = 0 := by
  unfold rebuildCounted novaRebuildFileInodeTree at hok
  dsimp only at hok
  by_cases hnull : pi.logHead = 0 ∨ pi.logTail = 0
  · rw [if_pos hnull] at hok
    cases hok
    exact ⟨⟨⟨rfl, rfl⟩, FileTree.empty_sound _, FileTree.empty_small _⟩, rfl⟩
  · rw [if_neg hnull] at hok
    obtain ⟨visited, hlog, hfuel, hspan⟩ := hen.resolve_left hnull
    obtain ⟨hflag, hpages⟩ := hkeeps.resolve_left hnull
    obtain ⟨pages, hmem, hcard⟩ := hpages visited hlog
    have hstart := Replaying.start m reb transCurr
    obtain ⟨hrep, -, -⟩ := hstart.replayed snapshots false visited
    have hmap : (Parfs.replayed snapshots m false (novaInitHeader m reb transCurr) visited).file.tree.slot =
        pageMap m visited := replayed_map snapshots false reb transCurr hlog.nodup
    have hsize := hstart.logSize snapshots false visited
    have hrecorded := hstart.recorded snapshots false visited
    have hmapOk := @pageMap_ok m visited hlog.nodup
    rw [hflag] at hok
    simp only [Bool.not_true, hlog.path.rebuildLoop snapshots false (novaInitHeader m reb transCurr) fuel hfuel] at hok
    generalize Parfs.replayed snapshots m false (novaInitHeader m reb transCurr) visited = r at *
    cases hok
    have hinside : ∀ p, r.file.tree.slot p ≠ none → p < 2 ^ 52 := by
      intro p hp
      obtain ⟨e, he⟩ := Option.ne_none_iff_exists'.mp hp
      rw [hmap] at he
      obtain ⟨hin, hw, -, hend⟩ := hmapOk.met p e he
      have := hspan e hin hw
      omega
    have hnone : r.file.numListed = 0 := by
      unfold FileTree.numListed
      rw [hrep.emptied]
      rfl
    have hmapped : r.file.numMapped = (logSize m reb visited + 4095) / 4096 := by
      have hfilled : r.file.tree.filled = pages := by
        ext q
        rw [Radix.mem_filled, hmem, hmap]
      unfold FileTree.numMapped
      rw [Radix.card_members, hfilled, hcard]
    have hbefore := numMapped_le hinside
    refine ⟨⟨⟨?_, rfl⟩, ?_, hinside, ?_⟩, ?_⟩
    · show r.reb.iSize / 4096 + (if r.reb.iSize % 4096 > 0 then 1 else 0) = r.file.numMapped + r.file.numListed
      have hsame : r.reb.iSize = logSize m reb visited := hsize
      rw [hsame, hmapped, hnone]
      split <;> omega
    · refine ⟨?_, fun p x hx => ?_, ?_⟩
      · show Solid r.file.tree.slot
        rw [hmap]
        exact hmapOk.solid
      · have hx : r.file.tree.slot p = some x := hx
        rw [hmap] at hx
        obtain ⟨-, -, hlo, hhi⟩ := hmapOk.met p x hx
        obtain ⟨hpgoff, hnum, -⟩ := hrep.writes.fields x
        exact ⟨hpgoff.trans_le hlo, hhi.trans_eq (by rw [← hpgoff, ← hnum]; rfl)⟩
      · show ∀ o ∈ r.file.oldEntryList, _
        rw [hrep.emptied]
        exact nofun
    · show r.file.numMapped + r.file.numListed ≤ 2 ^ 53
      omega
    · show (r.file.freed.map FreedBlocks.num).sum + (r.file.recorded.map SnapshotData.numPages).sum = 0
      rw [hrep.freed, hrecorded]
      rfl

/-- **One operation.** -/
theorem CountedFile.Inv.step {op : BlockOp} (h : s.Inv) (hkeeps : s.KeepsCount op) (hstep : BlockStep s op t) :
    t.Inv ∧ s.NoWrap op t := by
  obtain ⟨hen, hok⟩ := hstep
  cases op with
  | write mode c early turns =>
      cases hok
      exact h.write hen hkeeps
  | fallocate a data turns => exact h.fallocate hen hkeeps hok
  | truncate snapshots start endp epochId =>
      cases hok
      exact h.truncate hkeeps
  | rebuild snapshots m fuel pi reb transCurr => exact CountedFile.Inv.rebuild hen hkeeps hok

end Operations

/-! ### Runs -/

/-- A file that was just created. -/
def CountedFile.new (es : Nat → NovaFileWriteEntry) : CountedFile := ⟨FileTree.empty es, 0, 0⟩

section Runs

variable {es : Nat → NovaFileWriteEntry} {s : CountedFile} {n : Nat}

theorem CountedFile.Inv.new (es : Nat → NovaFileWriteEntry) : (CountedFile.new es).Inv :=
  ⟨⟨rfl, rfl⟩, FileTree.empty_sound es, FileTree.empty_small es⟩

/-- **The block count is exact in every state of a run whose operations keep it**, and none of their
subtractions goes below zero. -/
theorem blockRun_exact (hrun : Runs (Guarded CountedFile.KeepsCount BlockStep) (CountedFile.new es) s) :
    s.Exact ∧ ∀ op t, s.KeepsCount op → BlockStep s op t → t.Exact ∧ s.NoWrap op t := by
  have hinv : s.Inv := by
    refine hrun.invariant (fun s op t hs hstep => ?_) (CountedFile.Inv.new es)
    exact (hs.step hstep.1 hstep.2).1
  refine ⟨hinv.toExact, fun op t hkeeps hstep => ?_⟩
  obtain ⟨hnext, hwrap⟩ := hinv.step hkeeps hstep
  exact ⟨hnext.toExact, hwrap⟩

/-- One page, written to a file of this size. -/
def pageWrite (iSize : Nat) : WriteCall := ⟨0, 4096, 1, 1, 2, iSize, []⟩

def onePage : CountedFile :=
  (CountedFile.new newFile.file.entries).doNovaFileWrite .cow (pageWrite 0) none [oneBlock 20 64]

/-- The page is written again. -/
def rewritten : CountedFile := onePage.doNovaFileWrite .cow (pageWrite 4096) none [oneBlock 30 128]

theorem onePage_slot (p : Nat) : onePage.file.tree.slot p = if p < 1 then some 64 else none := by
  refine (novaAssignWriteEntry_slot [] _ 64 _ true p).trans ?_
  show (if 0 ≤ p ∧ p < 0 + 1 then some 64 else none) = _
  simp

theorem oneBlock_goes {w : WriteLoop} (blocknr currP : Nat) : (oneBlock blocknr currP).Goes .cow (pageWrite n) w :=
  ⟨fun _ => ⟨by show (0 : Int) < 1; decide, currP, rfl⟩, fun _ => rfl, rfl, rfl⟩

theorem onePage_step : Guarded CountedFile.KeepsCount BlockStep (CountedFile.new newFile.file.entries)
    (.write .cow (pageWrite 0) none [oneBlock 20 64]) onePage := by
  have hfits : (oneBlock 20 64).Fits ((pageWrite 0).start newFile.file) := by
    refine ⟨by decide, fun currP hp => ?_⟩
    rcases hp with hp | hp
    · cases hp
    · cases hp
      exact ⟨⟨fun _ => nofun, nofun⟩, by decide⟩
  exact ⟨Or.inr (Or.inl (Or.inr ⟨oneBlock_goes 20 64, trivial⟩)),
    Or.inr ⟨by decide, by decide, ⟨hfits, trivial⟩, fun _ => rfl⟩, rfl⟩

theorem rewritten_step : Guarded CountedFile.KeepsCount BlockStep onePage
    (.write .cow (pageWrite 4096) none [oneBlock 30 128]) rewritten := by
  have hfits : (oneBlock 30 128).Fits ((pageWrite 4096).start onePage.file) := by
    refine ⟨by decide, fun currP hp => ?_⟩
    rcases hp with hp | hp
    · cases hp
    · cases hp
      refine ⟨⟨fun p hslot => ?_, nofun⟩, by decide⟩
      have hslot : onePage.file.tree.slot p = some 128 := hslot
      rw [onePage_slot] at hslot
      split at hslot
      · cases hslot
      · cases hslot
  exact ⟨Or.inr (Or.inl (Or.inr ⟨oneBlock_goes 30 128, trivial⟩)),
    Or.inr ⟨by decide, by decide, ⟨hfits, trivial⟩, fun _ => rfl⟩, rfl⟩

theorem blockRun_exact_rewritten : rewritten.Exact :=
  (blockRun_exact ((Runs.single onePage_step).tail rewritten_step)).1

/-- A page is written twice and the file is cut to nothing: the block on the list was freed, and
is still counted. -/
theorem blockRun_counts_freed :
    ¬∀ (es : Nat → NovaFileWriteEntry) (s : CountedFile), Runs BlockStep (CountedFile.new es) s → s.Exact := by
  intro hall
  have hcut : BlockStep rewritten (.truncate [] 0 4096 1) (rewritten.novaTruncateFileBlocks [] 0 4096 1) :=
    ⟨trivial, rfl⟩
  have hexact := hall _ _ (((Runs.single onePage_step.2).tail rewritten_step.2).tail hcut)
  exact absurd hexact.sih (by decide +kernel)

end Runs

end Parfs
