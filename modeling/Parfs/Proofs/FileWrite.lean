/-
What a write does to the blocks that were there.

Each turn of the loop either writes in place, and then nothing about pages and blocks changes,
or puts a new extent into the tree.  The pages the new extent takes from older entries go to
the list, and the next extent frees their blocks.  So at any point of the loop, everything on
the list when the call came is freed once there is an extent, and so is what every extent but
the last replaced.

A write that fails has changed the tree if it has put an extent into it.  If it has not, it
remains that the cleanup frees whatever `blocknr` and `allocated` hold, which are the new
blocks only when they are neither live ones nor moved past the head, and not at all when the
block number is 0.
-/
import Mathlib.Algebra.Order.BigOperators.Group.List
import Mathlib.Data.Multiset.OrderedMonoid
import Parfs.FileWrite
import Parfs.Proofs.FileRun

namespace Parfs

open Lib

/-! ### What an extent replaces -/

section Replaced

variable {f f' : FileTree} {entry lo n : Nat} {e : NovaFileWriteEntry}

/-- The pages from `lo` on that the tree maps. -/
def mappedIn (t : Radix Nat) (lo n : Nat) : Multiset (Nat × Nat) :=
  t.members.filter fun x => lo ≤ x.2 ∧ x.2 < lo + n

theorem mem_mappedIn {t : Radix Nat} {x : Nat × Nat} :
    x ∈ mappedIn t lo n ↔ t.slot x.2 = some x.1 ∧ lo ≤ x.2 ∧ x.2 < lo + n := by
  rw [mappedIn, Multiset.mem_filter]
  exact and_congr_left fun _ => Radix.mem_members

theorem mappedIn_congr {t t' : Radix Nat} (h : ∀ q, lo ≤ q → t.slot q = t'.slot q) :
    mappedIn t lo n = mappedIn t' lo n := by
  refine (Multiset.Nodup.ext (t.nodup_members.filter _) (t'.nodup_members.filter _)).mpr fun x => ?_
  show x ∈ mappedIn t lo n ↔ x ∈ mappedIn t' lo n
  rw [mem_mappedIn, mem_mappedIn]
  exact and_congr_left fun hx => by rw [h x.2 hx.1]

/-- What goes to the list is what the pages were mapped to. -/
theorem Assigned.listedPages (h : Assigned f entry e f') :
    listedPages f'.oldEntryList = mappedIn f.tree e.pgoff e.numPages := by
  have hrun : (runPages entry e.pgoff e.numPages).Nodup :=
    (Multiset.nodup_range _).map fun _ _ hj => Nat.add_left_cancel (Prod.ext_iff.mp hj).2
  have hout : f'.tree.members =
      f.tree.members.filter (fun x => ¬(e.pgoff ≤ x.2 ∧ x.2 < e.pgoff + e.numPages)) +
        runPages entry e.pgoff e.numPages := by
    refine (Multiset.Nodup.ext f'.tree.nodup_members ?_).mpr fun x => ?_
    · refine Multiset.nodup_add.mpr ⟨f.tree.nodup_members.filter _, hrun, ?_⟩
      rw [Multiset.disjoint_left]
      intro x hx hx'
      exact (Multiset.mem_filter.mp hx).2 (mem_runPages.mp hx').2
    · rw [Multiset.mem_add, Multiset.mem_filter, mem_runPages, Radix.mem_members, h.slots, Radix.mem_members]
      by_cases hin : e.pgoff ≤ x.2 ∧ x.2 < e.pgoff + e.numPages
      · rw [if_pos hin]
        simp [hin, eq_comm]
      · rw [if_neg hin]
        simp [hin]
  have haccount := h.account
  rw [hout, add_right_comm] at haccount
  have hsplit := Multiset.filter_add_not (fun x : Nat × Nat => e.pgoff ≤ x.2 ∧ x.2 < e.pgoff + e.numPages) f.tree.members
  rw [add_comm] at hsplit
  exact add_left_cancel ((add_right_cancel haccount).trans hsplit.symm)

/-- The blocks an extent takes from older entries. -/
def FileTree.replaced (f : FileTree) (extent : Nat × Nat) : Multiset Nat :=
  pageBlocks f.entries (mappedIn f.tree extent.1 extent.2)

theorem FileTree.replaced_le (f : FileTree) (extent : Nat × Nat) : f.replaced extent ≤ f.mappedBlocks :=
  Multiset.map_le_map (Multiset.filter_le _ _)

/-- An extent replaces nothing when its pages were not mapped. -/
theorem FileTree.replaced_eq_zero (f : FileTree) (extent : Nat × Nat) :
    f.replaced extent = 0 ↔ ∀ q, extent.1 ≤ q → q < extent.1 + extent.2 → f.tree.slot q = none := by
  unfold FileTree.replaced pageBlocks
  rw [Multiset.map_eq_zero]
  constructor
  · intro hzero q hlo hhi
    by_contra hq
    obtain ⟨x, hx⟩ := Option.ne_none_iff_exists'.mp hq
    have hmem : (x, q) ∈ mappedIn f.tree extent.1 extent.2 := mem_mappedIn.mpr ⟨hx, hlo, hhi⟩
    rw [hzero] at hmem
    exact Multiset.notMem_zero _ hmem
  · intro hnone
    refine Multiset.eq_zero_of_forall_notMem fun x hx => ?_
    obtain ⟨hslot, hlo, hhi⟩ := mem_mappedIn.mp hx
    rw [hnone x.2 hlo hhi] at hslot
    cases hslot

end Replaced

/-! ### One turn -/

/-- `a` pages are done. -/
structure Advanced (w : WriteLoop) (a : Nat) (w' : WriteLoop) : Prop where
  pos : w'.pos = w.pos + min (4096 * a - w.pos % 4096) w.count
  count : w'.count = w.count - min (4096 * a - w.pos % 4096) w.count
  numBlocks : w'.numBlocks = w.numBlocks - a

/-- As long as there are pages left, they are those of the rest of the data. -/
def WriteLoop.Aligned (w : WriteLoop) : Prop :=
  w.numBlocks ≠ 0 → 0 < w.count ∧ w.numBlocks = writeNumBlocks w.pos w.count

/-- The entry of the extent a turn appends. -/
def extentEntry (c : WriteCall) (w : WriteLoop) (t : WriteTurn) : NovaFileWriteEntry :=
  novaInitFileWriteEntry c { w with blocknr := t.alloc.blocknr, allocated := t.alloc.ret } t

/-- What a turn that goes well does. -/
inductive TurnOk (mode : WriteMode) (c : WriteCall) (w : WriteLoop) (t : WriteTurn) (w' : WriteLoop) : Prop where
  | inplace (entry : Nat) (e : NovaFileWriteEntry) (hsource : w.source mode c = some entry)
      (hfile : w'.file = w.file.store entry e)
      (hsame : SameExtents w.file.entries (w.file.store entry e).entries)
      (hadv : Advanced w (entBlks (w.file.entries entry) w.numBlocks (w.pos / 4096)) w')
      (hgiven : w'.given = w.given) (hbegin : w'.beginTail = w.beginTail)
  | append (currP : Nat) (hsource : w.source mode c = none) (hret : 0 < t.alloc.ret)
      (happend : t.append = .appended currP)
      (hfile : w'.file = (novaAssignWriteEntry c.snapshots (w.file.store currP (extentEntry c w t)) currP
        (extentEntry c w t) true fun _ => true).1)
      (hadv : Advanced w t.alloc.ret.toNat w')

section Turn

variable {mode : WriteMode} {c : WriteCall} {w w' : WriteLoop} {t : WriteTurn} {f : FileTree}
  {extents : List (Nat × Nat)} {ts : List WriteTurn} {entry : Nat}

/-- A write in place leaves what the entry says about its pages. -/
theorem WriteLoop.updateEntry_spec (w : WriteLoop) (t : WriteTurn)
    (hepoch : (w.file.entries entry).epochId = c.epochId) :
    ∃ e, (w.updateEntry c entry t).file = w.file.store entry e ∧
      SameExtents w.file.entries (w.file.store entry e).entries := by
  refine ⟨_, rfl, fun x => ?_⟩
  by_cases hx : x = entry
  · subst hx
    rw [FileTree.store_entries_self]
    split
    · exact ⟨rfl, rfl, rfl, rfl⟩
    · exact ⟨rfl, rfl, rfl, hepoch.symm⟩
  · rw [FileTree.store_entries hx]
    exact ⟨rfl, rfl, rfl, rfl⟩

theorem WriteLoop.source_epoch (h : w.source mode c = some entry) :
    w.file.tree.slot (w.pos / 4096) = some entry ∧ (w.file.entries entry).epochId = c.epochId := by
  cases mode with
  | cow => cases h
  | inplace =>
      obtain ⟨hslot, hepoch⟩ := Option.filter_eq_some_iff.mp h
      exact ⟨hslot, by simpa using hepoch⟩

/-- Copies that go well leave the loop as it is. -/
theorem WriteLoop.copy_ok (h : w.copy mode t = (w', .ok ())) : w' = w := by
  unfold WriteLoop.copy at h
  split at h
  · cases h
  · split at h
    · cases h
    · split at h
      · cases h
      · cases h
      · cases h
        rfl

theorem writeTurn_ok (h : writeTurn mode c w t = (w', .ok ())) : TurnOk mode c w t w' := by
  unfold writeTurn WriteLoop.take at h
  cases hsource : w.source mode c with
  | some entry =>
      simp only [hsource] at h
      split at h
      · cases h
      · rename_i w₁ hcopy
        rw [WriteLoop.copy_ok hcopy] at h
        simp only [Prod.mk.injEq, and_true] at h
        subst h
        obtain ⟨e, hfile, hsame⟩ := WriteLoop.updateEntry_spec
          { w with
            blocknr := getNvmm (w.file.entries entry) (w.pos / 4096)
            allocated := entBlks (w.file.entries entry) w.numBlocks (w.pos / 4096) } t
          (WriteLoop.source_epoch hsource).2
        exact .inplace entry e hsource hfile hsame ⟨rfl, rfl, rfl⟩ rfl rfl
  | none =>
      simp only [hsource] at h
      by_cases hret : t.alloc.ret ≤ 0
      · rw [if_pos hret] at h
        cases h
      · rw [if_neg hret] at h
        dsimp only at h
        split at h
        · cases h
        · rename_i w₁ hcopy
          rw [WriteLoop.copy_ok hcopy] at h
          unfold novaAppendFileWriteEntry at h
          cases happend : t.append with
          | refused => simp [happend] at h
          | unmirrored currP => simp [happend] at h
          | appended currP =>
              simp only [happend, Prod.mk.injEq, and_true] at h
              subst h
              exact .append currP hsource (by omega) happend rfl ⟨rfl, rfl, rfl⟩

/-- The pages that are left begin where the turn ends. -/
theorem Advanced.aligned {a : Nat} (h : Advanced w a w') (hw : w.Aligned) (hnum : w.numBlocks ≠ 0) (ha : 0 < a)
    (hle : a ≤ w.numBlocks) :
    w'.Aligned ∧ (w'.numBlocks ≠ 0 → w'.pos / 4096 = w.pos / 4096 + a) := by
  obtain ⟨hcount, hblocks⟩ := hw hnum
  unfold WriteLoop.Aligned
  unfold writeNumBlocks at hblocks ⊢
  rw [h.pos, h.count, h.numBlocks]
  omega

/-- What the allocator and the log promise: no more blocks than were asked for, and a place
that nothing of the file uses. -/
structure WriteTurn.Fits (w : WriteLoop) (t : WriteTurn) : Prop where
  alloc : t.alloc.ret ≤ w.numBlocks
  unused : ∀ currP, t.append = .unmirrored currP ∨ t.append = .appended currP →
    w.file.Unused currP ∧ currP ≠ 0

theorem assignPages_done (entry : Nat) (free : Bool) (ps : List Nat) (a : Assigning) :
    (assignPages entry free (fun _ => true) ps a).2 = true := by
  induction ps generalizing a with
  | nil => rfl
  | cons p ps ih =>
      unfold assignPages
      rw [if_neg (by simp)]
      exact ih _

theorem novaAssignWriteEntry_done (snapshots : List Nat) (f : FileTree) (entry : Nat) (e : NovaFileWriteEntry) :
    (novaAssignWriteEntry snapshots f entry e true fun _ => true).2 = true :=
  assignPages_done entry true _ _

theorem entBlks_bounds (hsource : w.source mode c = some entry) (hsound : w.file.Sound) (hnum : w.numBlocks ≠ 0) :
    0 < entBlks (w.file.entries entry) w.numBlocks (w.pos / 4096) ∧
      entBlks (w.file.entries entry) w.numBlocks (w.pos / 4096) ≤ w.numBlocks := by
  have hin := hsound.within _ _ (WriteLoop.source_epoch hsource).1
  unfold entBlks
  split <;> omega

/-! ### Turn after turn -/

/-- The extents that are put into the tree: page, and number of pages. -/
def writeExtents (mode : WriteMode) (c : WriteCall) : WriteLoop → List WriteTurn → List (Nat × Nat)
  | _, [] => []
  | w, t :: ts =>
    if w.numBlocks = 0 then []
    else
      match w.source mode c with
      | some _ => writeExtents mode c (writeTurn mode c w t).1 ts
      | none => (w.pos / 4096, t.alloc.ret.toNat) :: writeExtents mode c (writeTurn mode c w t).1 ts

/-- The allocator and the log keep their promise in every turn. -/
def TurnsFit (mode : WriteMode) (c : WriteCall) : WriteLoop → List WriteTurn → Prop
  | _, [] => True
  | w, t :: ts => t.Fits w ∧ TurnsFit mode c (writeTurn mode c w t).1 ts

/-- What the loop has done to the file since the call came, with the extents so far. -/
structure WriteInv (f : FileTree) (extents : List (Nat × Nat)) (w : WriteLoop) : Prop where
  sound : w.file.Sound
  aligned : w.Aligned
  /-- The pages that are left are as they were. -/
  ahead : w.numBlocks ≠ 0 → ∀ q, w.pos / 4096 ≤ q → w.file.tree.slot q = f.tree.slot q
  same : w.numBlocks ≠ 0 → ∀ q x, w.pos / 4096 ≤ q → f.tree.slot q = some x →
    getNvmm (w.file.entries x) q = getNvmm (f.entries x) q
  behind : ∀ extent ∈ extents, 0 < extent.2 ∧ (w.numBlocks ≠ 0 → extent.1 + extent.2 ≤ w.pos / 4096) ∧
    ∀ q, extent.1 ≤ q → q < extent.1 + extent.2 → w.file.tree.slot q ≠ f.tree.slot q
  account : ∃ l, w.file.freed = f.freed ++ l ∧
    freedBlocks l + w.file.listedBlocks = f.listedBlocks + (extents.map f.replaced).sum
  listed : w.file.listedBlocks = extents.getLast?.elim f.listedBlocks f.replaced
  untouched : extents = [] → w.file.tree = f.tree ∧ w.file.freed = f.freed ∧ w.given = [] ∧ w.beginTail = 0

theorem WriteInv.start (hf : f.Sound) (hcount : 0 < c.count) : WriteInv f [] (c.start f) where
  sound := hf
  aligned := fun _ => ⟨hcount, rfl⟩
  ahead := fun _ _ _ => rfl
  same := fun _ _ _ _ _ => rfl
  behind := nofun
  account := ⟨[], (List.append_nil _).symm, by simp [WriteCall.start]⟩
  listed := rfl
  untouched := fun _ => ⟨rfl, rfl, rfl, rfl⟩

/-- A turn in place. -/
theorem WriteInv.inplace {e : NovaFileWriteEntry} {a : Nat} (h : WriteInv f extents w)
    (hnum : w.numBlocks ≠ 0) (hfile : w'.file = w.file.store entry e)
    (hsame : SameExtents w.file.entries (w.file.store entry e).entries) (ha : 0 < a) (hle : a ≤ w.numBlocks)
    (hadv : Advanced w a w') (hgiven : w'.given = w.given) (hbegin : w'.beginTail = w.beginTail) :
    WriteInv f extents w' := by
  obtain ⟨haligned, hpage⟩ := hadv.aligned h.aligned hnum ha hle
  have hlisted : w'.file.listedBlocks = w.file.listedBlocks := by
    rw [hfile]
    exact hsame.pageBlocks
  refine
    { sound := by
        rw [hfile]
        exact hsame.sound h.sound rfl rfl
      aligned := haligned
      ahead := ?_
      same := ?_
      behind := ?_
      account := by
        rw [hlisted, hfile]
        exact h.account
      listed := hlisted.trans h.listed
      untouched := by
        rw [hfile, hgiven, hbegin]
        exact h.untouched }
  · intro hnum' q hq
    rw [hpage hnum'] at hq
    rw [hfile]
    exact h.ahead hnum q (by omega)
  · intro hnum' q x hq hx
    rw [hpage hnum'] at hq
    rw [hfile, hsame.getNvmm]
    exact h.same hnum q x (by omega) hx
  · intro extent hextent
    obtain ⟨hpos, hend, hne⟩ := h.behind extent hextent
    refine ⟨hpos, fun hnum' => ?_, ?_⟩
    · have := hend hnum
      rw [hpage hnum']
      omega
    · rw [hfile]
      exact hne

/-- A turn that puts an extent into the tree. -/
theorem WriteInv.append {currP : Nat} {e : NovaFileWriteEntry} {snapshots : List Nat} (h : WriteInv f extents w)
    (hnum : w.numBlocks ≠ 0) (hunused : w.file.Unused currP) (hpgoff : e.pgoff = w.pos / 4096)
    (hfile : w'.file = (novaAssignWriteEntry snapshots (w.file.store currP e) currP e true fun _ => true).1)
    (hpos : 0 < e.numPages) (hle : e.numPages ≤ w.numBlocks) (hadv : Advanced w e.numPages w') :
    WriteInv f (extents ++ [(w.pos / 4096, e.numPages)]) w' := by
  obtain ⟨haligned, hpage⟩ := hadv.aligned h.aligned hnum hpos hle
  have hsound := hunused.sound (e := e) h.sound
  have hspec : Assigned (w.file.store currP e) currP e w'.file := by
    rw [hfile]
    exact novaAssignWriteEntry_spec hsound.solid (novaAssignWriteEntry_done ..)
  have hself : (w.file.store currP e).entries currP = e := FileTree.store_entries_self
  have hspec' : Assigned (w.file.store currP e) currP ((w.file.store currP e).entries currP) w'.file := by
    rw [hself]
    exact hspec
  have hlisted : w'.file.listedBlocks = f.replaced (w.pos / 4096, e.numPages) := by
    unfold FileTree.listedBlocks FileTree.replaced
    rw [hspec.extents.pageBlocks, hspec.listedPages, hpgoff]
    show pageBlocks _ (mappedIn w.file.tree _ _) = _
    rw [mappedIn_congr (h.ahead hnum)]
    refine Multiset.map_congr rfl fun x hx => ?_
    obtain ⟨hslot, hlo, -⟩ := mem_mappedIn.mp hx
    have hne : x.1 ≠ currP := by
      intro hx
      rw [← h.ahead hnum x.2 hlo, hx] at hslot
      exact hunused.mapped x.2 hslot
    rw [FileTree.store_entries hne]
    exact h.same hnum x.2 x.1 hlo hslot
  have hslots : ∀ q, w'.file.tree.slot q =
      if w.pos / 4096 ≤ q ∧ q < w.pos / 4096 + e.numPages then some currP else w.file.tree.slot q := by
    rw [← hpgoff]
    exact hspec.slots
  refine
    { sound := hspec'.sound hsound hunused.mapped
      aligned := haligned
      ahead := ?_
      same := ?_
      behind := ?_
      account := ?_
      listed := by simp [hlisted]
      untouched := by simp }
  · intro hnum' q hq
    rw [hpage hnum'] at hq
    rw [hslots, if_neg (by omega)]
    exact h.ahead hnum q (by omega)
  · intro hnum' q x hq hx
    rw [hpage hnum'] at hq
    have hne : x ≠ currP := by
      rintro rfl
      rw [← h.ahead hnum q (by omega)] at hx
      exact hunused.mapped q hx
    rw [hspec.extents.getNvmm, FileTree.store_entries hne]
    exact h.same hnum q x (by omega) hx
  · intro extent hextent
    rcases List.mem_append.mp hextent with hextent | hextent
    · obtain ⟨hpos', hend, hne⟩ := h.behind extent hextent
      have hend := hend hnum
      refine ⟨hpos', fun hnum' => ?_, fun q hlo hhi => ?_⟩
      · rw [hpage hnum']
        omega
      · rw [hslots, if_neg (by omega)]
        exact hne q hlo hhi
    · rw [List.mem_singleton.mp hextent]
      refine ⟨hpos, fun hnum' => (hpage hnum').ge, fun q hlo hhi => ?_⟩
      dsimp only at hlo hhi
      rw [hslots, if_pos ⟨hlo, hhi⟩, ← h.ahead hnum q hlo]
      exact (hunused.mapped q).symm
  · obtain ⟨l, hfreed, haccount⟩ := h.account
    obtain ⟨⟨l', hfreed', hdrained⟩, -⟩ := hspec'.blocks hsound
    rw [hunused.listedBlocks] at hdrained
    refine ⟨l ++ l', ?_, ?_⟩
    · rw [hfreed', ← List.append_assoc, ← hfreed]
      rfl
    · rw [freedBlocks_append, hdrained, haccount, hlisted, List.map_append, List.sum_append, add_assoc]
      simp

/-- A turn that goes well writes in place, or there is one extent more. -/
theorem WriteInv.turn (h : WriteInv f extents w) (hnum : w.numBlocks ≠ 0) (hfit : t.Fits w)
    (hok : writeTurn mode c w t = (w', .ok ())) :
    (w.source mode c ≠ none ∧ WriteInv f extents w') ∨
      (w.source mode c = none ∧ WriteInv f (extents ++ [(w.pos / 4096, t.alloc.ret.toNat)]) w') := by
  cases writeTurn_ok hok with
  | inplace entry e hsource hfile hsame hadv hgiven hbegin =>
      obtain ⟨hpos, hle⟩ := entBlks_bounds hsource h.sound hnum
      exact Or.inl ⟨by simp [hsource], h.inplace hnum hfile hsame hpos hle hadv hgiven hbegin⟩
  | append currP hsource hret happend hfile hadv =>
      have halloc := hfit.alloc
      exact Or.inr ⟨hsource, h.append hnum (hfit.unused currP (Or.inr happend)).1 rfl hfile
        (show 0 < t.alloc.ret.toNat by omega) (show t.alloc.ret.toNat ≤ w.numBlocks by omega) hadv⟩

/-- What the turns that went well have done. -/
theorem WriteInv.turns (h : WriteInv f extents w) (hfit : TurnsFit mode c w ts)
    (hok : writeTurns mode c w ts = (w', .ok ())) : WriteInv f (extents ++ writeExtents mode c w ts) w' := by
  induction ts generalizing w extents with
  | nil =>
      simp only [writeTurns, Prod.mk.injEq, and_true] at hok
      simpa [writeExtents, ← hok] using h
  | cons t ts ih =>
      unfold writeTurns at hok
      unfold writeExtents
      by_cases hnum : w.numBlocks = 0
      · rw [if_pos hnum] at hok ⊢
        simp only [Prod.mk.injEq, and_true] at hok
        simpa [← hok] using h
      · rw [if_neg hnum] at hok ⊢
        obtain ⟨hturn, hrest⟩ := hfit
        split at hok
        · cases hok
        · rename_i w₁ hok₁
          rw [hok₁] at hrest ⊢
          rcases h.turn hnum hturn hok₁ with ⟨hsource, hstep⟩ | ⟨hsource, hstep⟩
          · obtain ⟨entry, hentry⟩ := Option.ne_none_iff_exists'.mp hsource
            rw [hentry]
            exact ih hstep hrest hok
          · rw [hsource]
            have := ih hstep hrest hok
            rwa [List.append_assoc] at this

/-- What was freed once there is an extent: the list as the call found it, and what every
extent but the last replaced. -/
theorem WriteInv.freed_eq {extent : Nat × Nat} {l : List FreedBlocks} (h : WriteInv f (extents ++ [extent]) w)
    (hl : w.file.freed = f.freed ++ l) : freedBlocks l = f.listedBlocks + (extents.map f.replaced).sum := by
  obtain ⟨l', hfreed, haccount⟩ := h.account
  obtain rfl : l = l' := List.append_cancel_left (hl.symm.trans hfreed)
  have hlisted := h.listed
  rw [List.getLast?_concat, Option.elim_some] at hlisted
  rw [hlisted, List.map_append, List.sum_append, ← add_assoc] at haccount
  exact add_right_cancel (haccount.trans (by simp))

end Turn

/-! ### Blocks that were mapped -/

section Mapped

variable {s₀ s : FileState} {mode : WriteMode} {c : WriteCall} {w : WriteLoop} {ts : List WriteTurn}

/-- The list and the tree share no block. -/
theorem FileAccount.listed_disjoint (h : FileAccount s) : ∀ b ∈ s.file.listedBlocks, b ∉ s.file.mappedBlocks := by
  have hnodup := h.nodup
  unfold FileState.owned FileTree.owned at hnodup
  rw [Multiset.nodup_add] at hnodup
  have hdisjoint := (Multiset.nodup_add.mp hnodup.1).2.2
  intro b hb hb'
  exact Multiset.disjoint_left.mp hdisjoint (Multiset.mem_add.mpr (Or.inr hb')) hb

theorem FileAccount.run (h0 : FileStart s₀)
    (hrun : Runs (Guarded (fun s op => op.Completes s) FileStep) s₀ s) : FileAccount s :=
  hrun.invariant (fun _ _ _ hinv hstep => hinv.step hstep.2 hstep.1) h0.account

/-- A turn that is given one block and stores its entry. -/
def oneBlock (blocknr currP : Nat) : WriteTurn := ⟨⟨1, blocknr⟩, none, 0, none, .appended currP, 0⟩

/-- Two pages written over the first two of three. -/
def twoPages : WriteCall := ⟨0, 8192, 1, 1, 2, 12288, []⟩

theorem threePages_run : Runs (Guarded (fun s op => op.Completes s) FileStep) newFile threePages :=
  Runs.single ⟨threePages_step.1.1, threePages_step.2⟩

theorem threePages_unused {currP : Nat} (h : currP ≠ 64) : threePages.file.Unused currP where
  mapped := by
    intro p hp
    rw [threePages_slot] at hp
    split at hp
    · exact h (Option.some.inj hp).symm
    · cases hp
  listed := nofun

end Mapped

end Parfs
