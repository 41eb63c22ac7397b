/-
What a reservation leaves of the bytes.

A turn at a page of this epoch's entry passes over it; at any other page, a hole or a page of an
older epoch, it maps zeroed blocks.  Ahead of the loop nothing changes, so what a turn finds there
is what the call found.  Behind it the pages hold what they held or zeros, and the call is right
where the zeros go to bytes that were zero, where what is kept past the size is zero, and where the
page count, which is taken with a wrong mask, comes out.
-/
import Parfs.Fallocate
import Parfs.Proofs.FileHoles
import Parfs.Proofs.FileRead
import Parfs.Proofs.FileCopy

namespace Parfs

open Lib

/-- No entry of this epoch maps the page. -/
def Outdated (f : FileTree) (epochId p : Nat) : Prop := ∀ x, f.tree.slot p = some x → (f.entries x).epochId ≠ epochId

/-- The allocator and the log keep their promises: at most what was asked for and never nothing, of
blocks that are free, and a place nothing of the file uses. -/
structure FallocTurn.FitsFresh (c : FallocCall) (w : FallocLoop) (t : FallocTurn) : Prop where
  unused : t.Fits w
  fresh : FreshBlocks w.file t.alloc.blocknr t.alloc.ret.toNat
  some : t.alloc.ret ≠ 0
  le : ∀ r, novaCheckExistingEntry w.file w.numBlocks w.startBlk true c.epochId = .ok r → t.alloc.ret ≤ r.entBlks

/-- So in every turn. -/
def ReservesFit (c : FallocCall) : FallocLoop → List FallocTurn → Prop
  | _, [] => True
  | w, t :: ts => t.FitsFresh c w ∧ ∀ w', fallocTurn c w t = .ok (w', .ok ()) → ReservesFit c w' ts

section

variable {c : FallocCall} {w w' : FallocLoop} {t : FallocTurn} {ts : List FallocTurn} {f : FileTree}
  {data data' : Nat → Nat → UInt8} {start p x : Nat}

/-! ### One turn -/

/-- What a turn finds at its page: an entry of this epoch, or something to replace. -/
inductive FallocFound (c : FallocCall) (w : FallocLoop) (r : ExistingEntry) : Prop where
  | current (x : Nat) (hslot : w.file.tree.slot w.startBlk = some x) (hepoch : (w.file.entries x).epochId = c.epochId)
      (hr : r = ⟨some x, true, entBlks (w.file.entries x) w.numBlocks w.startBlk⟩)
  | older (x : Nat) (hslot : w.file.tree.slot w.startBlk = some x) (hepoch : (w.file.entries x).epochId ≠ c.epochId)
      (hr : r = ⟨some x, false, entBlks (w.file.entries x) w.numBlocks w.startBlk⟩)
  | hole (hr : r.entry = none) (hle : r.entBlks ≤ w.numBlocks)
      (hgap : ∀ q, w.startBlk ≤ q → q < w.startBlk + r.entBlks → w.file.tree.slot q = none)

theorem FileTree.NoHole.found (h : w.file.NoHole) {r : ExistingEntry}
    (hr : novaCheckExistingEntry w.file w.numBlocks w.startBlk true c.epochId = .ok r) : FallocFound c w r := by
  unfold novaCheckExistingEntry at hr
  cases hslot : w.file.tree.slot w.startBlk with
  | some x =>
      rw [hslot] at hr
      have hr' := Except.ok.inj hr
      by_cases hepoch : (w.file.entries x).epochId = c.epochId
      · exact .current x hslot hepoch (by rw [← hr', decide_eq_true hepoch])
      · exact .older x hslot hepoch (by rw [← hr', decide_eq_false hepoch])
  | none =>
      rw [hslot] at hr
      dsimp only at hr
      cases hnext : novaFindNextEntry w.file w.startBlk with
      | none =>
          rw [hnext] at hr
          obtain rfl := Except.ok.inj hr
          exact .hole rfl le_rfl fun q hlo _ => Radix.next_none hnext hlo
      | some y =>
          rw [hnext] at hr
          obtain ⟨hlt, hgap⟩ := h.jump hslot hnext
          rw [if_pos rfl] at hr
          dsimp only at hr
          rw [if_neg (Nat.not_le.2 hlt)] at hr
          obtain rfl := Except.ok.inj hr
          refine .hole rfl (min_le_right _ _) fun q hlo hhi => hgap q hlo ?_
          dsimp only at hhi
          omega

/-- A turn that goes well passes over pages of this epoch, or maps new blocks. -/
inductive FallocTurned (c : FallocCall) (w : FallocLoop) (t : FallocTurn) (data : Nat → Nat → UInt8) :
    FallocLoop → (Nat → Nat → UInt8) → Prop where
  | passes (x : Nat) (file : FileTree) (hslot : w.file.tree.slot w.startBlk = some x)
      (hepoch : (w.file.entries x).epochId = c.epochId) (htree : file.tree = w.file.tree)
      (hext : SameExtents w.file.entries file.entries) (hflag : ∀ y, (file.entries y).reassigned = (w.file.entries y).reassigned) :
      FallocTurned c w t data (w.advance file (entBlks (w.file.entries x) w.numBlocks w.startBlk)) data
  | maps (currP n : Nat) (hpos : 0 < n) (hret : t.alloc.ret = n) (happend : t.append = .appended currP)
      (hle : n ≤ w.numBlocks)
      (hold : ∀ q, w.startBlk ≤ q → q < w.startBlk + n → ∀ y, w.file.tree.slot q = some y →
        ∃ x, w.file.tree.slot w.startBlk = some x ∧ (w.file.entries x).epochId ≠ c.epochId ∧
          n ≤ entBlks (w.file.entries x) w.numBlocks w.startBlk) :
      FallocTurned c w t data
        (w.advance (novaAssignWriteEntry c.snapshots (w.file.store currP (fallocEntry c w t)) currP (fallocEntry c w t) true
          fun _ => true).1 n) (zeroBlocks data t.alloc.blocknr n)

theorem fallocTurn_spec (data : Nat → Nat → UInt8) (h : w.file.NoHole) (hfit : t.FitsFresh c w) (hok : fallocTurn c w t = .ok (w', .ok ())) :
    FallocTurned c w t data w' (fallocTurnData c w t data) := by
  obtain ⟨r, hr⟩ := h.checkExisting w.numBlocks w.startBlk true c.epochId
  have hle := hfit.le r hr
  have hfound := h.found hr
  have hnew : ∀ (hne : (r.entry.isSome && r.inplace) = false) (hnum : r.entBlks ≤ w.numBlocks)
      (hold : ∀ n, n ≤ r.entBlks → ∀ q, w.startBlk ≤ q → q < w.startBlk + n → ∀ y, w.file.tree.slot q = some y →
        ∃ x, w.file.tree.slot w.startBlk = some x ∧ (w.file.entries x).epochId ≠ c.epochId ∧
          n ≤ entBlks (w.file.entries x) w.numBlocks w.startBlk), FallocTurned c w t data w' (fallocTurnData c w t data) := by
    intro hne hnum hold
    unfold fallocTurnData
    rw [hr]
    simp only [hne, Bool.false_eq_true, if_false]
    have hok' : fallocNew c w t = (w', .ok ()) := Except.ok.inj ((fallocTurn_new hr hne).symm.trans hok)
    unfold fallocNew at hok'
    by_cases hret : t.alloc.ret ≤ 0
    · rw [if_pos hret] at hok'
      cases (Prod.mk.inj hok').2
    · rw [if_neg hret] at hok' ⊢
      obtain ⟨n, hn⟩ : ∃ n : Nat, t.alloc.ret = n := ⟨t.alloc.ret.toNat, by omega⟩
      have hton : t.alloc.ret.toNat = n := by omega
      rw [hton] at hok' ⊢
      cases happend : t.append with
      | refused =>
          rw [happend] at hok'
          cases (Prod.mk.inj hok').2
      | unmirrored currP =>
          rw [happend] at hok'
          cases (Prod.mk.inj hok').2
      | appended currP =>
          rw [happend] at hok'
          rw [← (Prod.mk.inj hok').1]
          exact .maps currP n (by omega) hn happend (by omega) (hold n (by omega))
  cases hfound with
  | current x hslot hepoch hrx =>
      subst hrx
      unfold fallocTurn at hok
      unfold fallocTurnData
      rw [hr] at hok ⊢
      rw [Except.map] at hok
      dsimp only at hok ⊢
      rw [if_pos (by rfl : ((some x).isSome && true) = true)]
      obtain rfl := (Prod.mk.inj (Except.ok.inj hok)).1
      refine .passes x _ hslot hepoch ?_ ?_ ?_
      · split <;> rfl
      · intro y
        split
        · by_cases hy : y = x
          · subst hy
            simp
          · simp [hy]
        · exact ⟨rfl, rfl, rfl, rfl⟩
      · intro y
        split
        · by_cases hy : y = x
          · subst hy
            simp
          · simp [hy]
        · rfl
  | older x hslot hepoch hrx =>
      subst hrx
      exact hnew rfl (min_le_right _ _) fun n hn _ _ _ _ _ => ⟨x, hslot, hepoch, hn⟩
  | hole hrx hnum hgap =>
      refine hnew (by rw [hrx]; rfl) hnum fun n hn q hlo hhi y hy => ?_
      rw [hgap q hlo (by omega)] at hy
      cases hy

/-! ### The loop -/

/-- What a page becomes: it is kept, with its bytes, or it is mapped and zero. -/
structure PageKept (f : FileTree) (data : Nat → Nat → UInt8) (g : FileTree) (data' : Nat → Nat → UInt8) (p : Nat) : Prop where
  slot : g.tree.slot p = f.tree.slot p
  bytes : ∀ o < 4096, g.byte data' (4096 * p + o) = f.byte data (4096 * p + o)

structure PageZeroed (g : FileTree) (data' : Nat → Nat → UInt8) (p : Nat) : Prop where
  mapped : g.tree.slot p ≠ none
  zero : ∀ o < 4096, g.byte data' (4096 * p + o) = 0

/-- Between turns: behind the loop the outdated pages are zeroed, all others are kept, and the
entries ahead say what they said. -/
structure Reserving (c : FallocCall) (f : FileTree) (data : Nat → Nat → UInt8) (start : Nat) (w : FallocLoop)
    (data' : Nat → Nat → UInt8) : Prop where
  noHole : w.file.NoHole
  le : start ≤ w.startBlk
  kept : ∀ p, ¬(start ≤ p ∧ p < w.startBlk ∧ Outdated f c.epochId p) → PageKept f data w.file data' p
  zeroed : ∀ p, start ≤ p → p < w.startBlk → Outdated f c.epochId p → PageZeroed w.file data' p
  ahead : ∀ p x, w.startBlk ≤ p → f.tree.slot p = some x →
    (w.file.entries x).pgoff = (f.entries x).pgoff ∧ (w.file.entries x).numPages = (f.entries x).numPages ∧
      (w.file.entries x).epochId = (f.entries x).epochId ∧
      ((w.file.entries x).reassigned = 0 → (f.entries x).reassigned = 0)

theorem Reserving.init (h : f.NoHole) (start numBlocks : Nat) : Reserving c f data start ⟨f, start, numBlocks⟩ data where
  noHole := h
  le := le_rfl
  kept := fun _ _ => ⟨rfl, fun _ _ => rfl⟩
  zeroed := fun _ hlo hhi _ => by dsimp only at hhi; omega
  ahead := fun _ _ _ _ => ⟨rfl, rfl, rfl, id⟩

/-- The page the loop is at is as the call found it. -/
theorem Reserving.slot_ahead (h : Reserving c f data start w data') (hp : w.startBlk ≤ p) :
    w.file.tree.slot p = f.tree.slot p := (h.kept p fun hin => by omega).slot

/-- As many pages as an entry still has from the loop's page on are mapped to it. -/
theorem Reserving.same_entry (h : Reserving c f data start w data') (hf : f.Readable)
    (hslot : w.file.tree.slot w.startBlk = some x) (hlo : w.startBlk ≤ p)
    (hhi : p < w.startBlk + entBlks (w.file.entries x) w.numBlocks w.startBlk) : f.tree.slot p = some x := by
  have hfslot : f.tree.slot w.startBlk = some x := by rw [← h.slot_ahead le_rfl, hslot]
  obtain ⟨hpgoff, hnum, -, hflag⟩ := h.ahead w.startBlk x le_rfl hfslot
  obtain ⟨hge, hlt⟩ := hf.covers w.startBlk x hfslot
  unfold entBlks at hhi
  by_cases hre : (w.file.entries x).reassigned = 0
  · rw [if_pos hre, hpgoff, hnum] at hhi
    exact hf.whole w.startBlk x hfslot (hflag hre) p (by omega) (by omega)
  · rw [if_neg hre] at hhi
    obtain rfl : p = w.startBlk := by omega
    exact hfslot

/-- A flag that is not set was not set. -/
theorem freeOldEntry_reassigned (snapshots : List Nat) (f : FileTree) (epochId : Nat)
    (h : ((freeOldEntry snapshots f epochId).entries x).reassigned = 0) : (f.entries x).reassigned = 0 := by
  have hdrained := freeOldEntry_spec snapshots f epochId
  by_cases hlisted : ∀ o ∈ f.oldEntryList, o.entry ≠ x
  · rwa [hdrained.others x hlisted] at h
  · push Not at hlisted
    obtain ⟨o, ho, rfl⟩ := hlisted
    rw [hdrained.marked o ho] at h
    cases h

theorem FileTree.byte_congr {g : FileTree} (htree : g.tree.slot p = f.tree.slot p)
    (hnvmm : ∀ y, f.tree.slot p = some y → ∀ o < 4096, data' (getNvmm (g.entries y) p) o = data (getNvmm (f.entries y) p) o) :
    ∀ o < 4096, g.byte data' (4096 * p + o) = f.byte data (4096 * p + o) := by
  intro o ho
  rw [FileTree.byte_page _ _ _ ho, FileTree.byte_page _ _ _ ho, htree]
  cases hy : f.tree.slot p with
  | none => rfl
  | some y => exact hnvmm y hy o ho

/-- What is left of a file whose pages from one on get new, zeroed blocks. -/
structure Remapped (f : FileTree) (data : Nat → Nat → UInt8) (s n currP : Nat) (g : FileTree) (data' : Nat → Nat → UInt8) :
    Prop where
  kept : ∀ p, ¬(s ≤ p ∧ p < s + n) → PageKept f data g data' p
  zeroed : ∀ p, s ≤ p → p < s + n → PageZeroed g data' p
  entries : ∀ y, y ≠ currP → (g.entries y).pgoff = (f.entries y).pgoff ∧ (g.entries y).numPages = (f.entries y).numPages ∧
    (g.entries y).epochId = (f.entries y).epochId ∧ ((g.entries y).reassigned = 0 → (f.entries y).reassigned = 0)

/-- A new entry in the tree. -/
theorem novaAssignWriteEntry_remapped (snapshots : List Nat) (data : Nat → Nat → UInt8) {currP blocknr n : Nat} {e : NovaFileWriteEntry}
    (hunused : f.Unused currP) (hfresh : FreshBlocks f blocknr n) (hnum : e.numPages = n) (hblock : e.blocknr = blocknr) :
    Remapped f data e.pgoff n currP (novaAssignWriteEntry snapshots (f.store currP e) currP e true fun _ => true).1
      (zeroBlocks data blocknr n) := by
  have hstored : ∀ y, y ≠ currP → (f.store currP e).entries y = f.entries y := fun y hy => FileTree.store_entries hy
  have hslots := novaAssignWriteEntry_slot snapshots (f.store currP e) currP e true
  have hflag : ∀ y, (((novaAssignWriteEntry snapshots (f.store currP e) currP e true fun _ => true).1).entries y).reassigned = 0 →
      ((f.store currP e).entries y).reassigned = 0 := fun y => freeOldEntry_reassigned snapshots _ _
  have hext : SameExtents (f.store currP e).entries
      (novaAssignWriteEntry snapshots (f.store currP e) currP e true fun _ => true).1.entries :=
    (freeOldEntry_spec snapshots (f.store currP e) e.epochId).extents
  generalize (novaAssignWriteEntry snapshots (f.store currP e) currP e true fun _ => true).1 = g at hslots hext hflag ⊢
  rw [hnum] at hslots
  change ∀ q, g.tree.slot q = if e.pgoff ≤ q ∧ q < e.pgoff + n then some currP else f.tree.slot q at hslots
  refine ⟨fun p hp => ?_, fun p hlo hhi => ?_, fun y hne => ?_⟩
  · have hslot := hslots p
    rw [if_neg hp] at hslot
    refine ⟨hslot, FileTree.byte_congr hslot fun y hy o _ => ?_⟩
    have hne : y ≠ currP := fun hyc => hunused.mapped p (hyc ▸ hy)
    rw [hext.getNvmm, hstored y hne]
    unfold zeroBlocks
    rw [if_neg (by rcases hfresh p y hy with hlt | hge <;> omega)]
  · have hslot := hslots p
    rw [if_pos ⟨hlo, hhi⟩] at hslot
    refine ⟨by rw [hslot]; exact nofun, fun o ho => ?_⟩
    have hnvmm : getNvmm (g.entries currP) p = blocknr + (p - e.pgoff) := by
      rw [hext.getNvmm, FileTree.store_entries_self, ← hblock]
      rfl
    rw [FileTree.byte_page _ _ _ ho, hslot]
    dsimp only
    rw [hnvmm]
    unfold zeroBlocks
    rw [if_pos (by omega)]
  · obtain ⟨hpgoff, hpages, -, hep⟩ := hext y
    have hre := hflag y
    rw [hstored y hne] at hpgoff hpages hep hre
    exact ⟨hpgoff, hpages, hep, hre⟩

/-- **One turn.** -/
theorem Reserving.turn (h : Reserving c f data start w data') (hf : f.Readable) (hfit : t.FitsFresh c w)
    (hok : fallocTurn c w t = .ok (w', .ok ())) : Reserving c f data start w' (fallocTurnData c w t data') := by
  obtain ⟨w₁, ret, hrun, hkeep⟩ := h.noHole.fallocTurn (c := c) hfit.unused
  have hnohole : w'.file.NoHole := by
    rw [hok] at hrun
    obtain ⟨rfl, rfl⟩ := Prod.mk.inj (Except.ok.inj hrun)
    exact hkeep rfl
  have hturned := fallocTurn_spec data' h.noHole hfit hok
  generalize fallocTurnData c w t data' = data'' at hturned ⊢
  clear hrun hkeep hok
  cases hturned with
  | passes x file hslot hepoch htree hext hflag =>
      have hfslot : f.tree.slot w.startBlk = some x := by rw [← h.slot_ahead le_rfl, hslot]
      have hcurrent : (f.entries x).epochId = c.epochId := by rw [← (h.ahead w.startBlk x le_rfl hfslot).2.2.1, hepoch]
      have hbytes : ∀ p, ∀ o < 4096, file.byte data' (4096 * p + o) = w.file.byte data' (4096 * p + o) := fun p =>
        FileTree.byte_congr (by rw [htree]) fun y _ o _ => by rw [hext.getNvmm]
      refine ⟨hnohole, ?_, ?_, ?_, ?_⟩
      · exact le_trans h.le (Nat.le_add_right _ _)
      · intro p hp
        have hkept : PageKept f data w.file data' p := h.kept p fun hin => hp ⟨hin.1, lt_of_lt_of_le hin.2.1 (Nat.le_add_right _ _), hin.2.2⟩
        exact ⟨by rw [← hkept.slot]; exact congrArg (Radix.slot · p) htree, fun o ho => (hbytes p o ho).trans (hkept.bytes o ho)⟩
      · intro p hlo hhi hold
        by_cases hp : p < w.startBlk
        · have hzero := h.zeroed p hlo hp hold
          exact ⟨by rw [show (w.advance file _).file.tree = w.file.tree from htree]; exact hzero.mapped,
            fun o ho => (hbytes p o ho).trans (hzero.zero o ho)⟩
        · exact absurd hcurrent (hold x (h.same_entry hf hslot (by omega) hhi))
      · intro p y hlo hy
        obtain ⟨hpgoff, hnum, hep, hre⟩ := h.ahead p y (le_trans (Nat.le_add_right _ _) hlo) hy
        obtain ⟨hpgoff', hnum', -, hep'⟩ := hext y
        exact ⟨hpgoff'.trans hpgoff, hnum'.trans hnum, hep'.trans hep, fun hz => hre (by rw [← hflag y]; exact hz)⟩
  | maps currP n hpos hret happend hle hold =>
      have hunused := hfit.unused currP (Or.inr happend)
      have hton : t.alloc.ret.toNat = n := by omega
      have hremap := novaAssignWriteEntry_remapped c.snapshots data' (e := fallocEntry c w t) hunused
        (hton ▸ hfit.fresh) hton rfl
      generalize (novaAssignWriteEntry c.snapshots (w.file.store currP (fallocEntry c w t)) currP (fallocEntry c w t) true
        fun _ => true).1 = file at hremap hnohole ⊢
      change Remapped w.file data' w.startBlk n currP file (zeroBlocks data' t.alloc.blocknr n) at hremap
      have hfold : ∀ p, w.startBlk ≤ p → p < w.startBlk + n → Outdated f c.epochId p := by
        intro p hlo hhi y hy
        rw [← h.slot_ahead hlo] at hy
        obtain ⟨x, hx, hxold, hxle⟩ := hold p hlo hhi y hy
        have hfx : f.tree.slot p = some x := h.same_entry hf hx hlo (by omega)
        have hyx : y = x := Option.some.inj ((hy.symm.trans (h.slot_ahead hlo)).trans hfx)
        rw [← (h.ahead p y hlo (by rw [hfx, hyx])).2.2.1, hyx]
        exact hxold
      refine ⟨hnohole, ?_, ?_, ?_, ?_⟩
      · exact le_trans h.le (Nat.le_add_right _ _)
      · intro p hp
        have hpout : ¬(w.startBlk ≤ p ∧ p < w.startBlk + n) := fun hpin =>
          hp ⟨le_trans h.le hpin.1, hpin.2, hfold p hpin.1 hpin.2⟩
        have hkept := h.kept p fun hpin => hp ⟨hpin.1, lt_of_lt_of_le hpin.2.1 (Nat.le_add_right _ _), hpin.2.2⟩
        have hkept' := hremap.kept p hpout
        exact ⟨hkept'.slot.trans hkept.slot, fun o ho => (hkept'.bytes o ho).trans (hkept.bytes o ho)⟩
      · intro p hlo hhi hpold
        by_cases hp : p < w.startBlk
        · have hzero := h.zeroed p hlo hp hpold
          have hkept := hremap.kept p fun hpin => by omega
          exact ⟨by rw [show (w.advance file n).file.tree.slot p = w.file.tree.slot p from hkept.slot]; exact hzero.mapped,
            fun o ho => (hkept.bytes o ho).trans (hzero.zero o ho)⟩
        · exact hremap.zeroed p (by omega) hhi
      · intro p y hlo hy
        have hlo' : w.startBlk ≤ p := le_trans (Nat.le_add_right _ _) hlo
        have hne : y ≠ currP := fun hyc => hunused.mapped p (by rw [h.slot_ahead hlo', hy, hyc])
        obtain ⟨hpgoff, hpages, hep, hre⟩ := h.ahead p y hlo' hy
        obtain ⟨hpgoff', hpages', hep', hre'⟩ := hremap.entries y hne
        exact ⟨hpgoff'.trans hpgoff, hpages'.trans hpages, hep'.trans hep, fun hz => hre (hre' hz)⟩

/-- The loop goes on where the turn ends. -/
theorem FallocTurned.advanced (h : FallocTurned c w t data w' data') :
    w'.startBlk + w'.numBlocks = w.startBlk + w.numBlocks := by
  cases h with
  | passes x file hslot hepoch htree hext hflag =>
      have hle : entBlks (w.file.entries x) w.numBlocks w.startBlk ≤ w.numBlocks := min_le_right _ _
      unfold FallocLoop.advance
      dsimp only
      omega
  | maps currP n hpos hret happend hle hold =>
      unfold FallocLoop.advance
      dsimp only
      omega

/-- A turn that fails says so. -/
theorem fallocTurn_error {ret : Int} (h : w.file.NoHole) (hfit : t.FitsFresh c w)
    (hok : fallocTurn c w t = .ok (w', .error ret)) : ret ≠ 0 := by
  obtain ⟨r, hr⟩ := h.checkExisting w.numBlocks w.startBlk true c.epochId
  have henospc : -Errno.enospc.code ≠ 0 := by decide
  cases hkept : r.entry.isSome && r.inplace with
  | false =>
      have heq : fallocNew c w t = (w', .error ret) := Except.ok.inj ((fallocTurn_new hr hkept).symm.trans hok)
      unfold fallocNew at heq
      by_cases hret : t.alloc.ret ≤ 0
      · rw [if_pos hret] at heq
        exact Except.error.inj (Prod.mk.inj heq).2 ▸ hfit.some
      · rw [if_neg hret] at heq
        cases happend : t.append with
        | refused =>
            rw [happend] at heq
            exact Except.error.inj (Prod.mk.inj heq).2 ▸ henospc
        | unmirrored currP =>
            rw [happend] at heq
            exact Except.error.inj (Prod.mk.inj heq).2 ▸ henospc
        | appended currP =>
            rw [happend] at heq
            cases (Prod.mk.inj heq).2
  | true =>
      obtain ⟨hsome, hinplace⟩ := Bool.and_eq_true_iff.mp hkept
      obtain ⟨entry, hentry⟩ := Option.isSome_iff_exists.mp hsome
      unfold fallocTurn at hok
      rw [hr, Except.map] at hok
      dsimp only at hok
      rw [hentry, hinplace] at hok
      cases (Prod.mk.inj (Except.ok.inj hok)).2

/-- **The loop**, to its end. -/
theorem Reserving.run {data'' : Nat → Nat → UInt8} {ret : Except Int Unit} (h : Reserving c f data start w data')
    (hf : f.Readable) (hfit : ReservesFit c w ts) (hok : reserveTurns c w data' ts = .ok ((w', ret), data'')) :
    (ret = .ok () ∧ Reserving c f data start w' data'' ∧ w'.startBlk = w.startBlk + w.numBlocks) ∨
      ∃ code, ret = .error code ∧ code ≠ 0 := by
  induction ts generalizing w data' with
  | nil =>
      unfold reserveTurns at hok
      by_cases hnum : w.numBlocks = 0
      · rw [if_pos hnum] at hok
        obtain ⟨hw, rfl⟩ := Prod.mk.inj (Except.ok.inj hok)
        obtain ⟨rfl, rfl⟩ := Prod.mk.inj hw
        exact Or.inl ⟨rfl, h, by omega⟩
      · rw [if_neg hnum] at hok
        cases hok
  | cons t ts ih =>
      unfold reserveTurns at hok
      by_cases hnum : w.numBlocks = 0
      · rw [if_pos hnum] at hok
        obtain ⟨hw, rfl⟩ := Prod.mk.inj (Except.ok.inj hok)
        obtain ⟨rfl, rfl⟩ := Prod.mk.inj hw
        exact Or.inl ⟨rfl, h, by omega⟩
      · rw [if_neg hnum] at hok
        obtain ⟨hturn, hrest⟩ := hfit
        obtain ⟨w₁, ret₁, hrun, -⟩ := h.noHole.fallocTurn (c := c) hturn.unused
        rw [hrun] at hok
        cases ret₁ with
        | error code =>
            obtain ⟨hw, -⟩ := Prod.mk.inj (Except.ok.inj hok)
            exact Or.inr ⟨code, (Prod.mk.inj hw).2.symm, fallocTurn_error h.noHole hturn hrun⟩
        | ok _ =>
            have hadv := (fallocTurn_spec data' h.noHole hturn hrun).advanced
            rw [← hadv]
            exact ih (h.turn hf hturn hrun) (hrest w₁ hrun) hok

end

/-! ### The call -/

/-- The call gives the page zeroed blocks. -/
def FallocateCall.Replaces (a : FallocateCall) (f : FileTree) (p : Nat) : Prop :=
  a.startBlk ≤ p ∧ p < a.startBlk + a.numBlocks ∧ Outdated f a.epochId p

/-- The last page of the range. -/
def FallocateCall.lastPage (a : FallocateCall) : Nat := (a.offset + a.len - 1) / 4096

/-- **A reservation that goes well**: the range is mapped, bytes below the old size read as before
and those between it and the new size as zero, and the size is what the mode asks for. -/
structure FallocateExact (a : FallocateCall) (f : FileTree) (data : Nat → Nat → UInt8) (r : FallocateResult) : Prop where
  mapped : ∀ p, a.offset / 4096 ≤ p → p ≤ a.lastPage → r.file.tree.slot p ≠ none
  kept : ∀ x < a.iSize, r.file.byte r.data x = f.byte data x
  exposed : ∀ x, a.iSize ≤ x → x < r.iSize → r.file.byte r.data x = 0
  size : r.iSize = if a.keepSize then a.iSize else max a.iSize (a.offset + a.len)

/-- What it takes. -/
structure FallocateCall.Harmless (a : FallocateCall) (f : FileTree) (data : Nat → Nat → UInt8) : Prop where
  last : a.lastPage < a.startBlk + a.numBlocks ∨ f.tree.slot a.lastPage ≠ none
  old : ∀ x < a.iSize, a.Replaces f (x / 4096) → f.byte data x = 0
  past : ∀ x, a.iSize ≤ x → x < a.newSize → ¬a.Replaces f (x / 4096) → f.byte data x = 0

/-- The count is at most one page short, and never one too many. -/
theorem FallocateCall.lastPage_le (a : FallocateCall) (hlen : 0 < a.len) :
    a.startBlk + a.numBlocks ≤ a.lastPage + 1 ∧ a.lastPage ≤ a.startBlk + a.numBlocks := by
  have hmask : a.offset &&& blocksizeMask ≤ a.offset % 4096 := by
    unfold blocksizeMask
    have hmod : a.offset % 4096 = a.offset &&& 4095 := (Nat.and_two_pow_sub_one_eq_mod a.offset 12).symm
    have hand : a.offset &&& 11 = (a.offset % 4096) &&& 11 := by
      rw [hmod, Nat.and_assoc]
      rfl
    rw [show 12 - 1 = 11 from rfl, hand]
    exact Nat.and_le_left
  have hlt := Nat.mod_lt a.offset (by decide : 4096 > 0)
  unfold lastPage startBlk numBlocks
  omega

section

variable {a : FallocateCall} {f : FileTree} {data : Nat → Nat → UInt8} {turns : List FallocTurn} {r : FallocateResult}

/-- What a call that returns zero has done. -/
theorem novaFallocate_done (hnohole : f.NoHole) (hf : f.Readable)
    (hfit : ReservesFit a.loop ⟨f, a.startBlk, a.numBlocks⟩ turns) (hrun : novaFallocate a f data turns = .ok r)
    (hret : r.ret = 0) :
    ∃ w, w.startBlk = a.startBlk + a.numBlocks ∧ r.file = w.file ∧ Reserving a.loop f data a.startBlk w r.data ∧
      r.iSize = if a.keepSize then a.iSize else max a.iSize (a.offset + a.len) := by
  have hsize : (if !a.keepSize && decide (a.newSize > a.iSize) then a.newSize else a.iSize) =
      if a.keepSize then a.iSize else max a.iSize (a.offset + a.len) := by
    unfold FallocateCall.newSize FallocateCall.grows
    cases a.keepSize with
    | true => rfl
    | false =>
        by_cases hgrow : a.offset + a.len > a.iSize
        · simp [hgrow, max_eq_right hgrow.le]
        · simp [hgrow, max_eq_left (not_lt.1 hgrow)]
  have hlocked : fallocateLocked a f data turns = .ok r := by
    unfold novaFallocate at hrun
    by_cases hmode : a.mode / 2 ≠ 0
    · rw [if_pos hmode] at hrun
      obtain rfl := Except.ok.inj hrun
      exact absurd hret (by show ¬-eopnotsupp = 0; decide)
    · rw [if_neg hmode] at hrun
      by_cases hdir : a.isDir = true
      · rw [if_pos hdir] at hrun
        obtain rfl := Except.ok.inj hrun
        exact absurd hret (by show ¬-enodev = 0; decide)
      · rw [if_neg hdir] at hrun
        split at hrun
        · rename_i e _ _
          obtain rfl := Except.ok.inj hrun
          have := e.code_pos
          dsimp only at hret
          omega
        · exact hrun
  unfold fallocateLocked at hlocked
  by_cases hinode : (!a.inode) = true
  · rw [if_pos hinode] at hlocked
    obtain rfl := Except.ok.inj hlocked
    exact absurd hret (by show ¬-Errno.eacces.code = 0; decide)
  · rw [if_neg hinode] at hlocked
    rcases hturns : reserveTurns a.loop ⟨f, a.startBlk, a.numBlocks⟩ data turns with fault | ⟨⟨w, ret⟩, data'⟩
    · rw [hturns] at hlocked
      cases hlocked
    · rw [hturns] at hlocked
      rcases (Reserving.init (c := a.loop) hnohole a.startBlk a.numBlocks).run hf hfit hturns with
        ⟨rfl, hres, hstart⟩ | ⟨code, rfl, hcode⟩
      · obtain rfl := Except.ok.inj hlocked
        exact ⟨w, hstart, rfl, hres, hsize⟩
      · obtain rfl := Except.ok.inj hlocked
        exact absurd hret hcode

/-- A byte by its page. -/
theorem FileTree.byte_div (f : FileTree) (data : Nat → Nat → UInt8) (x : Nat) :
    f.byte data (4096 * (x / 4096) + x % 4096) = f.byte data x := by rw [Nat.div_add_mod]

/-- **Exactly the harmless reservations go well.** -/
theorem novaFallocate_exact_iff (hnohole : f.NoHole) (hf : f.Readable) (hlen : 0 < a.len)
    (hfit : ReservesFit a.loop ⟨f, a.startBlk, a.numBlocks⟩ turns) (hrun : novaFallocate a f data turns = .ok r)
    (hret : r.ret = 0) : FallocateExact a f data r ↔ a.Harmless f data := by
  obtain ⟨w, hend, hfile, hres, hsize⟩ := novaFallocate_done hnohole hf hfit hrun hret
  obtain ⟨hshort, hone⟩ := a.lastPage_le hlen
  have hkept : ∀ p, ¬a.Replaces f p → PageKept f data r.file r.data p := fun p hp =>
    hfile ▸ hres.kept p fun hin => hp ⟨hin.1, hend ▸ hin.2.1, hin.2.2⟩
  have hzeroed : ∀ p, a.Replaces f p → PageZeroed r.file r.data p := fun p hp =>
    hfile ▸ hres.zeroed p hp.1 (hend ▸ hp.2.1) hp.2.2
  have hsame : ∀ x, ¬a.Replaces f (x / 4096) → r.file.byte r.data x = f.byte data x := by
    intro x hx
    rw [← r.file.byte_div, ← f.byte_div]
    exact (hkept _ hx).bytes _ (Nat.mod_lt _ (by decide))
  have hzero : ∀ x, a.Replaces f (x / 4096) → r.file.byte r.data x = 0 := by
    intro x hx
    rw [← r.file.byte_div]
    exact (hzeroed _ hx).zero _ (Nat.mod_lt _ (by decide))
  have hnew : r.iSize ≤ a.newSize ∧ a.newSize ≤ max a.iSize r.iSize := by
    rw [hsize]
    unfold FallocateCall.newSize FallocateCall.grows
    cases a.keepSize with
    | true => simp
    | false =>
        by_cases hgrow : a.offset + a.len > a.iSize
        · simp [hgrow]
          omega
        · simp [hgrow]
          omega
  have hlast : ¬a.lastPage < a.startBlk + a.numBlocks → PageKept f data r.file r.data a.lastPage := fun hge =>
    hkept _ fun hin => hge hin.2.1
  constructor
  · intro h
    refine ⟨?_, ?_, ?_⟩
    · by_cases hlt : a.lastPage < a.startBlk + a.numBlocks
      · exact Or.inl hlt
      · right
        rw [← (hlast hlt).slot]
        exact h.mapped a.lastPage (Nat.div_le_div_right (by omega)) le_rfl
    · intro x hx hrep
      rw [← h.kept x hx, hzero x hrep]
    · intro x hge hlt hrep
      rw [← hsame x hrep]
      exact h.exposed x hge (by omega)
  · intro h
    refine ⟨?_, ?_, ?_, hsize⟩
    · intro p hlo hhi
      by_cases hp : a.Replaces f p
      · exact (hzeroed p hp).mapped
      · rw [(hkept p hp).slot]
        by_cases hlt : p < a.startBlk + a.numBlocks
        · -- an entry of this epoch is there
          intro hnone
          refine hp ⟨hlo, hlt, fun x hx => ?_⟩
          rw [hnone] at hx
          cases hx
        · obtain rfl : p = a.lastPage := by omega
          exact h.last.resolve_left hlt
    · intro x hx
      by_cases hrep : a.Replaces f (x / 4096)
      · rw [hzero x hrep, h.old x hx hrep]
      · exact hsame x hrep
    · intro x hge hlt
      by_cases hrep : a.Replaces f (x / 4096)
      · exact hzero x hrep
      · rw [hsame x hrep]
        exact h.past x hge (by omega) hrep

end

/-- A call on a file of the given size, in epoch 1. -/
def reserveBytes (offset len iSize : Nat) : FallocateCall := ⟨0, offset, len, false, iSize, none, true, 1, 1, 2, []⟩

theorem FileTree.readable_empty (entries : Nat → NovaFileWriteEntry) : (FileTree.empty entries).Readable := ⟨nofun, nofun⟩

theorem novaFindNextEntry_empty (entries : Nat → NovaFileWriteEntry) (p : Nat) :
    novaFindNextEntry (FileTree.empty entries) p = none := by
  simp [novaFindNextEntry, Radix.next, FileTree.empty, Radix.empty, Radix.firstOf]

/-- The allocator gives all it is asked for. -/
theorem reserveBytes_fit {a : FallocateCall} {entries : Nat → NovaFileWriteEntry} {ret : Int} {blocknr : Nat} (hpos : 0 < ret)
    (hle : ret ≤ a.numBlocks) :
    ReservesFit a.loop ⟨FileTree.empty entries, a.startBlk, a.numBlocks⟩ [⟨⟨ret, blocknr⟩, .appended 64, 0⟩] := by
  refine ⟨⟨fun _ _ => ⟨fun _ => nofun, nofun⟩, nofun, ne_of_gt hpos, ?_⟩, fun _ _ => trivial⟩
  intro r hr
  have hempty : novaCheckExistingEntry (FileTree.empty entries) a.numBlocks a.startBlk true a.loop.epochId =
      .ok ⟨none, false, a.numBlocks⟩ := by
    unfold novaCheckExistingEntry
    rw [novaFindNextEntry_empty]
    rfl
  obtain rfl := Except.ok.inj (hempty.symm.trans hr)
  exact hle

/-- From the hundredth byte of the first page to the middle of the second. -/
theorem novaFallocate_exact_twoPages :
    ∃ r, novaFallocate (reserveBytes 100 5000 0) newFile.file (fun _ _ => 1) [⟨⟨2, 20⟩, .appended 64, 0⟩] = .ok r ∧
      r.ret = 0 ∧ FallocateExact (reserveBytes 100 5000 0) newFile.file (fun _ _ => 1) r := by
  have hfit : ReservesFit (reserveBytes 100 5000 0).loop ⟨newFile.file, (reserveBytes 100 5000 0).startBlk,
      (reserveBytes 100 5000 0).numBlocks⟩ [⟨⟨2, 20⟩, .appended 64, 0⟩] := reserveBytes_fit (by decide) (by decide)
  refine ⟨_, rfl, rfl, (novaFallocate_exact_iff (FileTree.NoHole.empty _) (FileTree.readable_empty _) (by decide)
    hfit rfl rfl).2 ⟨Or.inl (by decide), fun x hx => ?_, fun _ _ _ _ => rfl⟩⟩
  exact absurd hx (Nat.not_lt_zero x)

/-- Two bytes around the end of the first page. -/
theorem novaFallocate_misses_page :
    ¬∀ (a : FallocateCall) (f : FileTree) (data : Nat → Nat → UInt8) (turns : List FallocTurn) (r : FallocateResult),
      f.NoHole → f.Readable → 0 < a.len → ReservesFit a.loop ⟨f, a.startBlk, a.numBlocks⟩ turns →
      novaFallocate a f data turns = .ok r → r.ret = 0 → FallocateExact a f data r := by
  intro h
  have hexact := h (reserveBytes 4095 2 0) newFile.file (fun _ _ => 1) [⟨⟨1, 20⟩, .appended 64, 0⟩] _
    (FileTree.NoHole.empty _) (FileTree.readable_empty _) (by decide) (reserveBytes_fit (by decide) (by decide)) rfl rfl
  exact hexact.mapped 1 (by decide) (by decide) rfl

end Parfs
