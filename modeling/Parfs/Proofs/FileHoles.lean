/-
Extents without holes.

Whatever cuts the pages of an extent cuts them from the end of the file, and whatever takes a
page from an entry puts another entry there.  So the pages of an entry from its first one up
to any that is still its own are all mapped.  That is what the code goes by when it jumps from a
page that is not mapped to the first page of the next entry.
-/
import Parfs.FileHoles
import Parfs.Proofs.FileWrite
import Parfs.Proofs.Rebuild

namespace Parfs

open Lib

/-- From the first page of an entry to any page it is mapped at there is no hole. -/
def FileTree.NoHole (f : FileTree) : Prop :=
  ∀ q x, f.tree.slot q = some x →
    (f.entries x).pgoff ≤ q ∧ ∀ p, (f.entries x).pgoff ≤ p → p ≤ q → f.tree.slot p ≠ none

/-! ### What keeps it -/

section Keep

variable {f f' : FileTree} {snapshots : List Nat} {entry start epochId : Nat} {e : NovaFileWriteEntry}
  {free deleteNvmm deleteDead : Bool}

theorem FileTree.NoHole.empty (entries : Nat → NovaFileWriteEntry) : (FileTree.empty entries).NoHole := nofun

theorem FileTree.NoHole.pgoff_le (h : f.NoHole) {q x : Nat} (hq : f.tree.slot q = some x) : (f.entries x).pgoff ≤ q :=
  (h q x hq).1

theorem FileTree.NoHole.solid (h : f.NoHole) : Solid f.tree.slot := by
  intro x p q r hpq hqr hp hr
  have hle := h.pgoff_le hp
  exact (h r x hr).2 q (by omega) (by omega)

theorem FileTree.NoHole.same (h : f.NoHole) (hext : SameExtents f.entries f'.entries) (htree : f'.tree = f.tree) :
    f'.NoHole := by
  intro q x hq
  rw [htree] at hq ⊢
  rw [(hext x).1]
  exact h q x hq

/-- An entry is stored where no page is mapped to. -/
theorem FileTree.NoHole.store (h : f.NoHole) (hnew : ∀ p, f.tree.slot p ≠ some entry) : (f.store entry e).NoHole := by
  intro q x hq
  have hne : x ≠ entry := fun hx => hnew q (hx ▸ hq)
  rw [FileTree.store_entries hne]
  exact h q x hq

/-- The pages of an entry are mapped to it: it has no hole, and fills those of others. -/
theorem FileTree.NoHole.assign (h : f.NoHole) (hpgoff : (f.entries entry).pgoff = e.pgoff) :
    (novaAssignWriteEntry snapshots f entry e free fun _ => true).1.NoHole := by
  have hext : SameExtents f.entries (novaAssignWriteEntry snapshots f entry e free fun _ => true).1.entries :=
    (freeOldEntry_spec snapshots f e.epochId).extents
  intro q x hq
  rw [(hext x).1]
  rw [novaAssignWriteEntry_slot] at hq
  by_cases hin : e.pgoff ≤ q ∧ q < e.pgoff + e.numPages
  · rw [if_pos hin] at hq
    obtain rfl := Option.some.inj hq
    rw [hpgoff]
    refine ⟨hin.1, fun p hlo hhi => ?_⟩
    rw [novaAssignWriteEntry_slot, if_pos ⟨hlo, by omega⟩]
    simp
  · rw [if_neg hin] at hq
    obtain ⟨hle, hmapped⟩ := h q x hq
    refine ⟨hle, fun p hlo hhi => ?_⟩
    rw [novaAssignWriteEntry_slot]
    split
    · simp
    · exact hmapped p hlo hhi

theorem FileTree.NoHole.deleted (h : f.NoHole) :
    ∃ cut, Deleted snapshots f start deleteNvmm deleteDead epochId cut
      (novaDeleteFileTree snapshots f start deleteNvmm deleteDead epochId) :=
  novaDeleteFileTree_spec h.solid fun _ _ => h.pgoff_le

/-- The file is cut from a page on: what is left of an extent is its beginning. -/
theorem FileTree.NoHole.delete (h : f.NoHole) :
    (novaDeleteFileTree snapshots f start deleteNvmm deleteDead epochId).NoHole := by
  obtain ⟨cut, hspec⟩ := h.deleted
  intro q x hq
  rw [(hspec.extents x).1]
  rw [hspec.slots] at hq
  by_cases hcut : start ≤ q
  · rw [if_pos hcut] at hq
    cases hq
  · rw [if_neg hcut] at hq
    obtain ⟨hle, hmapped⟩ := h q x hq
    refine ⟨hle, fun p hlo hhi => ?_⟩
    rw [hspec.slots, if_neg (by omega)]
    exact hmapped p hlo hhi

end Keep

/-! ### Writes -/

section Write

variable {mode : WriteMode} {c : WriteCall} {w w' : WriteLoop} {t : WriteTurn} {ts : List WriteTurn}

theorem FileTree.NoHole.writeTurn (h : w.file.NoHole) (hfit : t.Fits w)
    (hok : Parfs.writeTurn mode c w t = (w', .ok ())) : w'.file.NoHole := by
  cases writeTurn_ok hok with
  | inplace entry e hsource hfile hsame hadv hgiven hbegin =>
      rw [hfile]
      exact h.same hsame rfl
  | append currP hsource hret happend hfile hadv =>
      rw [hfile]
      refine (h.store (hfit.unused currP (Or.inr happend)).1.mapped).assign ?_
      rw [FileTree.store_entries_self]

theorem FileTree.NoHole.writeTurns (h : w.file.NoHole) (hfit : TurnsFit mode c w ts)
    (hok : Parfs.writeTurns mode c w ts = (w', .ok ())) : w'.file.NoHole := by
  induction ts generalizing w with
  | nil =>
      simp only [Parfs.writeTurns, Prod.mk.injEq, and_true] at hok
      rwa [← hok]
  | cons t ts ih =>
      unfold Parfs.writeTurns at hok
      by_cases hnum : w.numBlocks = 0
      · rw [if_pos hnum] at hok
        simp only [Prod.mk.injEq, and_true] at hok
        rwa [← hok]
      · rw [if_neg hnum] at hok
        obtain ⟨hturn, hrest⟩ := hfit
        split at hok
        · cases hok
        · rename_i w₁ hok₁
          rw [hok₁] at hrest
          exact ih (h.writeTurn hturn hok₁) hrest hok

end Write

/-! ### Jumps -/

section Jump

variable {f : FileTree} {pgoff entry : Nat}

/-- From a hole to the first page of the next entry there is only the hole. -/
theorem FileTree.NoHole.jump (h : f.NoHole) (hslot : f.tree.slot pgoff = none)
    (hnext : novaFindNextEntry f pgoff = some entry) :
    pgoff < (f.entries entry).pgoff ∧ ∀ q, pgoff ≤ q → q < (f.entries entry).pgoff → f.tree.slot q = none := by
  obtain ⟨r, hr, hentry, hbefore⟩ := Radix.next_some hnext
  obtain ⟨hle, hmapped⟩ := h r entry hentry
  refine ⟨?_, fun q hlo hhi => hbefore q hlo (by omega)⟩
  by_contra hge
  exact hmapped pgoff (by omega) hr hslot

theorem FileTree.NoHole.checkExisting (h : f.NoHole) (numBlocks startBlk : Nat) (checkNext : Bool) (epochId : Nat) :
    ∃ r, novaCheckExistingEntry f numBlocks startBlk checkNext epochId = .ok r := by
  unfold novaCheckExistingEntry
  cases hslot : f.tree.slot startBlk with
  | some entry => exact ⟨_, rfl⟩
  | none =>
      cases checkNext with
      | false => exact ⟨_, rfl⟩
      | true =>
          cases hnext : novaFindNextEntry f startBlk with
          | none => exact ⟨_, rfl⟩
          | some entry =>
              have hlt := (h.jump hslot hnext).1
              simp only [if_true]
              rw [if_neg (by omega)]
              exact ⟨_, rfl⟩

end Jump

/-! ### Searching -/

/-- What a search finds in the pages from `lo` to `hi`: whether any is mapped, and how many there
are before the first one of the kind it looks for. -/
structure Searched (f : FileTree) (lo hi : Nat) (hole : Bool) (r : HoleLookup) : Prop where
  data : r.dataFound = true ↔ ∃ q, lo ≤ q ∧ q < hi ∧ f.tree.slot q ≠ none
  within : lo + r.blocks ≤ hi
  before : ∀ q, lo ≤ q → q < lo + r.blocks → (f.tree.slot q ≠ none ↔ hole = true)
  found : lo + r.blocks < hi → (f.tree.slot (lo + r.blocks) ≠ none ↔ hole = false)

section Search

variable {f : FileTree} {lo hi last fuel : Nat} {hole : Bool} {r : HoleLookup}

/-- A mapped page, where a hole is looked for. -/
theorem Searched.page (h : Searched f lo hi true r) (hslot : f.tree.slot hi ≠ none)
    (hfound : r.holeFound = true ↔ lo + r.blocks < hi) :
    Searched f lo (hi + 1) true
        { r with dataFound := true, blocks := if !r.holeFound then r.blocks + 1 else r.blocks } ∧
      (r.holeFound = true ↔ lo + (if !r.holeFound then r.blocks + 1 else r.blocks) < hi + 1) := by
  have hwithin := h.within
  cases hf : r.holeFound with
  | true =>
      have hlt := hfound.mp hf
      refine ⟨⟨iff_of_true rfl ⟨hi, by omega, by omega, hslot⟩, ?_, h.before, fun _ => h.found hlt⟩, ?_⟩
      · show lo + r.blocks ≤ hi + 1
        omega
      · exact iff_of_true rfl (by simp only [Bool.not_true, Bool.false_eq_true, if_false]; omega)
  | false =>
      have heq : lo + r.blocks = hi := by
        have : ¬ lo + r.blocks < hi := fun hlt => by
          rw [hfound.mpr hlt] at hf
          cases hf
        omega
      refine ⟨⟨iff_of_true rfl ⟨hi, by omega, by omega, hslot⟩, ?_, fun q hlo hhi => ?_, fun hlt => ?_⟩, ?_⟩
      · show lo + (r.blocks + 1) ≤ hi + 1
        omega
      · change q < lo + (r.blocks + 1) at hhi
        rcases Nat.lt_or_eq_of_le (show q ≤ hi by omega) with hq | rfl
        · exact h.before q hlo (by omega)
        · exact iff_of_true hslot rfl
      · change lo + (r.blocks + 1) < hi + 1 at hlt
        omega
      · exact iff_of_false (by simp) (by simp only [Bool.not_false, if_true]; omega)

/-- Pages that are not mapped. -/
theorem Searched.gap {hi' : Nat} (h : Searched f lo hi hole r) (hlt : hi < hi')
    (hslots : ∀ q, hi ≤ q → q < hi' → f.tree.slot q = none) (hdata : hole = false → lo + r.blocks = hi) :
    Searched f lo hi' hole
      { r with holeFound := true, blocks := if hole then r.blocks else r.blocks + (hi' - hi) } := by
  have hwithin := h.within
  have hsame : (∃ q, lo ≤ q ∧ q < hi' ∧ f.tree.slot q ≠ none) ↔ ∃ q, lo ≤ q ∧ q < hi ∧ f.tree.slot q ≠ none := by
    constructor
    · rintro ⟨q, hlo, hhi, hq⟩
      refine ⟨q, hlo, ?_, hq⟩
      by_contra hge
      exact hq (hslots q (by omega) hhi)
    · rintro ⟨q, hlo, hhi, hq⟩
      exact ⟨q, hlo, by omega, hq⟩
  cases hole with
  | true =>
      refine ⟨h.data.trans hsame.symm, ?_, h.before, fun _ => ?_⟩
      · show lo + r.blocks ≤ hi'
        omega
      · show f.tree.slot (lo + r.blocks) ≠ none ↔ true = false
        rcases Nat.lt_or_eq_of_le hwithin with hin | heq
        · exact h.found hin
        · rw [heq, hslots hi le_rfl hlt]
          simp
  | false =>
      have heq := hdata rfl
      refine ⟨h.data.trans hsame.symm, ?_, fun q hlo hhi => ?_, fun hin => ?_⟩
      · show lo + (r.blocks + (hi' - hi)) ≤ hi'
        omega
      · change q < lo + (r.blocks + (hi' - hi)) at hhi
        by_cases hq : q < hi
        · exact h.before q hlo (by omega)
        · rw [hslots q (by omega) (by omega)]
          simp
      · change lo + (r.blocks + (hi' - hi)) < hi' at hin
        omega

theorem FileTree.NoHole.lookupLoop (h : f.NoHole) (hle : hi ≤ last + 1) (hfuel : last + 1 ≤ hi + fuel)
    (hr : Searched f lo hi hole r) (hdata : hole = false → lo + r.blocks = hi)
    (hfound : hole = true → (r.holeFound = true ↔ lo + r.blocks < hi)) :
    Searched f lo (last + 1) hole (lookupHoleLoop f last hole fuel hi r) := by
  induction fuel generalizing hi r with
  | zero =>
      obtain rfl : hi = last + 1 := by omega
      exact hr
  | succ fuel ih =>
      unfold lookupHoleLoop
      by_cases hend : hi ≤ last
      · rw [if_pos hend]
        cases hslot : f.tree.slot hi with
        | some entry =>
            have hne : f.tree.slot hi ≠ none := by simp [hslot]
            cases hole with
            | false =>
                have heq := hdata rfl
                refine ⟨iff_of_true rfl ⟨hi, by omega, by omega, hne⟩, ?_, hr.before, fun _ => ?_⟩
                · show lo + r.blocks ≤ last + 1
                  omega
                · show f.tree.slot (lo + r.blocks) ≠ none ↔ false = false
                  rw [heq]
                  exact iff_of_true hne rfl
            | true =>
                obtain ⟨hpage, hpage'⟩ := hr.page hne (hfound rfl)
                have hrest := ih (by omega) (by omega) hpage nofun fun _ => hpage'
                cases hf : r.holeFound <;> simpa [hf] using hrest
        | none =>
            have hstep : ∀ hi', hi < hi' → hi' ≤ last + 1 → (∀ q, hi ≤ q → q < hi' → f.tree.slot q = none) →
                Searched f lo (last + 1) hole (lookupHoleLoop f last hole fuel hi'
                  { r with holeFound := true, blocks := if hole then r.blocks else r.blocks + (hi' - hi) }) := by
              intro hi' hlt hle' hslots
              refine ih hle' (by omega) (hr.gap hlt hslots hdata) ?_ ?_
              · rintro rfl
                have heq := hdata rfl
                show lo + (r.blocks + (hi' - hi)) = hi'
                omega
              · rintro rfl
                have hwithin := hr.within
                exact iff_of_true rfl (show lo + r.blocks < hi' by omega)
            cases hfind : novaFindNextEntry f hi with
            | none =>
                have hrest := hstep (hi + 1) (by omega) (by omega) fun q hlo hhi => by
                  obtain rfl : q = hi := by omega
                  exact hslot
                cases hole <;> simpa using hrest
            | some entry =>
                obtain ⟨hjump, hhole⟩ := h.jump hslot hfind
                have hrest := hstep (if (f.entries entry).pgoff > last then last + 1 else (f.entries entry).pgoff)
                  (by split <;> omega) (by split <;> omega) fun q hlo hhi => hhole q hlo (by split at hhi <;> omega)
                have hmax : ¬ hi + 1 > (f.entries entry).pgoff := by omega
                simp only [hmax, if_false]
                cases hole <;> simpa using hrest
      · rw [if_neg hend]
        obtain rfl : hi = last + 1 := by omega
        exact hr

/-- **No mapped page is passed over.** -/
theorem FileTree.NoHole.lookup (h : f.NoHole) (hole : Bool) (hle : lo ≤ last + 1) :
    Searched f lo (last + 1) hole (novaLookupHoleInRange f lo last hole) := by
  refine h.lookupLoop hle (by omega) ⟨?_, le_rfl, fun q hlo hhi => ?_, fun hlt => ?_⟩ (fun _ => rfl) fun _ => ?_
  · refine iff_of_false (by simp) ?_
    rintro ⟨q, hlo, hhi, -⟩
    omega
  · exact absurd hhi (by simpa using hlo)
  · exact absurd hlt (by simp)
  · simp

end Search

/-! ### Reserving pages -/

/-- What the log promises: a place that nothing of the file uses. -/
def FallocTurn.Fits (w : FallocLoop) (t : FallocTurn) : Prop :=
  ∀ currP, t.append = .unmirrored currP ∨ t.append = .appended currP → w.file.Unused currP

/-- The log keeps its promise in every turn. -/
def FallocsFit (c : FallocCall) : FallocLoop → List FallocTurn → Prop
  | _, [] => True
  | w, t :: ts => t.Fits w ∧ ∀ w', fallocTurn c w t = .ok (w', .ok ()) → FallocsFit c w' ts

section Falloc

variable {c : FallocCall} {w w' : FallocLoop} {t : FallocTurn} {ts : List FallocTurn}

/-- A turn that asks for new blocks. -/
def fallocNew (c : FallocCall) (w : FallocLoop) (t : FallocTurn) : FallocLoop × Except Int Unit :=
  if t.alloc.ret ≤ 0 then (w, .error t.alloc.ret)
  else
    match t.append with
    | .refused => (w, .error (-Errno.enospc.code))
    | .unmirrored currP => ({ w with file := w.file.store currP (fallocEntry c w t) }, .error (-Errno.enospc.code))
    | .appended currP =>
      (w.advance (novaAssignWriteEntry c.snapshots (w.file.store currP (fallocEntry c w t)) currP (fallocEntry c w t) true
        fun _ => true).1 t.alloc.ret.toNat, .ok ())

theorem fallocTurn_new {r : ExistingEntry} (hr : novaCheckExistingEntry w.file w.numBlocks w.startBlk true c.epochId = .ok r)
    (hne : (r.entry.isSome && r.inplace) = false) : fallocTurn c w t = .ok (fallocNew c w t) := by
  unfold fallocTurn
  rw [hr, Except.map]
  cases hentry : r.entry with
  | none => rfl
  | some entry =>
      have hinplace : r.inplace = false := by simpa [hentry] using hne
      rw [hinplace]
      rfl

/-- A turn comes to an end, and leaves no hole. -/
theorem FileTree.NoHole.fallocTurn (h : w.file.NoHole) (hfit : t.Fits w) :
    ∃ w' ret, Parfs.fallocTurn c w t = .ok (w', ret) ∧ (ret = .ok () → w'.file.NoHole) := by
  obtain ⟨r, hr⟩ := h.checkExisting w.numBlocks w.startBlk true c.epochId
  have hstored : ∀ currP, t.append = .appended currP →
      (novaAssignWriteEntry c.snapshots (w.file.store currP (fallocEntry c w t)) currP (fallocEntry c w t) true
        fun _ => true).1.NoHole := by
    intro currP happend
    refine (h.store (hfit currP (Or.inr happend)).mapped).assign ?_
    rw [FileTree.store_entries_self]
  cases hkept : r.entry.isSome && r.inplace with
  | false =>
      suffices hnew : (fallocNew c w t).2 = .ok () → (fallocNew c w t).1.file.NoHole from
        ⟨_, _, fallocTurn_new hr hkept, hnew⟩
      unfold fallocNew
      by_cases hret : t.alloc.ret ≤ 0
      · rw [if_pos hret]
        exact nofun
      · rw [if_neg hret]
        cases happend : t.append with
        | refused => exact nofun
        | unmirrored currP => exact nofun
        | appended currP => exact fun _ => hstored currP happend
  | true =>
      obtain ⟨hsome, hinplace⟩ := Bool.and_eq_true_iff.mp hkept
      obtain ⟨entry, hentry⟩ := Option.isSome_iff_exists.mp hsome
      unfold Parfs.fallocTurn
      rw [hr, Except.map]
      dsimp only
      rw [hentry, hinplace]
      refine ⟨_, _, rfl, fun _ => ?_⟩
      show (if (w.file.entries entry).size < c.newSize then
        w.file.store entry { w.file.entries entry with size := c.newSize, csum := t.entryCsum } else w.file).NoHole
      split
      · refine h.same (fun x => ?_) rfl
        by_cases hx : x = entry
        · subst hx
          rw [FileTree.store_entries_self]
          exact ⟨rfl, rfl, rfl, rfl⟩
        · rw [FileTree.store_entries hx]
          exact ⟨rfl, rfl, rfl, rfl⟩
      · exact h

theorem FileTree.NoHole.fallocTurns (h : w.file.NoHole) (hfit : FallocsFit c w ts) :
    ∃ w' ret, Parfs.fallocTurns c w ts = .ok (w', ret) ∧ (ret = .ok () → w'.file.NoHole) := by
  induction ts generalizing w with
  | nil => exact ⟨w, .ok (), rfl, fun _ => h⟩
  | cons t ts ih =>
      unfold Parfs.fallocTurns
      by_cases hnum : w.numBlocks = 0
      · rw [if_pos hnum]
        exact ⟨w, .ok (), rfl, fun _ => h⟩
      · rw [if_neg hnum]
        obtain ⟨hturn, hrest⟩ := hfit
        obtain ⟨w₁, ret, hok, hkeep⟩ := h.fallocTurn (c := c) hturn
        rw [hok]
        cases ret with
        | error code => exact ⟨w₁, _, rfl, nofun⟩
        | ok _ => exact ih (hkeep rfl) (hrest w₁ hok)

end Falloc

/-! ### The replay -/

section Replay

variable {snapshots : List Nat} {m : ByteMem} {s s' : FileRebuild} {v : Bool} {logTail : Nat}

theorem FileTree.NoHole.handleWrite (h : s.file.NoHole) (entry : Nat) :
    (novaRebuildHandleWriteEntry snapshots s entry).file.NoHole := by
  have hassign : (if (s.file.entries entry).numPages ≠ (s.file.entries entry).invalidPages then
      (novaAssignWriteEntry snapshots s.file entry (s.file.entries entry) false fun _ => true).1
      else s.file).NoHole := by
    split
    · exact h.assign rfl
    · exact h
  unfold novaRebuildHandleWriteEntry
  dsimp only
  generalize (if (s.file.entries entry).numPages ≠ (s.file.entries entry).invalidPages then
    (novaAssignWriteEntry snapshots s.file entry (s.file.entries entry) false fun _ => true).1
    else s.file) = f at hassign
  split
  · refine hassign.same (fun x => ?_) rfl
    unfold novaClearUpdating
    by_cases hx : x = entry <;> simp [hx]
  · exact hassign

theorem FileTree.NoHole.handle (h : s.file.NoHole) (p : Nat) : (s.handle snapshots m v p).file.NoHole := by
  unfold FileRebuild.handle
  dsimp only
  split
  · unfold novaApplySetattrEntry
    dsimp only
    split
    · exact h.delete
    · exact h
  · split
    · exact h
    · split
      · refine FileTree.NoHole.handleWrite ?_ p
        split <;> exact h
      · exact h

theorem FileTree.NoHole.rebuildLoop {fuel currP : Nat} (h : s.file.NoHole)
    (hok : rebuildFileLoop snapshots m logTail v fuel currP s = .ok s') : s'.file.NoHole := by
  induction fuel generalizing currP s with
  | zero => cases hok
  | succ fuel ih =>
      unfold rebuildFileLoop at hok
      by_cases hend : currP = logTail
      · rw [if_pos hend] at hok
        rwa [← Except.ok.inj hok]
      · rw [if_neg hend] at hok
        dsimp only at hok
        by_cases hnull : scanFrom m currP = 0
        · rw [if_pos hnull] at hok
          cases hok
        · rw [if_neg hnull] at hok
          split at hok <;> exact ih (h.handle _) hok

end Replay

/-! ### Runs -/

/-- What happens to the pages of a file. -/
inductive ExtentOp where
  | write (mode : WriteMode) (c : WriteCall) (turns : List WriteTurn)
  | fallocate (c : FallocCall) (startBlk numBlocks : Nat) (turns : List FallocTurn)
  /-- of `start` and the old size -/
  | truncate (snapshots : List Nat) (start endp epochId : Nat)
  /-- The header is gone, and the main loop replays a log. -/
  | rebuild (snapshots : List Nat) (m : ByteMem) (reb : NovaInodeRebuild)
      (transCurr logHead logTail : Nat) (latestTransValid : Bool) (fuel : Nat)

/-- One that completes. -/
inductive ExtentStep : FileTree → ExtentOp → FileTree → Prop where
  | write {f : FileTree} {mode : WriteMode} {c : WriteCall} {turns : List WriteTurn} {w : WriteLoop}
      (hfit : TurnsFit mode c (c.start f) turns) (hok : writeTurns mode c (c.start f) turns = (w, .ok ())) :
      ExtentStep f (.write mode c turns) w.file
  | fallocate {f : FileTree} {c : FallocCall} {startBlk numBlocks : Nat} {turns : List FallocTurn} {w : FallocLoop}
      (hfit : FallocsFit c ⟨f, startBlk, numBlocks⟩ turns)
      (hok : fallocTurns c ⟨f, startBlk, numBlocks⟩ turns = .ok (w, .ok ())) :
      ExtentStep f (.fallocate c startBlk numBlocks turns) w.file
  | truncate (f : FileTree) (snapshots : List Nat) (start endp epochId : Nat) :
      ExtentStep f (.truncate snapshots start endp epochId) (novaTruncateFileBlocks snapshots f start endp epochId)
  | rebuild (f : FileTree) {snapshots : List Nat} {m : ByteMem} {reb : NovaInodeRebuild}
      {transCurr logHead logTail fuel : Nat} {v : Bool} {s : FileRebuild}
      (hok : rebuildFileLoop snapshots m logTail v fuel logHead (novaInitHeader m reb transCurr) = .ok s) :
      ExtentStep f (.rebuild snapshots m reb transCurr logHead logTail v fuel) s.file

section Run

variable {f f' : FileTree} {op : ExtentOp} {entries : Nat → NovaFileWriteEntry}

/-- **One step leaves no hole.** -/
theorem FileTree.NoHole.step (h : f.NoHole) (hstep : ExtentStep f op f') : f'.NoHole := by
  cases hstep with
  | write hfit hok => exact FileTree.NoHole.writeTurns (w := WriteCall.start _ f) h hfit hok
  | fallocate hfit hok =>
      obtain ⟨w, ret, hok', hkeep⟩ := FileTree.NoHole.fallocTurns (w := ⟨f, _, _⟩) h hfit
      rw [hok] at hok'
      simp only [Except.ok.injEq, Prod.mk.injEq] at hok'
      rw [hok'.1]
      exact hkeep hok'.2.symm
  | truncate snapshots start endp epochId =>
      unfold novaTruncateFileBlocks
      dsimp only
      generalize (if endp = 0 then 0 else (endp - 1) / 4096) = lastBlocknr
      split
      · exact h
      · exact h.delete
  | rebuild hok => exact FileTree.NoHole.rebuildLoop (FileTree.NoHole.empty _) hok

/-- What the code that jumps over holes can rely on. -/
structure HolesSkipped (f : FileTree) : Prop where
  noHole : f.NoHole
  checked : ∀ numBlocks startBlk checkNext epochId,
    ∃ r, novaCheckExistingEntry f numBlocks startBlk checkNext epochId = .ok r
  reserved : ∀ c startBlk numBlocks turns, FallocsFit c ⟨f, startBlk, numBlocks⟩ turns →
    ∃ r, fallocTurns c ⟨f, startBlk, numBlocks⟩ turns = .ok r
  jump : ∀ pgoff entry, f.tree.slot pgoff = none → novaFindNextEntry f pgoff = some entry →
    pgoff < (f.entries entry).pgoff ∧ ∀ q, pgoff ≤ q → q < (f.entries entry).pgoff → f.tree.slot q = none
  deleted : ∀ snapshots start deleteNvmm deleteDead epochId q,
    (novaDeleteFileTree snapshots f start deleteNvmm deleteDead epochId).tree.slot q =
      if start ≤ q then none else f.tree.slot q
  searched : ∀ lo last hole, lo ≤ last + 1 →
    Searched f lo (last + 1) hole (novaLookupHoleInRange f lo last hole)

theorem FileTree.NoHole.skipped (h : f.NoHole) : HolesSkipped f where
  noHole := h
  checked := h.checkExisting
  reserved := by
    intro c startBlk numBlocks turns hfit
    obtain ⟨w, ret, hok, -⟩ := FileTree.NoHole.fallocTurns (w := ⟨f, startBlk, numBlocks⟩) h hfit
    exact ⟨_, hok⟩
  jump := fun _ _ => h.jump
  deleted := by
    intro snapshots start deleteNvmm deleteDead epochId
    obtain ⟨cut, hspec⟩ := h.deleted
    exact hspec.slots
  searched := fun _ _ hole hle => h.lookup hole hle

/-- **No hole is ever inside an extent**: writes, reservations, truncations and replays in any
order leave a file in which the jumps from holes pass over no page. -/
theorem fileRun_holes_skipped (hrun : Runs ExtentStep (FileTree.empty entries) f) : HolesSkipped f :=
  (hrun.invariant (fun _ _ _ hinv hstep => hinv.step hstep) (FileTree.NoHole.empty entries)).skipped

/-- The third page. -/
def thirdPageWrite : WriteCall := ⟨8192, 4096, 1, 1, 2, 0, []⟩

/-- It is written, with a hole before it. -/
def thirdPage : FileTree := (writeTurns .cow thirdPageWrite (thirdPageWrite.start newFile.file) [oneBlock 20 128]).1.file

theorem fileRun_holes_skipped_thirdPage : HolesSkipped thirdPage := by
  have hunused : newFile.file.Unused 128 := ⟨fun _ => nofun, nofun⟩
  have hfits : (oneBlock 20 128).Fits (thirdPageWrite.start newFile.file) := by
    refine ⟨by decide, ?_⟩
    rintro currP (hp | hp)
    · cases hp
    · cases hp
      exact ⟨hunused, by decide⟩
  have hfit : TurnsFit .cow thirdPageWrite (thirdPageWrite.start newFile.file) [oneBlock 20 128] := ⟨hfits, trivial⟩
  exact fileRun_holes_skipped (Runs.single (.write hfit rfl))

end Run

end Parfs
