/-
The scan of a file log during recovery.

Everything is said about a log image: the entries a scan meets from the head to where it
stops.  The recovery writes into the log only to drop a transaction, and then only the
`invalid_pages` of write entries, so the image stays what it is while the log is gone over
again and again.
-/
import Mathlib.Data.List.Pairwise
import Parfs.Lib.LastRun
import Parfs.Proofs.LogScan
import Parfs.Recovery

namespace Parfs

open Lib ByteMem

/-- The entry at `p` is a write entry. -/
abbrev IsWrite (m : ByteMem) (p : Nat) : Prop := novaGetEntryType m p = NovaEntryType.fileWrite.code

/-- What the scan goes on by behind the entry at `p`. -/
def entrySize (m : ByteMem) (p : Nat) : Nat := (scanEntrySize m p .file).getD 0

/-- The way of a scan from `curr` over `visited` to `stop`, through a log as it is written:
pages start at page boundaries, an entry ends in front of its page's tail, and a write entry
has pages. -/
inductive ScanPath (m : ByteMem) (stop : Nat) : Nat → List Nat → Prop where
  | stop {curr : Nat} (hfrom : scanFrom m curr = stop) (hne : stop ≠ 0)
      (hpage : gotoNextPage m curr = true → stop % 4096 = 0)
      (hend : scanEntrySize m stop .file = none) : ScanPath m stop curr []
  | entry {curr p : Nat} {rest : List Nat} (hfrom : scanFrom m curr = p) (hne : p ≠ 0)
      (hpage : gotoNextPage m curr = true → p % 4096 = 0)
      (hsize : scanEntrySize m p .file = some (entrySize m p)) (hfit : p % 4096 + entrySize m p ≤ 4064)
      (hpages : IsWrite m p → (wentry m p).numPages ≠ 0)
      (hrest : ScanPath m stop (p + entrySize m p) rest) : ScanPath m stop curr (p :: rest)

/-- The place is not inside any of the entries. -/
def Outside (m : ByteMem) (visited : List Nat) (x : Nat) : Prop :=
  ∀ q ∈ visited, x ≤ q ∨ q + entrySize m q ≤ x

/-- A log, from its first page on. -/
structure LogImage (m : ByteMem) (head : Nat) (visited : List Nat) (stop : Nat) : Prop where
  start : head ≠ 0 ∧ head % 4096 = 0
  path : ScanPath m stop head visited
  apart : visited.Pairwise fun p q => p + entrySize m p ≤ q ∨ q + entrySize m q ≤ p
  /-- the pages behind the one where the scan stops -/
  chain : ∃ pages, LinkedTo m 0 (blockOff stop :: pages) ∧ ∀ p ∈ pages, IsPage p

/-- Nothing has changed but `invalid_pages` of some of the write entries. -/
def SameLog (m m' : ByteMem) (visited : List Nat) : Prop :=
  ∀ x, (∀ q ∈ visited, IsWrite m q → x < q + 24 ∨ q + 28 ≤ x) → m' x = m x

section

variable {m m' m'' : ByteMem} {stop curr head p q x : Nat} {visited rest before : List Nat}

theorem entrySize_cases {size : Nat} (h : scanEntrySize m p .file = some size) :
    40 ≤ size ∧ size ≤ 64 ∧ novaGetEntryType m p ≠ NovaEntryType.nextPage.code := by
  unfold scanEntrySize NovaEntryType.code at h
  simp only at h
  generalize novaGetEntryType m p = type at h ⊢
  simp only [NovaEntryType.code]
  by_cases h3 : type = 3
  · rw [if_pos h3] at h
    cases h
    omega
  rw [if_neg h3] at h
  by_cases h4 : type = 4
  · rw [if_pos h4] at h
    cases h
    omega
  rw [if_neg h4] at h
  by_cases h1 : type = 1
  · rw [if_pos h1] at h
    cases h
    omega
  rw [if_neg h1] at h
  by_cases h5 : type = 5
  · rw [if_pos h5] at h
    cases h
    omega
  · rw [if_neg h5] at h
    cases h

theorem entrySize_write (h : IsWrite m p) : entrySize m p = 64 := by
  simp [entrySize, scanEntrySize, h, NovaEntryType.code]

/-- A scan that stands at an entry takes it. -/
theorem scanFrom_entry (h : scanEntrySize m p .file = some (entrySize m p))
    (hfit : p % 4096 + entrySize m p ≤ 4064) : gotoNextPage m p = false ∧ scanFrom m p = p := by
  obtain ⟨hmin, -, htype⟩ := entrySize_cases h
  have hgoto : gotoNextPage m p = false := by
    simp only [gotoNextPage, entryLoc, logBlockTail, Bool.or_eq_false_iff, decide_eq_false_iff_not]
    exact ⟨decide_eq_false (by omega), htype⟩
  exact ⟨hgoto, by simp [scanFrom, hgoto]⟩

theorem scanFrom_cases (m : ByteMem) (curr : Nat) : (gotoNextPage m curr = true ∧ scanFrom m curr = nextLogPage m curr) ∨
    (gotoNextPage m curr = false ∧ scanFrom m curr = curr) := by
  unfold scanFrom
  cases gotoNextPage m curr <;> simp

/-- What is known of an entry on the way. -/
structure EntryOk (m : ByteMem) (p : Nat) : Prop where
  ne : p ≠ 0
  size : scanEntrySize m p .file = some (entrySize m p)
  fit : p % 4096 + entrySize m p ≤ 4064
  pages : IsWrite m p → (wentry m p).numPages ≠ 0

theorem EntryOk.min (h : EntryOk m p) : 40 ≤ entrySize m p := (entrySize_cases h.size).1

/-- Behind an entry no page starts. -/
theorem EntryOk.end_ne (h : EntryOk m p) : (p + entrySize m p) % 4096 ≠ 0 := by
  have := h.min
  have := h.fit
  omega

theorem ScanPath.ok (h : ScanPath m stop curr visited) : ∀ p ∈ visited, EntryOk m p := by
  induction h with
  | stop => simp
  | entry hfrom hne hpage hsize hfit hpages hrest ih =>
      intro q hq
      rcases List.mem_cons.mp hq with rfl | hq
      · exact ⟨hne, hsize, hfit, hpages⟩
      · exact ih q hq

/-- The scan may as well start at the entry it takes first. -/
theorem ScanPath.atFirst (h : ScanPath m stop curr (p :: rest)) : ScanPath m stop p (p :: rest) := by
  cases h with
  | entry hfrom hne hpage hsize hfit hpages hrest =>
      obtain ⟨hgoto, hself⟩ := scanFrom_entry hsize hfit
      exact .entry hself hne (fun h => by rw [hgoto] at h; cases h) hsize hfit hpages hrest

/-- The rest of the way from any entry on. -/
theorem ScanPath.suffix (h : ScanPath m stop curr (before ++ p :: rest)) :
    ScanPath m stop p (p :: rest) := by
  induction before generalizing curr with
  | nil => exact h.atFirst
  | cons q before ih =>
      cases h with
      | entry hfrom hne hpage hsize hfit hpages hrest => exact ih hrest

/-- Where the scan stops there is no entry, and a page starts there if the place sends it on. -/
theorem ScanPath.stopped (h : ScanPath m stop curr visited) :
    stop ≠ 0 ∧ scanEntrySize m stop .file = none ∧ (gotoNextPage m stop = true → stop % 4096 = 0) := by
  induction h with
  | entry hfrom hne hpage hsize hfit hpages hrest ih => exact ih
  | @stop curr hfrom hne hpage hend =>
      refine ⟨hne, hend, fun hgoto => ?_⟩
      rcases scanFrom_cases m curr with ⟨hjump, -⟩ | ⟨hstay, hself⟩
      · exact hpage hjump
      · rw [← hfrom, hself, hstay] at hgoto
        cases hgoto

/-- Inside a page no way leads over the place where it stops. -/
theorem ScanPath.ne_stop (h : ScanPath m stop curr (p :: rest))
    (hcurr : curr % 4096 ≠ 0 ∨ curr = p) : curr ≠ stop := by
  obtain ⟨-, hnone, hgoto⟩ := h.stopped
  rintro rfl
  cases h with
  | entry hfrom hne hpage hsize hfit hpages hrest =>
      rcases scanFrom_cases m curr with ⟨hjump, -⟩ | ⟨-, hself⟩
      · rcases hcurr with hcurr | rfl
        · exact hcurr (hgoto hjump)
        · rw [hnone] at hsize
          cases hsize
      · rw [hself] at hfrom
        rw [hfrom, hsize] at hnone
        cases hnone

theorem LogImage.ok (h : LogImage m head visited stop) : ∀ p ∈ visited, EntryOk m p := h.path.ok

theorem LogImage.apartOf (h : LogImage m head visited stop) (hp : p ∈ visited) (hq : q ∈ visited)
    (hne : p ≠ q) : p + entrySize m p ≤ q ∨ q + entrySize m q ≤ p := by
  have hsym : Std.Symm fun p q => p + entrySize m p ≤ q ∨ q + entrySize m q ≤ p := ⟨fun _ _ h => h.symm⟩
  exact List.Pairwise.forall h.apart hp hq hne

theorem LogImage.nodup (h : LogImage m head visited stop) : visited.Nodup := by
  refine h.apart.imp_of_mem fun {p q} hp hq hapart => ?_
  rintro rfl
  have := (h.ok p hp).min
  omega

theorem LogImage.outside_entry (h : LogImage m head visited stop) (hp : p ∈ visited) :
    Outside m visited p := by
  intro q hq
  by_cases hpq : p = q
  · exact Or.inl (le_of_eq hpq)
  · have := h.apartOf hp hq hpq
    omega

theorem LogImage.outside_end (h : LogImage m head visited stop) (hp : p ∈ visited) :
    Outside m visited (p + entrySize m p) := by
  intro q hq
  by_cases hpq : p = q
  · subst hpq
    exact Or.inr (le_refl _)
  · have := h.apartOf hp hq hpq
    omega

/-- Entries stay inside their pages, so a page's start is inside none. -/
theorem LogImage.outside_page (h : LogImage m head visited stop) (hx : x % 4096 = 0) :
    Outside m visited x := by
  intro q hq
  have := (h.ok q hq).fit
  omega

theorem SameLog.refl : SameLog m m visited := fun _ _ => rfl

theorem Outside.byte (hout : Outside m visited x) (hsame : SameLog m m' visited) : m' x = m x := by
  refine hsame x fun q hq hw => ?_
  have hsize := entrySize_write hw
  have := hout q hq
  omega

/-- A place that is inside no entry or that is in a page's tail reads the same. -/
theorem LogImage.gotoNextPage_same (hsame : SameLog m m' visited) (hout : Outside m visited x) :
    gotoNextPage m' x = gotoNextPage m x := gotoNextPage_congr fun _ => hout.byte hsame

theorem LogImage.nextLogPage_same (h : LogImage m head visited stop) (hsame : SameLog m m' visited)
    (x : Nat) : nextLogPage m' x = nextLogPage m x := by
  unfold nextLogPage nextPage blockOff logBlockTail
  refine word_congr fun y h1 h2 => hsame y fun q hq hw => ?_
  have hfit := (h.ok q hq).fit
  rw [entrySize_write hw] at hfit
  omega

theorem LogImage.nextPage_same (h : LogImage m head visited stop) (hsame : SameLog m m' visited)
    (hx : x % 4096 = 0) : nextPage m' x = nextPage m x := by
  have hnext := h.nextLogPage_same hsame x
  simp only [nextLogPage, blockOff] at hnext
  rwa [Nat.div_mul_cancel (Nat.dvd_of_mod_eq_zero hx)] at hnext

theorem LogImage.scanFrom_same (h : LogImage m head visited stop) (hsame : SameLog m m' visited)
    (hout : Outside m visited x) : scanFrom m' x = scanFrom m x := by
  unfold scanFrom
  rw [LogImage.gotoNextPage_same hsame hout, h.nextLogPage_same hsame]

theorem scanEntrySize_same (hsame : SameLog m m' visited) (hout : Outside m visited x) :
    scanEntrySize m' x .file = scanEntrySize m x .file := by
  have htype : novaGetEntryType m' x = novaGetEntryType m x := by
    simp only [novaGetEntryType, hout.byte hsame]
  simp only [scanEntrySize, htype]

theorem isWrite_same (hsame : SameLog m m' visited) (hout : Outside m visited x) :
    IsWrite m' x ↔ IsWrite m x := by
  simp only [IsWrite, novaGetEntryType, hout.byte hsame]

theorem entrySize_same (hsame : SameLog m m' visited) (hout : Outside m visited x) :
    entrySize m' x = entrySize m x := by
  simp only [entrySize, scanEntrySize_same hsame hout]

/-- A field of a write entry that is not `invalid_pages`. -/
theorem LogImage.field_same (h : LogImage m head visited stop) (hsame : SameLog m m' visited)
    (hp : p ∈ visited) (hw : IsWrite m p) {o n : Nat} (hon : o + n ≤ 24 ∨ (28 ≤ o ∧ o + n ≤ 64)) :
    m'.word (p + o) n = m.word (p + o) n := by
  refine word_congr fun x h1 h2 => hsame x fun q hq hwq => ?_
  have hsp := entrySize_write hw
  have hsq := entrySize_write hwq
  by_cases hpq : p = q
  · omega
  · have := h.apartOf hp hq hpq
    omega

/-- **Nothing but `invalid_pages` changes in a write entry.** -/
theorem LogImage.wentry_same (h : LogImage m head visited stop) (hsame : SameLog m m' visited)
    (hp : p ∈ visited) (hw : IsWrite m p) :
    wentry m' p = { wentry m p with invalidPages := (wentry m' p).invalidPages } := by
  have hf := fun o n hon => h.field_same hsame hp hw (o := o) (n := n) hon
  simp only [wentry, NovaFileWriteEntry.mk.injEq]
  exact ⟨hf _ _ (by decide), hf _ _ (by decide), hf _ _ (by decide), hf _ _ (by decide), hf _ _ (by decide), trivial,
    hf _ _ (by decide), hf _ _ (by decide), hf _ _ (by decide), hf _ _ (by decide), hf _ _ (by decide)⟩

theorem LogImage.path_same (h : LogImage m head visited stop) (hsame : SameLog m m' visited) :
    ∀ {rest : List Nat} {curr : Nat}, ScanPath m stop curr rest → rest ⊆ visited →
      Outside m visited curr → ScanPath m' stop curr rest := by
  intro rest curr hpath
  induction hpath with
  | @stop curr hfrom hne hpage hend =>
      intro hsub hout
      have hstop : Outside m visited stop := by
        rcases scanFrom_cases m curr with ⟨hjump, -⟩ | ⟨-, hself⟩
        · exact h.outside_page (hpage hjump)
        · rwa [← hfrom, hself]
      refine .stop ((h.scanFrom_same hsame hout).trans hfrom) hne ?_ ?_
      · rwa [LogImage.gotoNextPage_same hsame hout]
      · rwa [scanEntrySize_same hsame hstop]
  | @entry curr p rest hfrom hne hpage hsize hfit hpages hrest ih =>
      intro hsub hout
      have hp : p ∈ visited := hsub List.mem_cons_self
      have houtp := h.outside_entry hp
      have hes := entrySize_same hsame houtp
      refine .entry ((h.scanFrom_same hsame hout).trans hfrom) hne ?_ ?_ ?_ ?_ ?_
      · rwa [LogImage.gotoNextPage_same hsame hout]
      · rw [hes, scanEntrySize_same hsame houtp, hsize]
      · rwa [hes]
      · intro hw
        have hw' := (isWrite_same hsame houtp).mp hw
        rw [h.wentry_same hsame hp hw']
        exact hpages hw'
      · rw [hes]
        exact ih (fun x hx => hsub (List.mem_cons_of_mem _ hx)) (h.outside_end hp)

theorem SameLog.trans (h : LogImage m head visited stop) (hsame : SameLog m m' visited)
    (hsame' : SameLog m' m'' visited) : SameLog m m'' visited := by
  intro x hx
  rw [hsame' x fun q hq hw => hx q hq ((isWrite_same hsame (h.outside_entry hq)).mp hw), hsame x hx]

/-- **The image stays.** -/
theorem LogImage.same (h : LogImage m head visited stop) (hsame : SameLog m m' visited) :
    LogImage m' head visited stop := by
  refine ⟨h.start, h.path_same hsame h.path (fun _ hx => hx) (h.outside_page h.start.2), ?_, ?_⟩
  · refine h.apart.imp_of_mem fun {p q} hp hq hapart => ?_
    rwa [entrySize_same hsame (h.outside_entry hp), entrySize_same hsame (h.outside_entry hq)]
  · obtain ⟨pages, hlink, hpages⟩ := h.chain
    refine ⟨pages, hlink.congr fun p hp => h.nextPage_same hsame ?_, hpages⟩
    rcases List.mem_cons.mp hp with rfl | hp
    · unfold blockOff
      omega
    · exact (hpages p hp).1

end

/-! ### The scan -/

/-- The largest page offset an entry adds. -/
def entryLast (m : ByteMem) (p : Nat) : Nat :=
  let e := wentry m p
  if IsWrite m p ∧ e.numPages ≠ e.invalidPages then e.pgoff + e.numPages - 1 else 0

/-- The write entries among the entries of a log. -/
def writesOf (m : ByteMem) (visited : List Nat) : List Nat :=
  visited.filter fun p => decide (IsWrite m p)

/-- `trans_id` of a write entry. -/
abbrev transIdOf (m : ByteMem) (p : Nat) : Nat := (wentry m p).transId

/-- What a scan that goes over the whole log leaves behind. -/
def scanned (base : Nat) : Traverse → Nat → List Nat → Traverse
  | t, curr, [] => { t.markJump base curr with loopEnd := true }
  | t, curr, p :: rest => scanned base ((t.markJump base curr).handle base p) (p + entrySize t.mem p) rest

section

variable {t : Traverse} {base curr p stop head : Nat} {visited rest : List Nat} {m : ByteMem}

theorem writesOf_write (hw : IsWrite m p) : writesOf m (p :: rest) = p :: writesOf m rest := by
  have hdec : decide (IsWrite m p) = true := decide_eq_true hw
  simp only [writesOf, List.filter_cons, hdec, if_true]

theorem writesOf_other (hw : ¬IsWrite m p) : writesOf m (p :: rest) = writesOf m rest := by
  have hdec : decide (IsWrite m p) = false := decide_eq_false hw
  simp only [writesOf, List.filter_cons, hdec, if_false, Bool.false_eq_true]

theorem Traverse.markJump_eq (t : Traverse) (base curr : Nat) :
    ∃ bm, t.markJump base curr = { t with bm := bm } := by
  unfold Traverse.markJump
  split
  · exact ⟨_, rfl⟩
  · exact ⟨t.bm, rfl⟩

@[simp] theorem Traverse.markJump_mem : (t.markJump base curr).mem = t.mem := by
  obtain ⟨bm, h⟩ := t.markJump_eq base curr
  rw [h]

@[simp] theorem Traverse.markJump_transId : (t.markJump base curr).transId = t.transId := by
  obtain ⟨bm, h⟩ := t.markJump_eq base curr
  rw [h]

@[simp] theorem Traverse.markJump_pi : (t.markJump base curr).pi = t.pi := by
  obtain ⟨bm, h⟩ := t.markJump_eq base curr
  rw [h]

@[simp] theorem Traverse.markJump_transCurr : (t.markJump base curr).transCurr = t.transCurr := by
  obtain ⟨bm, h⟩ := t.markJump_eq base curr
  rw [h]

@[simp] theorem Traverse.markJump_lastBlocknr : (t.markJump base curr).lastBlocknr = t.lastBlocknr := by
  obtain ⟨bm, h⟩ := t.markJump_eq base curr
  rw [h]

@[simp] theorem Traverse.markJump_loopEnd : (t.markJump base curr).loopEnd = t.loopEnd := by
  obtain ⟨bm, h⟩ := t.markJump_eq base curr
  rw [h]

@[simp] theorem novaRingSetattrEntry_mem (r : Recovery) : (novaRingSetattrEntry r base p).mem = r.mem := by
  simp only [novaRingSetattrEntry]
  split
  · simp only
  split
  · simp only
  · simp only

@[simp] theorem novaRingSetattrEntry_transId (r : Recovery) :
    (novaRingSetattrEntry r base p).transId = r.transId := by
  simp only [novaRingSetattrEntry]
  split
  · simp only
  split
  · simp only
  · simp only

@[simp] theorem novaSetRingArray_mem (r : Recovery) : (novaSetRingArray r base p).mem = r.mem := by
  simp only [novaSetRingArray]

@[simp] theorem novaSetRingArray_transId (r : Recovery) :
    (novaSetRingArray r base p).transId = r.transId := by
  simp only [novaSetRingArray]

@[simp] theorem novaTraverseFileWriteEntry_mem (r : Recovery) :
    (novaTraverseFileWriteEntry r base p).1.mem = r.mem := by
  simp only [novaTraverseFileWriteEntry]
  split
  · split
    · simp only [novaSetRingArray_mem]
    · simp only
  · simp only

@[simp] theorem novaTraverseFileWriteEntry_transId (r : Recovery) :
    (novaTraverseFileWriteEntry r base p).1.transId = r.transId := by
  simp only [novaTraverseFileWriteEntry]
  split
  · split
    · simp only [novaSetRingArray_transId]
    · simp only
  · simp only

theorem novaTraverseFileWriteEntry_last (r : Recovery) (hw : IsWrite r.mem p) :
    (novaTraverseFileWriteEntry r base p).2 = entryLast r.mem p := by
  simp only [novaTraverseFileWriteEntry, entryLast]
  split
  · rename_i hvalid
    exact (if_pos ⟨hw, hvalid⟩).symm
  · rename_i hdead
    exact (if_neg fun h => hdead h.2).symm

/-- What an entry does to the variables that say where the last transaction is. -/
theorem Traverse.handle_eq (t : Traverse) (base p : Nat) : (t.handle base p).mem = t.mem ∧ (t.handle base p).pi = t.pi ∧
    (t.handle base p).loopEnd = t.loopEnd ∧
    (t.handle base p).lastBlocknr = max t.lastBlocknr (entryLast t.mem p) ∧
    ((t.handle base p).transId, (t.handle base p).transCurr) =
      if IsWrite t.mem p then trackRun (transIdOf t.mem) (t.transId, t.transCurr) p
      else (t.transId, t.transCurr) := by
  unfold Traverse.handle
  by_cases hattr : novaGetEntryType t.mem p = NovaEntryType.setAttr.code
  · have hw : ¬IsWrite t.mem p := by
      rw [IsWrite, hattr]
      decide
    rw [if_pos hattr]
    simp only [novaRingSetattrEntry_mem, novaRingSetattrEntry_transId, hw, if_false, entryLast, false_and,
      Nat.max_zero, and_self]
  rw [if_neg hattr]
  by_cases hw : IsWrite t.mem p
  · have hmax : ∀ r : Recovery, r.mem = t.mem →
        (if t.lastBlocknr < (novaTraverseFileWriteEntry r base p).2 then
          (novaTraverseFileWriteEntry r base p).2 else t.lastBlocknr) =
        max t.lastBlocknr (entryLast t.mem p) := by
      intro r hr
      rw [novaTraverseFileWriteEntry_last r (by rw [hr]; exact hw), hr]
      split
      · omega
      · omega
    rw [if_pos hw, if_pos hw, trackRun]
    by_cases hsame : (wentry t.mem p).transId = t.transId
    · simp only [hsame, ne_eq, not_true_eq_false, if_false, novaTraverseFileWriteEntry_mem,
        novaTraverseFileWriteEntry_transId, hmax, and_self]
    · simp only [hsame, ne_eq, not_false_eq_true, if_true, novaTraverseFileWriteEntry_mem,
        novaTraverseFileWriteEntry_transId, hmax, and_self]
  · have hlast : entryLast t.mem p = 0 := if_neg fun h => hw h.1
    rw [if_neg hw, if_neg hw, hlast]
    simp

/-- **A scan of the whole log.** -/
theorem traverseScan_all (base : Nat) (hpath : ScanPath m stop curr visited) :
    ∀ {t : Traverse}, t.mem = m → t.loopEnd = false → ∀ fuel, visited.length < fuel →
      traverseScan base fuel t curr = .ok (scanned base t curr visited, stop) := by
  induction hpath with
  | @stop curr hfrom hne hpage hend =>
      intro t hmem hloop fuel hfuel
      obtain ⟨fuel, rfl⟩ : ∃ n, fuel = n + 1 := ⟨fuel - 1, by omega⟩
      rw [traverseScan]
      simp only [Traverse.markJump_mem, hmem, hfrom, hne, hend, if_false]
      rw [if_neg fun h => h.2.2 (hpage h.1), scanned]
  | @entry curr p rest hfrom hne hpage hsize hfit hpages hrest ih =>
      intro t hmem hloop fuel hfuel
      obtain ⟨fuel, rfl⟩ : ∃ n, fuel = n + 1 := ⟨fuel - 1, by omega⟩
      obtain ⟨hmem', -, hloop', -⟩ := (t.markJump base curr).handle_eq base p
      rw [Traverse.markJump_mem, hmem] at hmem'
      rw [Traverse.markJump_loopEnd, hloop] at hloop'
      rw [traverseScan]
      simp only [Traverse.markJump_mem, hmem, hfrom, hne, if_false, hsize, hloop', Bool.false_eq_true]
      rw [if_neg fun h => h.2.2 (hpage h.1), ih hmem' hloop' fuel (by simpa using hfuel), scanned, hmem]

/-- A scan that is told to end ends behind its first entry. -/
theorem traverseScan_first (base : Nat) (hpath : ScanPath m stop curr (p :: rest)) (hmem : t.mem = m)
    (hloop : t.loopEnd = true) (fuel : Nat) :
    traverseScan base (fuel + 1) t curr =
      .ok ((t.markJump base curr).handle base p, p + entrySize m p) := by
  cases hpath with
  | entry hfrom hne hpage hsize hfit hpages hrest =>
      obtain ⟨-, -, hloop', -⟩ := (t.markJump base curr).handle_eq base p
      rw [Traverse.markJump_loopEnd, hloop] at hloop'
      rw [traverseScan]
      simp only [Traverse.markJump_mem, hmem, hfrom, hne, if_false, hsize, hloop', if_true]
      rw [if_neg fun h => h.2.2 (hpage h.1)]

/-- What a scan of the whole log does to the variables. -/
theorem scanned_eq (base : Nat) (visited : List Nat) :
    ∀ (t : Traverse) (curr : Nat), (scanned base t curr visited).mem = t.mem ∧
      (scanned base t curr visited).pi = t.pi ∧
      (scanned base t curr visited).lastBlocknr =
        visited.foldl (fun last p => max last (entryLast t.mem p)) t.lastBlocknr ∧
      ((scanned base t curr visited).transId, (scanned base t curr visited).transCurr) =
        (writesOf t.mem visited).foldl (trackRun (transIdOf t.mem)) (t.transId, t.transCurr) := by
  induction visited with
  | nil =>
      intro t curr
      simp only [scanned, Traverse.markJump_mem, Traverse.markJump_pi, Traverse.markJump_lastBlocknr,
        Traverse.markJump_transId, Traverse.markJump_transCurr, writesOf, List.filter_nil,
        List.foldl_nil, and_self]
  | cons p rest ih =>
      intro t curr
      obtain ⟨hmem, hpi, -, hlast, htrans⟩ := (t.markJump base curr).handle_eq base p
      obtain ⟨ihmem, ihpi, ihlast, ihtrans⟩ :=
        ih ((t.markJump base curr).handle base p) (p + entrySize t.mem p)
      simp only [Traverse.markJump_mem, Traverse.markJump_pi, Traverse.markJump_lastBlocknr,
        Traverse.markJump_transId, Traverse.markJump_transCurr] at hmem hpi hlast htrans
      refine ⟨ihmem.trans hmem, ihpi.trans hpi, ?_, ?_⟩
      · rw [scanned, ihlast, hlast, hmem]
        rfl
      · rw [scanned, ihtrans, htrans, hmem]
        by_cases hw : IsWrite t.mem p
        · rw [if_pos hw, writesOf_write hw, List.foldl_cons]
        · rw [if_neg hw, writesOf_other hw]

end

/-! ### The last transaction -/

/-- The entries a walk from `curr` takes before it comes to `currP`, and whether it ends
because there is no entry. -/
def walked (m : ByteMem) (currP : Nat) : Nat → List Nat → List Nat × Bool
  | curr, [] => ([], decide (curr ≠ currP))
  | curr, p :: rest =>
    if curr = currP then ([], false)
    else (p :: (walked m currP (p + entrySize m p) rest).1, (walked m currP (p + entrySize m p) rest).2)

/-- The data blocks of a write entry. -/
def entryBlocks (m : ByteMem) (p : Nat) : List Nat :=
  (List.range (wentry m p).numPages).map fun i => getNvmm (wentry m p) ((wentry m p).pgoff + i)

/-- The data blocks of the write entries among these. -/
def transBlocks (m : ByteMem) (ps : List Nat) : List Nat := (writesOf m ps).flatMap (entryBlocks m)

/-- The blocks a verification gets to see: it ends with the first one that fails. -/
def verified (valid : Nat → Bool) (blocks : List Nat) : List Nat :=
  blocks.takeWhile valid ++ (blocks.dropWhile valid).take 1

section

variable {env : RecoverEnv} {m : ByteMem} {stop curr currP head p : Nat} {visited rest : List Nat}

theorem verified_append_of_all {valid : Nat → Bool} {bs : List Nat} (cs : List Nat) (h : bs.all valid = true) :
    verified valid (bs ++ cs) = bs ++ verified valid cs := by
  have hall : ∀ b ∈ bs, valid b = true := by simpa using h
  unfold verified
  rw [List.takeWhile_append_of_pos hall, List.dropWhile_append_of_pos hall, List.append_assoc]

theorem verified_append_of_not_all {valid : Nat → Bool} {bs cs : List Nat} (h : bs.all valid = false) :
    verified valid (bs ++ cs) = verified valid bs := by
  induction bs with
  | nil => simp at h
  | cons b bs ih =>
      unfold verified at ih ⊢
      cases hb : valid b with
      | false => simp [hb]
      | true =>
          rw [List.all_cons, hb, Bool.true_and] at h
          rw [List.cons_append, List.takeWhile_cons_of_pos hb, List.dropWhile_cons_of_pos hb,
            List.takeWhile_cons_of_pos hb, List.dropWhile_cons_of_pos hb, List.cons_append, ih h,
            List.cons_append]

theorem novaVaildDataCsum_eq (h : EntryOk m p) (hw : IsWrite m p) :
    novaVaildDataCsum env (wentry m p) =
      (verified env.verifyDataCsum (entryBlocks m p), (entryBlocks m p).all env.verifyDataCsum) := by
  have hne : entryBlocks m p ≠ [] := by simp [entryBlocks, h.pages hw]
  exact if_neg hne

/-- **The loop that verifies a transaction.** -/
theorem checkTransaction_eq (hpath : ScanPath m stop curr visited) : ∀ fuel, visited.length < fuel →
    checkTransaction env m currP fuel curr =
      .ok ⟨verified env.verifyDataCsum (transBlocks m (walked m currP curr visited).1),
        !(transBlocks m (walked m currP curr visited).1).all env.verifyDataCsum,
        !(transBlocks m (walked m currP curr visited).1).all env.verifyDataCsum ||
          (walked m currP curr visited).2⟩ := by
  induction hpath with
  | @stop curr hfrom hne hpage hend =>
      intro fuel hfuel
      obtain ⟨fuel, rfl⟩ : ∃ n, fuel = n + 1 := ⟨fuel - 1, by omega⟩
      rw [checkTransaction]
      by_cases hat : curr = currP
      · simp [hat, walked, transBlocks, writesOf, verified]
      · simp [hat, walked, transBlocks, writesOf, verified, hfrom, hend]
  | @entry curr p rest hfrom hne hpage hsize hfit hpages hrest ih =>
      intro fuel hfuel
      obtain ⟨fuel, rfl⟩ : ∃ n, fuel = n + 1 := ⟨fuel - 1, by omega⟩
      rw [checkTransaction]
      by_cases hat : curr = currP
      · simp [hat, walked, transBlocks, writesOf, verified]
      have ih := ih fuel (by simpa using hfuel)
      simp only [hat, if_false, hfrom, hsize, walked]
      generalize walked m currP (p + entrySize m p) rest = w at ih ⊢
      by_cases hw : IsWrite m p
      · have hblocks : transBlocks m (p :: w.1) = entryBlocks m p ++ transBlocks m w.1 := by
          rw [transBlocks, writesOf_write hw, List.flatMap_cons]
          rfl
        rw [if_pos hw, novaVaildDataCsum_eq ⟨hne, hsize, hfit, hpages⟩ hw, hblocks, List.all_append]
        cases hall : (entryBlocks m p).all env.verifyDataCsum with
        | true =>
            have hsplit : verified env.verifyDataCsum (entryBlocks m p ++ transBlocks m w.1) =
                verified env.verifyDataCsum (entryBlocks m p) ++
                  verified env.verifyDataCsum (transBlocks m w.1) := by
              have hself := verified_append_of_all [] hall
              rw [verified_append_of_all _ hall]
              rw [List.append_nil] at hself
              rw [hself]
              simp [verified]
            simp only [if_true, ih, Except.map, Bool.true_and, hsplit]
        | false =>
            simp only [Bool.false_eq_true, if_false, Bool.false_and, Bool.not_false, Bool.true_or]
            rw [verified_append_of_not_all hall]
      · have hblocks : transBlocks m (p :: w.1) = transBlocks m w.1 := by
          rw [transBlocks, writesOf_other hw]
          rfl
        rw [if_neg hw, ih, hblocks]

/-- What dropping these entries does. -/
def cleared (base : Nat) (t : Traverse) (ps : List Nat) : Traverse :=
  ps.foldl (fun t p => if IsWrite t.mem p then
    { t with toRecovery := novaClearFileEntryDataBlocks t.toRecovery base p } else t) t

theorem SameLog.clear {t : Traverse} (base : Nat) (hp : p ∈ visited) (hw : IsWrite t.mem p) :
    SameLog t.mem (novaClearFileEntryDataBlocks t.toRecovery base p).mem visited := by
  intro x hx
  exact setWord_of_outside (hx p hp hw)

theorem cleared_same (base : Nat) (ps : List Nat) : ∀ {t : Traverse},
    LogImage t.mem head visited stop → ps ⊆ visited → SameLog t.mem (cleared base t ps).mem visited := by
  induction ps with
  | nil => exact fun _ _ => SameLog.refl
  | cons p ps ih =>
      intro t himage hsub
      rw [cleared, List.foldl_cons]
      have hp : p ∈ visited := hsub List.mem_cons_self
      have hps : ps ⊆ visited := fun q hq => hsub (List.mem_cons_of_mem _ hq)
      by_cases hw : IsWrite t.mem p
      · rw [if_pos hw]
        have hsame := SameLog.clear base hp hw
        have hih := ih (t := { t with toRecovery := novaClearFileEntryDataBlocks t.toRecovery base p })
          (himage.same hsame) hps
        exact SameLog.trans himage hsame hih
      · rw [if_neg hw]
        exact ih himage hps

theorem cleared_vars (base : Nat) (ps : List Nat) (t : Traverse) :
    (cleared base t ps).pi = t.pi ∧ (cleared base t ps).transId = t.transId ∧
      (cleared base t ps).transCurr = t.transCurr ∧ (cleared base t ps).lastBlocknr = t.lastBlocknr ∧
      (cleared base t ps).loopEnd = t.loopEnd := by
  induction ps generalizing t with
  | nil => exact ⟨rfl, rfl, rfl, rfl, rfl⟩
  | cons p ps ih =>
      rw [cleared, List.foldl_cons]
      by_cases hw : IsWrite t.mem p
      · rw [if_pos hw]
        exact ih { t with toRecovery := novaClearFileEntryDataBlocks t.toRecovery base p }
      · rw [if_neg hw]
        exact ih t

theorem walked_subset (visited : List Nat) (curr : Nat) : (walked m currP curr visited).1 ⊆ visited := by
  induction visited generalizing curr with
  | nil => simp [walked]
  | cons p rest ih =>
      rw [walked]
      split
      · simp
      · intro q hq
        rcases List.mem_cons.mp hq with rfl | hq
        · exact List.mem_cons_self
        · exact List.mem_cons_of_mem _ (ih _ hq)

theorem walked_same {m' : ByteMem} (himage : LogImage m head visited stop) (hsame : SameLog m m' visited)
    (rest : List Nat) (hsub : rest ⊆ visited) (curr : Nat) :
    walked m' currP curr rest = walked m currP curr rest := by
  induction rest generalizing curr with
  | nil => rfl
  | cons p rest ih =>
      have hp : p ∈ visited := hsub List.mem_cons_self
      simp only [walked, entrySize_same hsame (himage.outside_entry hp),
        ih fun q hq => hsub (List.mem_cons_of_mem _ hq)]

/-- **The loop that drops a transaction.** -/
theorem clearTransaction_eq (base currP : Nat) (rest : List Nat) : ∀ {t : Traverse} {curr : Nat},
    LogImage t.mem head visited stop → ScanPath t.mem stop curr rest → Outside t.mem visited curr →
      rest ⊆ visited → ∀ fuel, rest.length < fuel →
      clearTransaction base currP fuel t curr =
        .ok { cleared base t (walked t.mem currP curr rest).1 with
          loopEnd := (walked t.mem currP curr rest).2 || t.loopEnd } := by
  induction rest with
  | nil =>
      intro t curr himage hpath hout hsub fuel hfuel
      obtain ⟨fuel, rfl⟩ : ∃ n, fuel = n + 1 := ⟨fuel - 1, by omega⟩
      rw [clearTransaction]
      by_cases hat : curr = currP
      · simp [hat, walked, cleared]
      · cases hpath with
        | stop hfrom hne hpage hend => simp [hat, walked, cleared, hfrom, hend]
  | cons p rest ih =>
      intro t curr himage hpath hout hsub fuel hfuel
      obtain ⟨fuel, rfl⟩ : ∃ n, fuel = n + 1 := ⟨fuel - 1, by omega⟩
      rw [clearTransaction]
      by_cases hat : curr = currP
      · simp [hat, walked, cleared]
      have hp : p ∈ visited := hsub List.mem_cons_self
      have hrestSub : rest ⊆ visited := fun q hq => hsub (List.mem_cons_of_mem _ hq)
      have hfuel' : rest.length < fuel := by simpa using hfuel
      cases hpath with
      | entry hfrom hne hpage hsize hfit hpages hrest =>
          simp only [hat, if_false, hfrom, hsize, walked]
          by_cases hw : IsWrite t.mem p
          · have hsame := SameLog.clear base hp hw
            have houtEnd := himage.outside_end hp
            have houtEnd' := (himage.same hsame).outside_end hp
            rw [entrySize_same hsame (himage.outside_entry hp)] at houtEnd'
            have hih := ih (t := { t with toRecovery := novaClearFileEntryDataBlocks t.toRecovery base p })
              (himage.same hsame) (himage.path_same hsame hrest hrestSub houtEnd) houtEnd' hrestSub
              fuel hfuel'
            rw [if_pos hw, hih, walked_same himage hsame rest hrestSub, cleared, cleared, List.foldl_cons,
              if_pos hw]
          · rw [if_neg hw, ih himage hrest (himage.outside_end hp) hrestSub fuel hfuel', cleared, cleared,
              List.foldl_cons, if_neg hw]

theorem markChain_eq {m : ByteMem} (pages : List Nat) : ∀ {curr : Nat} (bm : Nat → Bool),
    LinkedTo m 0 (curr :: pages) → curr % 4096 = 0 → (∀ p ∈ pages, IsPage p) → ∀ fuel,
      pages.length < fuel →
      markChain m fuel bm curr = .ok (pages.foldl (fun bm p => setBm bm (p / 4096)) bm) := by
  induction pages with
  | nil =>
      intro curr bm hlink hcurr hpages fuel hfuel
      obtain ⟨fuel, rfl⟩ : ∃ n, fuel = n + 1 := ⟨fuel - 1, by omega⟩
      have hnext : nextLogPage m curr = 0 := by
        rw [nextLogPage, blockOff, Nat.div_mul_cancel (Nat.dvd_of_mod_eq_zero hcurr)]
        exact hlink.1
      rw [markChain]
      simp [hnext]
  | cons p pages ih =>
      intro curr bm hlink hcurr hpages fuel hfuel
      obtain ⟨fuel, rfl⟩ : ∃ n, fuel = n + 1 := ⟨fuel - 1, by omega⟩
      have hnext : nextLogPage m curr = p := by
        rw [nextLogPage, blockOff, Nat.div_mul_cancel (Nat.dvd_of_mod_eq_zero hcurr)]
        exact hlink.1
      obtain ⟨hpage, hp0, -⟩ := hpages p List.mem_cons_self
      rw [markChain]
      simp only [hnext, Nat.pos_of_ne_zero hp0, if_true, hpage, ne_eq, not_true_eq_false, if_false]
      exact ih _ hlink.2 hpage (fun q hq => hpages q (List.mem_cons_of_mem _ hq)) fuel (by simpa using hfuel)

end

end Parfs
