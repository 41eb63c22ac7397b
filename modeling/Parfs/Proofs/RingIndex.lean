/-
The places of a thread's arrays that recovery uses.

Two loops are careful and one is not.  Replaying an entry clamps the entry's pages to the
window, whatever the entry says, and so does marking at the end of a window.  Dropping a
transaction does not: it goes over all pages of an entry and takes the window's base off.

That the arrays are blank again rests on the scan: a place that has a page is not behind
`last_blocknr`, and a place without a page has no entry, so the marking meets them all.  For
this no page may have block 0, the super block's, since the marking takes it for no page.
-/
import Parfs.Lib.Run
import Parfs.Proofs.RecoverTransaction
import Parfs.RingIndex

namespace Parfs

open Lib ByteMem

/-- These indices are places of the arrays. -/
def InArrays (indices : List Nat) : Prop := ∀ i ∈ indices, i < maxPgoff

section

variable {env : ThreadEnv} {r : Recovery} {t : Traverse} {run : OldRun} {ring : TaskRing}
  {base start stop pgoff numFree n p currP curr fuel : Nat} {indices indices' : List Nat}

theorem InArrays.nil : InArrays [] := by simp [InArrays]

theorem InArrays.append (h : InArrays indices) (h' : InArrays indices') : InArrays (indices ++ indices') := by
  intro i hi
  rcases List.mem_append.mp hi with hi | hi
  · exact h i hi
  · exact h' i hi

/-! ### Replaying entries into the arrays -/

/-- A page of the window has its place in the arrays. -/
theorem index_lt (hpos : base + maxPgoff < 2 ^ 64) (hbase : base ≤ pgoff) (hstop : pgoff < base + maxPgoff) :
    subU64 pgoff base < maxPgoff := by
  rw [subU64_of_le hbase (by omega)]
  omega

theorem checkOldIndices_inArrays (hpos : base + maxPgoff < 2 ^ 64) (hbase : base ≤ pgoff)
    (hstop : pgoff + numFree ≤ base + maxPgoff) : InArrays (checkOldIndices base pgoff numFree) := by
  intro i hi
  obtain ⟨j, hj, rfl⟩ := List.mem_map.mp hi
  have hj := List.mem_range.mp hj
  exact index_lt hpos (by omega) (by omega)

/-- The run that is gathered lies between the window's base and the page the loop has come to. -/
def OldRun.Behind (run : OldRun) (base pgoff : Nat) : Prop :=
  run.oldEntry ≠ 0 → base ≤ run.oldPgoff ∧ run.oldPgoff + run.numFree ≤ pgoff

theorem OldRun.Behind.gather (h : run.Behind base pgoff) (hbase : base ≤ pgoff) :
    (gatherOld ring base run pgoff).Behind base (pgoff + 1) := by
  intro hold
  unfold gatherOld at hold ⊢
  dsimp only at hold ⊢
  by_cases hpage : ring.nvmmArray (pgoff - base) ≠ 0
  · rw [if_pos hpage] at hold ⊢
    by_cases hentry : ring.entryArray (pgoff - base) ≠ run.oldEntry
    · rw [if_pos hentry]
      exact ⟨hbase, le_refl _⟩
    · rw [if_neg hentry] at hold ⊢
      obtain ⟨hle, hend⟩ := h hold
      exact ⟨hle, Nat.succ_le_succ hend⟩
  · rw [if_neg hpage] at hold ⊢
    obtain ⟨hle, hend⟩ := h hold
    exact ⟨hle, by omega⟩

/-- The loop over pages of the window uses places of the arrays only. -/
theorem gatherIndices_inArrays (hpos : base + maxPgoff < 2 ^ 64) : ∀ {start : Nat} {run : OldRun}, base ≤ start →
    start + n ≤ base + maxPgoff → run.Behind base start →
    InArrays (gatherIndices ring base run (List.range' start n)) := by
  induction n with
  | zero =>
      intro start run hbase hstop hrun
      simp only [List.range'_zero, gatherIndices]
      by_cases hold : run.oldEntry ≠ 0
      · rw [if_pos hold]
        obtain ⟨hle, hend⟩ := hrun hold
        exact checkOldIndices_inArrays hpos hle (by omega)
      · rw [if_neg hold]
        exact InArrays.nil
  | succ n ih =>
      intro start run hbase hstop hrun
      rw [List.range'_succ, gatherIndices]
      have hrest : InArrays (gatherIndices ring base (gatherOld ring base run start) (List.range' (start + 1) n)) :=
        ih (by omega) (by omega) (hrun.gather hbase)
      intro i hi
      rcases List.mem_cons.mp hi with rfl | hi
      · exact index_lt hpos hbase (by omega)
      · refine InArrays.append ?_ hrest i hi
        split
        · rename_i hswitch
          obtain ⟨hle, hend⟩ := hrun hswitch.2.2
          exact checkOldIndices_inArrays hpos hle (by omega)
        · exact InArrays.nil

theorem replaceIndices_inArrays (hpos : base + maxPgoff < 2 ^ 64) (hbase : base ≤ start)
    (hstop : stop ≤ base + maxPgoff) : InArrays (replaceIndices ring base start stop) := by
  unfold replaceIndices
  dsimp only
  by_cases hempty : stop ≤ start
  · rw [Nat.sub_eq_zero_of_le hempty]
    simp [gatherIndices, InArrays]
  · refine InArrays.append (gatherIndices_inArrays hpos hbase (by omega) fun h => absurd rfl h) fun i hi => ?_
    obtain ⟨pgoff, hpgoff, rfl⟩ := List.mem_map.mp hi
    obtain ⟨hle, hlt⟩ := List.mem_range'_1.mp hpgoff
    exact index_lt hpos (by omega) (by omega)

/-- **An entry is replayed inside the arrays**, whatever it says. -/
theorem Traverse.handleIndices_inArrays (t : Traverse) (p : Nat) (hpos : base + maxPgoff < 2 ^ 64) :
    InArrays (t.handleIndices base p) := by
  have hmax : 0 < maxPgoff := by decide
  unfold Traverse.handleIndices
  split
  · unfold novaRingSetattrEntryIndices
    dsimp only
    split
    · exact InArrays.nil
    split
    · exact InArrays.nil
    · exact replaceIndices_inArrays hpos (le_max_right _ _) (by omega)
  split
  · unfold novaTraverseFileWriteEntryIndices
    dsimp only
    split
    · exact replaceIndices_inArrays hpos (le_max_right _ _) (min_le_right _ _)
    · exact InArrays.nil
  · exact InArrays.nil

theorem scanIndices_inArrays (hpos : base + maxPgoff < 2 ^ 64) :
    InArrays (scanIndices env base fuel t curr) := by
  induction fuel generalizing t curr with
  | zero => exact InArrays.nil
  | succ fuel ih =>
      rw [scanIndices]
      dsimp only
      split
      · exact InArrays.nil
      split
      · exact InArrays.nil
      split
      · exact InArrays.nil
      · refine InArrays.append (Traverse.handleIndices_inArrays _ _ hpos) ?_
        split
        · exact InArrays.nil
        · exact ih

theorem novaSetFileBmIndices_inArrays {last : Nat} (hbase : base ≤ last) (hlast : last < 2 ^ 64) :
    InArrays (novaSetFileBmIndices base last) := by
  have hmax : 0 < maxPgoff := by decide
  intro i hi
  have hi := List.mem_range.mp hi
  split at hi
  · omega
  · rw [subU64_of_le hbase hlast] at hi
    omega

end

/-! ### What is in the arrays -/

/-- The arrays as a file finds them. -/
def TaskRing.Blank (ring : TaskRing) : Prop :=
  ∀ i < maxPgoff, ring.nvmmArray i = 0 ∧ ring.entryArray i = 0

/-- The marking up to the page `last` meets all that is in the arrays. -/
def TaskRing.Covered (ring : TaskRing) (base last : Nat) : Prop :=
  ∀ i < maxPgoff, (ring.entryArray i ≠ 0 → ring.nvmmArray i ≠ 0) ∧ (ring.nvmmArray i ≠ 0 → base + i ≤ last)

/-- Places are cleared and nothing else. -/
def TaskRing.Less (ring ring' : TaskRing) : Prop :=
  ∀ i, (ring'.nvmmArray i = ring.nvmmArray i ∧ ring'.entryArray i = ring.entryArray i) ∨
    (ring'.nvmmArray i = 0 ∧ ring'.entryArray i = 0)

section

variable {env : RecoverEnv} {r : Recovery} {t t' : Traverse} {ring ring' ring'' : TaskRing}
  {base last last' p currP curr fuel : Nat} {visited ps : List Nat}

theorem TaskRing.Blank.covered (h : ring.Blank) : ring.Covered base last := by
  intro i hi
  obtain ⟨hnvmm, hentry⟩ := h i hi
  exact ⟨fun hne => absurd hentry hne, fun hne => absurd hnvmm hne⟩

theorem TaskRing.Covered.mono (h : ring.Covered base last) (hle : last ≤ last') : ring.Covered base last' := by
  intro i hi
  obtain ⟨hentry, hnvmm⟩ := h i hi
  exact ⟨hentry, fun hne => le_trans (hnvmm hne) hle⟩

theorem TaskRing.Covered.less (h : ring.Covered base last) (hless : ring.Less ring') : ring'.Covered base last := by
  intro i hi
  obtain ⟨hentry, hnvmm⟩ := h i hi
  rcases hless i with ⟨hsame, hsame'⟩ | ⟨hzero, hzero'⟩
  · rw [hsame, hsame']
    exact ⟨hentry, hnvmm⟩
  · exact ⟨fun hne => absurd hzero' hne, fun hne => absurd hzero hne⟩

theorem TaskRing.Less.refl : ring.Less ring := fun _ => Or.inl ⟨rfl, rfl⟩

theorem TaskRing.Less.trans (h : ring.Less ring') (h' : ring'.Less ring'') : ring.Less ring'' := by
  intro i
  rcases h' i with ⟨hsame, hsame'⟩ | hzero
  · rw [hsame, hsame']
    exact h i
  · exact Or.inr hzero

/-- A truncate takes pages out. -/
theorem novaRingSetattrEntry_less (r : Recovery) (base p : Nat) :
    r.ring.Less (novaRingSetattrEntry r base p).ring := by
  unfold novaRingSetattrEntry
  dsimp only
  split
  · exact TaskRing.Less.refl
  split
  · exact TaskRing.Less.refl
  · intro i
    dsimp only
    split
    · exact Or.inr ⟨rfl, rfl⟩
    · exact Or.inl ⟨rfl, rfl⟩

/-- A write puts its pages in, none of them behind the largest offset it answers with. -/
theorem novaTraverseFileWriteEntry_covered (h : r.ring.Covered base last) (hblock : (wentry r.mem p).blocknr ≠ 0) :
    (novaTraverseFileWriteEntry r base p).1.ring.Covered base
      (max last (novaTraverseFileWriteEntry r base p).2) := by
  unfold novaTraverseFileWriteEntry
  dsimp only
  split
  · split
    · intro i hi
      unfold novaSetRingArray
      dsimp only
      split
      · rename_i hinside
        refine ⟨fun _ => ?_, fun _ => ?_⟩
        · unfold getNvmm
          omega
        · omega
      · obtain ⟨hentry, hnvmm⟩ := h i hi
        exact ⟨hentry, fun hne => le_trans (hnvmm hne) (le_max_left _ _)⟩
    · exact TaskRing.Covered.mono h (le_max_left _ _)
  · exact TaskRing.Covered.mono h (le_max_left _ _)

theorem Traverse.handle_covered (h : t.ring.Covered base t.lastBlocknr)
    (hblock : IsWrite t.mem p → (wentry t.mem p).blocknr ≠ 0) :
    (t.handle base p).ring.Covered base (t.handle base p).lastBlocknr := by
  unfold Traverse.handle
  by_cases hattr : novaGetEntryType t.mem p = NovaEntryType.setAttr.code
  · rw [if_pos hattr]
    exact h.less (novaRingSetattrEntry_less _ _ _)
  rw [if_neg hattr]
  by_cases hw : IsWrite t.mem p
  · rw [if_pos hw]
    have hmax : ∀ s : Traverse, s.mem = t.mem → s.ring = t.ring → s.lastBlocknr = t.lastBlocknr →
        (novaTraverseFileWriteEntry s.toRecovery base p).1.ring.Covered base
          (if s.lastBlocknr < (novaTraverseFileWriteEntry s.toRecovery base p).2 then
            (novaTraverseFileWriteEntry s.toRecovery base p).2 else s.lastBlocknr) := by
      intro s hmem hring hlast
      have hcovered : s.ring.Covered base s.lastBlocknr := by
        rw [hring, hlast]
        exact h
      have hafter := novaTraverseFileWriteEntry_covered (p := p) hcovered (by rw [hmem]; exact hblock hw)
      refine hafter.mono ?_
      split
      · omega
      · omega
    dsimp only
    split
    · exact hmax { t with transId := _, transCurr := p } rfl rfl rfl
    · exact hmax t rfl rfl rfl
  · rw [if_neg hw]
    exact h

theorem Traverse.markJump_ring : (t.markJump base curr).ring = t.ring := by
  obtain ⟨bm, h⟩ := t.markJump_eq base curr
  rw [h]

theorem scanned_covered (visited : List Nat) : ∀ {t : Traverse} {curr : Nat}, t.ring.Covered base t.lastBlocknr →
    (∀ p ∈ visited, IsWrite t.mem p → (wentry t.mem p).blocknr ≠ 0) →
    (scanned base t curr visited).ring.Covered base (scanned base t curr visited).lastBlocknr := by
  induction visited with
  | nil =>
      intro t curr h hblock
      simp only [scanned, Traverse.markJump_ring, Traverse.markJump_lastBlocknr]
      exact h
  | cons p rest ih =>
      intro t curr h hblock
      have hmem : ((t.markJump base curr).handle base p).mem = t.mem :=
        ((t.markJump base curr).handle_eq base p).1.trans Traverse.markJump_mem
      have hjump : (t.markJump base curr).ring.Covered base (t.markJump base curr).lastBlocknr := by
        rw [Traverse.markJump_ring, Traverse.markJump_lastBlocknr]
        exact h
      rw [scanned]
      refine ih (Traverse.handle_covered hjump ?_) ?_
      · rw [Traverse.markJump_mem]
        exact hblock p List.mem_cons_self
      · rw [hmem]
        exact fun q hq => hblock q (List.mem_cons_of_mem _ hq)

/-- Dropping a transaction takes pages out. -/
theorem clearTransaction_less : ∀ {t : Traverse} {curr : Nat},
    clearTransaction base currP fuel t curr = .ok t' → t.ring.Less t'.ring := by
  induction fuel with
  | zero =>
      intro t curr h
      cases h
  | succ fuel ih =>
      intro t curr h
      rw [clearTransaction] at h
      by_cases hat : curr = currP
      · rw [if_pos hat] at h
        cases h
        exact TaskRing.Less.refl
      rw [if_neg hat] at h
      dsimp only at h
      cases hsize : scanEntrySize t.mem (scanFrom t.mem curr) .file with
      | none =>
          rw [hsize] at h
          cases h
          exact TaskRing.Less.refl
      | some size =>
          rw [hsize] at h
          dsimp only at h
          refine TaskRing.Less.trans ?_ (ih h)
          split
          · intro i
            unfold novaClearFileEntryDataBlocks
            dsimp only
            split
            · exact Or.inr ⟨rfl, rfl⟩
            · exact Or.inl ⟨rfl, rfl⟩
          · exact TaskRing.Less.refl

theorem latestTransaction_less {pass : TraversePass}
    (h : latestTransaction env fuel base t currP = .ok (t', pass)) : t.ring.Less t'.ring := by
  unfold latestTransaction at h
  by_cases hckpt : ckptId ≠ t.transId
  · rw [if_pos hckpt] at h
    cases hcheck : checkTransaction env t.mem currP fuel t.transCurr with
    | error f =>
        rw [hcheck] at h
        cases h
    | ok c =>
        rw [hcheck] at h
        simp only [Except.bind] at h
        split at h
        · cases hclear : clearTransaction base currP fuel { t with
              pi := { t.pi with recoveryLatestTransInvalid := true }, loopEnd := false } t.transCurr with
          | error f =>
              rw [hclear] at h
              cases h
          | ok s =>
              rw [hclear] at h
              obtain ⟨rfl, -⟩ := Prod.mk.inj (Except.ok.inj h)
              have hless := clearTransaction_less hclear
              exact hless
        · obtain ⟨rfl, -⟩ := Prod.mk.inj (Except.ok.inj h)
          exact TaskRing.Less.refl
  · rw [if_neg hckpt] at h
    obtain ⟨rfl, -⟩ := Prod.mk.inj (Except.ok.inj h)
    exact TaskRing.Less.refl

/-- **The marking leaves the arrays blank** when it meets all that is in them. -/
theorem novaSetFileBm_blank (h : r.ring.Covered base last) : (novaSetFileBm r base last).ring.Blank := by
  have hmax : 0 < maxPgoff := by decide
  intro i hi
  obtain ⟨hentry, hnvmm⟩ := h i hi
  unfold novaSetFileBm
  dsimp only
  by_cases hpage : r.ring.nvmmArray i ≠ 0
  · have hle := hnvmm hpage
    have hlast : i ≤ (if last ≥ base + maxPgoff then maxPgoff - 1 else last - base) := by
      split
      · omega
      · omega
    rw [if_pos ⟨hlast, hpage⟩, if_pos ⟨hlast, hpage⟩]
    exact ⟨rfl, rfl⟩
  · have hnone : r.ring.entryArray i = 0 := by
      by_contra hne
      exact hpage (hentry hne)
    rw [if_neg fun hboth => hpage hboth.2, if_neg fun hboth => hpage hboth.2]
    exact ⟨not_not.mp hpage, hnone⟩

end

/-! ### The log of a file -/

/-- A log as a scan meets it. -/
structure ScannedLog where
  /-- its entries -/
  visited : List Nat
  /-- where there is no entry any more -/
  stop : Nat

/-- The log is in memory, its pages are those of a file, and none of its data blocks is the super
block. -/
structure ScannedLog.Ok (log : ScannedLog) (m : ByteMem) (head : Nat) : Prop where
  image : LogImage m head log.visited log.stop
  pages : Bounded m log.visited (2 ^ 52)
  blocks : ∀ p ∈ log.visited, IsWrite m p → (wentry m p).blocknr ≠ 0

namespace ScannedLog

variable (log : ScannedLog) (t : Traverse)

/-- The entries a window goes over.  A window that is told to end goes over the first one. -/
def entries : List Nat := if t.loopEnd then log.visited.take 1 else log.visited

/-- The places a window looks at. -/
def places : List Nat :=
  if t.loopEnd then (log.visited ++ [log.stop]).take 1 else log.visited ++ [log.stop]

/-- Where the scan of a window ends. -/
def tail : Nat := if t.loopEnd then (log.visited.head?.map fun p => p + entrySize t.mem p).getD log.stop else log.stop

/-- `sih->trans_id` and `trans_curr` behind the scan of a window. -/
def found : Nat × Nat :=
  (writesOf t.mem (log.entries t)).foldl (trackRun (transIdOf t.mem)) (t.transId, t.transCurr)

/-- The entries that the loops over the last transaction go over. -/
def region : List Nat :=
  (walked t.mem (log.tail t) (log.found t).2 (log.visited.dropWhile fun p => decide (p ≠ (log.found t).2))).1

end ScannedLog

/-- What a window needs: every place it looks at passes verification, `trans_curr` is assigned
if it is used, and a transaction that is dropped has its pages in the window. -/
structure WindowOk (env : ThreadEnv) (log : ScannedLog) (t : Traverse) (base : Nat) : Prop where
  csum : ∀ p ∈ log.places t, env.verifyEntryCsum t.mem p = true
  start : (log.found t).1 = ckptId ∨ (log.found t).2 ∈ log.visited
  drop : (log.found t).1 = ckptId ∨ (transBlocks t.mem (log.region t)).all env.verifyDataCsum = true ∨
    ∀ p ∈ log.region t, IsWrite t.mem p →
      base ≤ (wentry t.mem p).pgoff ∧ (wentry t.mem p).pgoff + (wentry t.mem p).numPages ≤ base + maxPgoff

section

variable {env : ThreadEnv} {log : ScannedLog} {t t' ts : Traverse} {m m' : ByteMem}
  {base head stop p currP curr fuel : Nat} {visited rest before : List Nat}

theorem ScannedLog.Ok.same (h : log.Ok m head) (hsame : SameLog m m' log.visited) : log.Ok m' head := by
  refine ⟨h.image.same hsame, fun p hp hw => ?_, fun p hp hw => ?_⟩
  · have hw := (isWrite_same hsame (h.image.outside_entry hp)).mp hw
    rw [h.image.wentry_same hsame hp hw]
    exact h.pages p hp hw
  · have hw := (isWrite_same hsame (h.image.outside_entry hp)).mp hw
    rw [h.image.wentry_same hsame hp hw]
    exact h.blocks p hp hw

/-- A scan of places that pass verification is the scan without it. -/
theorem verifiedScan_all (env : ThreadEnv) (base : Nat) (hpath : ScanPath m stop curr visited) : ∀ {t : Traverse}, t.mem = m →
    visited = [] ∨ t.loopEnd = false → (∀ p ∈ visited ++ [stop], env.verifyEntryCsum m p = true) →
    ∀ fuel, visited.length < fuel →
    verifiedScan env base fuel t curr = .ok (scanned base t curr visited, some stop) := by
  induction hpath with
  | @stop curr hfrom hne hpage hend =>
      intro t hmem hloop hcsum fuel hfuel
      obtain ⟨fuel, rfl⟩ : ∃ n, fuel = n + 1 := ⟨fuel - 1, by omega⟩
      have hok := hcsum stop (by simp)
      rw [verifiedScan]
      simp only [Traverse.markJump_mem, hmem, hfrom, hne, hend, or_false, hok, Bool.true_eq_false, if_false]
      rw [if_neg fun h => h.2.2 (hpage h.1), scanned]
  | @entry curr p rest hfrom hne hpage hsize hfit hpages hrest ih =>
      intro t hmem hloop hcsum fuel hfuel
      obtain ⟨fuel, rfl⟩ : ∃ n, fuel = n + 1 := ⟨fuel - 1, by omega⟩
      obtain ⟨hmem', -, hloop', -⟩ := (t.markJump base curr).handle_eq base p
      rw [Traverse.markJump_mem, hmem] at hmem'
      rw [Traverse.markJump_loopEnd, hloop.resolve_left (List.cons_ne_nil _ _)] at hloop'
      have hok := hcsum p (by simp)
      rw [verifiedScan]
      simp only [Traverse.markJump_mem, hmem, hfrom, hne, or_false, hok, Bool.true_eq_false, if_false, hsize, hloop',
        Bool.false_eq_true]
      rw [if_neg fun h => h.2.2 (hpage h.1), ih hmem' (Or.inr hloop') (fun q hq => hcsum q (List.mem_cons_of_mem _ hq)) fuel
        (by simpa using hfuel), scanned, hmem]

theorem verifiedScan_first (base : Nat) (hpath : ScanPath m stop curr (p :: rest)) (hmem : t.mem = m)
    (hloop : t.loopEnd = true) (hcsum : env.verifyEntryCsum m p = true) (fuel : Nat) :
    verifiedScan env base (fuel + 1) t curr =
      .ok ((t.markJump base curr).handle base p, some (p + entrySize m p)) := by
  cases hpath with
  | entry hfrom hne hpage hsize hfit hpages hrest =>
      obtain ⟨-, -, hloop', -⟩ := (t.markJump base curr).handle_eq base p
      rw [Traverse.markJump_loopEnd, hloop] at hloop'
      rw [verifiedScan]
      simp only [Traverse.markJump_mem, hmem, hfrom, hne, or_false, hcsum, Bool.true_eq_false, if_false, hsize, hloop',
        if_true]
      rw [if_neg fun h => h.2.2 (hpage h.1)]

/-- A scan that does not return early is the scan without verification. -/
theorem verifiedScan_some : ∀ {t : Traverse} {curr : Nat},
    verifiedScan env base fuel t curr = .ok (ts, some currP) → traverseScan base fuel t curr = .ok (ts, currP) := by
  induction fuel with
  | zero =>
      intro t curr h
      cases h
  | succ fuel ih =>
      intro t curr h
      rw [verifiedScan] at h
      rw [traverseScan]
      dsimp only at h ⊢
      split at h
      · cases h
      rename_i hbug
      obtain ⟨hpage, hne⟩ := not_or.mp hbug
      rw [if_neg hpage, if_neg hne]
      split at h
      · cases h
      cases hsize : scanEntrySize (t.markJump base curr).mem (scanFrom t.mem curr) .file with
      | none =>
          rw [hsize] at h
          obtain ⟨rfl, hend⟩ := Prod.mk.inj (Except.ok.inj h)
          rw [← Option.some.inj hend]
      | some size =>
          rw [hsize] at h
          dsimp only at h ⊢
          split at h
          · rename_i hloop
            obtain ⟨rfl, hend⟩ := Prod.mk.inj (Except.ok.inj h)
            rw [if_pos hloop, ← Option.some.inj hend]
          · rename_i hloop
            rw [if_neg hloop]
            exact ih h

/-- What a window's scan comes to. -/
structure ScanOk (env : ThreadEnv) (log : ScannedLog) (t ts : Traverse) (base fuel : Nat) : Prop where
  verified : verifiedScan env base fuel (t.markHead base) t.pi.logHead = .ok (ts, some (log.tail t))
  plain : traverseScan base fuel (t.markHead base) t.pi.logHead = .ok (ts, log.tail t)
  mem : ts.mem = t.mem
  pi : ts.pi = t.pi
  vars : (ts.transId, ts.transCurr) = log.found t
  last : t.lastBlocknr ≤ ts.lastBlocknr
  bound : ts.lastBlocknr ≤ 2 ^ 52
  covered : ts.ring.Covered base ts.lastBlocknr

theorem Traverse.markHead_eq (t : Traverse) (base : Nat) : ∃ bm, t.markHead base = { t with bm := bm } := by
  unfold Traverse.markHead
  split
  · exact ⟨_, rfl⟩
  · exact ⟨t.bm, rfl⟩

/-- A window that is told to end and that has an entry. -/
theorem ScannedLog.Ok.scan_first (h : log.Ok t.mem t.pi.logHead) (hvisited : log.visited = p :: rest)
    (hloop : t.loopEnd = true) (hcsum : env.verifyEntryCsum t.mem p = true) (hblank : t.ring.Blank)
    (hbound : t.lastBlocknr ≤ 2 ^ 52) (hfuel : log.visited.length < fuel) :
    ∃ ts, ScanOk env log t ts base fuel := by
  obtain ⟨fuel, rfl⟩ : ∃ n, fuel = n + 1 := ⟨fuel - 1, by omega⟩
  obtain ⟨bm, hmark⟩ := t.markHead_eq base
  generalize hhead : t.markHead base = t₁ at hmark
  have hp : p ∈ log.visited := by simp [hvisited]
  have hmem₁ : t₁.mem = t.mem := by rw [hmark]
  have hloop₁ : t₁.loopEnd = true := by rw [hmark]; exact hloop
  have hjump : (t₁.markJump base t.pi.logHead).ring.Covered base (t₁.markJump base t.pi.logHead).lastBlocknr := by
    rw [Traverse.markJump_ring, hmark]
    exact hblank.covered
  have hscan := verifiedScan_first base (hvisited ▸ h.image.path) hmem₁ hloop₁ hcsum fuel
  have htail : log.tail t = p + entrySize t.mem p := by simp [ScannedLog.tail, hloop, hvisited]
  obtain ⟨hmem, hpi, -, hlast, hvars⟩ := (t₁.markJump base t.pi.logHead).handle_eq base p
  have hcovered := Traverse.handle_covered (p := p) hjump fun hw => by
    rw [Traverse.markJump_mem, hmem₁] at hw ⊢
    exact h.blocks p hp hw
  generalize (t₁.markJump base t.pi.logHead).handle base p = ts at hmem hpi hlast hvars hscan hcovered
  rw [Traverse.markJump_mem, hmem₁] at hmem
  rw [Traverse.markJump_pi, hmark] at hpi
  rw [Traverse.markJump_mem, Traverse.markJump_lastBlocknr, hmem₁, hmark] at hlast
  rw [Traverse.markJump_mem, Traverse.markJump_transId, Traverse.markJump_transCurr, hmem₁, hmark] at hvars
  refine ⟨ts, ⟨?_, ?_, hmem, hpi, ?_, ?_, ?_, hcovered⟩⟩
  · rw [hhead, htail]
    exact hscan
  · rw [hhead, htail]
    exact verifiedScan_some hscan
  · rw [hvars]
    simp only [ScannedLog.found, ScannedLog.entries, hloop, if_true, hvisited, List.take_succ_cons, List.take_zero]
    by_cases hw : IsWrite t.mem p
    · rw [if_pos hw, writesOf_write hw, List.foldl_cons]
      simp only [writesOf, List.filter_nil, List.foldl_nil]
    · rw [if_neg hw, writesOf_other hw]
      simp only [writesOf, List.filter_nil, List.foldl_nil]
  · rw [hlast]
    exact le_max_left _ _
  · rw [hlast]
    exact max_le hbound (h.image.entryLast_le SameLog.refl h.pages hp)

/-- A window that goes over the whole log. -/
theorem ScannedLog.Ok.scan_all (h : log.Ok t.mem t.pi.logHead) (hloop : log.visited = [] ∨ t.loopEnd = false)
    (hcsum : ∀ p ∈ log.places t, env.verifyEntryCsum t.mem p = true) (hblank : t.ring.Blank)
    (hbound : t.lastBlocknr ≤ 2 ^ 52) (hfuel : log.visited.length < fuel) :
    ∃ ts, ScanOk env log t ts base fuel := by
  obtain ⟨bm, hmark⟩ := t.markHead_eq base
  generalize hhead : t.markHead base = t₁ at hmark
  have hmem₁ : t₁.mem = t.mem := by rw [hmark]
  have hloop₁ : log.visited = [] ∨ t₁.loopEnd = false := by rw [hmark]; exact hloop
  have hentries : log.entries t = log.visited := by
    rcases hloop with hnil | hloop
    · simp [ScannedLog.entries, hnil]
    · simp [ScannedLog.entries, hloop]
  have hplaces : log.places t = log.visited ++ [log.stop] := by
    rcases hloop with hnil | hloop
    · simp [ScannedLog.places, hnil]
    · simp [ScannedLog.places, hloop]
  have htail : log.tail t = log.stop := by
    rcases hloop with hnil | hloop
    · simp [ScannedLog.tail, hnil]
    · simp [ScannedLog.tail, hloop]
  rw [hplaces] at hcsum
  have hscan := verifiedScan_all env base h.image.path hmem₁ hloop₁ hcsum fuel hfuel
  obtain ⟨hmem, hpi, hlast, hvars⟩ := scanned_eq base log.visited t₁ t.pi.logHead
  have hcovered : (scanned base t₁ t.pi.logHead log.visited).ring.Covered base
      (scanned base t₁ t.pi.logHead log.visited).lastBlocknr := by
    refine scanned_covered log.visited ?_ ?_
    · rw [hmark]
      exact hblank.covered
    · rw [hmem₁]
      exact h.blocks
  generalize scanned base t₁ t.pi.logHead log.visited = ts at hmem hpi hlast hvars hscan hcovered
  rw [hmem₁] at hmem
  rw [hmark] at hpi
  rw [hmem₁, hmark] at hlast
  rw [hmem₁, hmark] at hvars
  refine ⟨ts, ⟨?_, ?_, hmem, hpi, ?_, ?_, ?_, hcovered⟩⟩
  · rw [hhead, htail]
    exact hscan
  · rw [hhead, htail]
    exact verifiedScan_some hscan
  · rw [hvars, ScannedLog.found, hentries]
  · rw [hlast]
    exact le_foldl_max _ _ _
  · rw [hlast]
    exact foldl_max_le hbound fun p hp => h.image.entryLast_le SameLog.refl h.pages hp

/-- **The scan of a window** finds the last transaction and fills the arrays. -/
theorem ScannedLog.Ok.scan (h : log.Ok t.mem t.pi.logHead) (hwindow : WindowOk env log t base)
    (hblank : t.ring.Blank) (hbound : t.lastBlocknr ≤ 2 ^ 52) (hfuel : log.visited.length < fuel) :
    ∃ ts, ScanOk env log t ts base fuel := by
  by_cases hwhole : log.visited = [] ∨ t.loopEnd = false
  · exact h.scan_all hwhole hwindow.csum hblank hbound hfuel
  · obtain ⟨hne, hloop⟩ := not_or.mp hwhole
    obtain ⟨p, rest, hvisited⟩ := List.exists_cons_of_ne_nil hne
    have hloop : t.loopEnd = true := Bool.eq_true_of_not_eq_false hloop
    exact h.scan_first hvisited hloop (hwindow.csum p (by simp [ScannedLog.places, hloop, hvisited])) hblank hbound hfuel

/-! ### The end of a window -/

theorem dropWhile_of_mem (h : p ∈ visited) :
    ∃ before rest, visited = before ++ p :: rest ∧ visited.dropWhile (fun q => decide (q ≠ p)) = p :: rest := by
  induction visited with
  | nil => simp at h
  | cons q visited ih =>
      by_cases hq : q = p
      · subst hq
        exact ⟨[], visited, rfl, by simp⟩
      · have hmem : p ∈ visited := (List.mem_cons.mp h).resolve_left fun hpq => hq hpq.symm
        obtain ⟨before, rest, hsplit, hdrop⟩ := ih hmem
        refine ⟨q :: before, rest, by rw [hsplit]; rfl, ?_⟩
        rw [List.dropWhile_cons_of_pos (by simpa using hq)]
        exact hdrop

/-- **Dropping a transaction uses the places of its entries' pages**, wherever these are. -/
theorem clearIndices_sub (base currP : Nat) (rest : List Nat) : ∀ {t : Traverse} {curr fuel : Nat},
    LogImage t.mem head visited stop → ScanPath t.mem stop curr rest → rest ⊆ visited →
    ∀ i ∈ clearIndices base currP fuel t curr, ∃ p ∈ (walked t.mem currP curr rest).1,
      IsWrite t.mem p ∧ i ∈ novaClearFileEntryDataBlocksIndices t.mem base p := by
  induction rest with
  | nil =>
      intro t curr fuel himage hpath hsub i hi
      cases fuel with
      | zero => cases hi
      | succ fuel =>
          rw [clearIndices] at hi
          cases hpath with
          | stop hfrom hne hpage hend => simp [hfrom, hend] at hi
  | cons p rest ih =>
      intro t curr fuel himage hpath hsub i hi
      cases fuel with
      | zero => cases hi
      | succ fuel =>
          rw [clearIndices] at hi
          by_cases hat : curr = currP
          · rw [if_pos hat] at hi
            cases hi
          have hp : p ∈ visited := hsub List.mem_cons_self
          have hrestSub : rest ⊆ visited := fun q hq => hsub (List.mem_cons_of_mem _ hq)
          cases hpath with
          | entry hfrom hne hpage hsize hfit hpages hrest =>
              simp only [hat, if_false, hfrom, hsize] at hi
              simp only [walked, hat, if_false]
              by_cases hw : IsWrite t.mem p
              · rw [if_pos hw] at hi
                rcases List.mem_append.mp hi with hi | hi
                · exact ⟨p, List.mem_cons_self, hw, hi⟩
                have hsame := SameLog.clear base hp hw
                have hrest' := himage.path_same hsame hrest hrestSub (himage.outside_end hp)
                obtain ⟨q, hq, hwq, hiq⟩ := ih (himage.same hsame) hrest' hrestSub i hi
                rw [walked_same himage hsame rest hrestSub] at hq
                have hqv : q ∈ visited := hrestSub (walked_subset _ _ hq)
                have hwq := (isWrite_same hsame (himage.outside_entry hqv)).mp hwq
                refine ⟨q, List.mem_cons_of_mem _ hq, hwq, ?_⟩
                unfold novaClearFileEntryDataBlocksIndices at hiq ⊢
                rw [himage.wentry_same hsame hqv hwq] at hiq
                exact hiq
              · rw [if_neg hw] at hi
                obtain ⟨q, hq, hwq, hiq⟩ := ih himage hrest hrestSub i hi
                exact ⟨q, List.mem_cons_of_mem _ hq, hwq, hiq⟩

theorem ScannedLog.Ok.latestIndices_inArrays (h : log.Ok t.mem t.pi.logHead) (hwindow : WindowOk env log t base)
    (hscan : ScanOk env log t ts base fuel) (hpos : base + maxPgoff < 2 ^ 64) (hfuel : log.visited.length < fuel) :
    InArrays (latestIndices env.toRecoverEnv fuel base ts (log.tail t)) := by
  have htrans : ts.transId = (log.found t).1 := congrArg Prod.fst hscan.vars
  have hcurr : ts.transCurr = (log.found t).2 := congrArg Prod.snd hscan.vars
  unfold latestIndices
  by_cases hckpt : ckptId ≠ ts.transId
  · rw [if_pos hckpt, hcurr, hscan.mem]
    rw [htrans] at hckpt
    have hstart := hwindow.start.resolve_left fun heq => hckpt heq.symm
    obtain ⟨before, rest, hsplit, hdrop⟩ := dropWhile_of_mem hstart
    have himage := h.image
    rw [hsplit] at himage
    have hpath := himage.path.suffix
    have hlen : (before ++ (log.found t).2 :: rest).length < fuel := hsplit ▸ hfuel
    rw [checkTransaction_eq hpath fuel (by simp at hlen ⊢; omega)]
    dsimp only
    have hregion : (walked t.mem (log.tail t) (log.found t).2 ((log.found t).2 :: rest)).1 = log.region t := by
      rw [ScannedLog.region, hdrop]
    rw [hregion]
    cases hall : (transBlocks t.mem (log.region t)).all env.verifyDataCsum with
    | true => exact InArrays.nil
    | false =>
        have hinside := (hwindow.drop.resolve_left fun heq => hckpt heq.symm).resolve_left (by simp [hall])
        simp only [Bool.not_false, if_true]
        intro i hi
        obtain ⟨p, hp, hw, hip⟩ := clearIndices_sub base (log.tail t) _ (hscan.mem ▸ himage) (hscan.mem ▸ hpath)
          (List.subset_append_right _ _) i hi
        rw [hscan.mem] at hp hw hip
        rw [hregion] at hp
        obtain ⟨hle, hend⟩ := hinside p hp hw
        obtain ⟨j, hj, rfl⟩ := List.mem_map.mp hip
        have hj := List.mem_range.mp hj
        exact index_lt hpos (by omega) (by omega)
  · rw [if_neg hckpt]
    exact InArrays.nil

/-- **A window uses places of the arrays only.** -/
theorem ScannedLog.Ok.windowIndices_inArrays (h : log.Ok t.mem t.pi.logHead) (hwindow : WindowOk env log t base)
    (hblank : t.ring.Blank) (hbase : base ≤ t.lastBlocknr) (hbound : t.lastBlocknr ≤ 2 ^ 52)
    (hfuel : log.visited.length < fuel) : InArrays (windowIndices env fuel base t) := by
  have hmax : maxPgoff = 262144 := rfl
  obtain ⟨ts, hscan⟩ := h.scan hwindow hblank hbound hfuel
  have hpos : base + maxPgoff < 2 ^ 64 := by omega
  have hlast := hscan.last
  have hlast' := hscan.bound
  unfold windowIndices
  rw [hscan.verified]
  exact (scanIndices_inArrays hpos).append ((h.latestIndices_inArrays hwindow hscan hpos hfuel).append
    (novaSetFileBmIndices_inArrays (by omega) (by omega)))

/-- What is left of the log and of the variables by the part about the last transaction. -/
theorem ScannedLog.Ok.latest (h : log.Ok t.mem t.pi.logHead) (hwindow : WindowOk env log t base)
    (hscan : ScanOk env log t ts base fuel) (hfuel : log.visited.length < fuel) {tl : Traverse} {pass : TraversePass}
    (hlatest : latestTransaction env.toRecoverEnv fuel base { ts with pi := { ts.pi with logTail := log.tail t } }
      (log.tail t) = .ok (tl, pass)) :
    SameLog t.mem tl.mem log.visited ∧ tl.pi.logHead = t.pi.logHead ∧ tl.pi.logTail = log.tail t ∧
      tl.lastBlocknr = ts.lastBlocknr := by
  have htrans : ts.transId = (log.found t).1 := congrArg Prod.fst hscan.vars
  have hcurr : ts.transCurr = (log.found t).2 := congrArg Prod.snd hscan.vars
  by_cases hckpt : ckptId ≠ ts.transId
  · have hstart := hwindow.start.resolve_left fun heq => hckpt (htrans ▸ heq.symm)
    obtain ⟨before, rest, hsplit, -⟩ := dropWhile_of_mem hstart
    have himage := h.image
    rw [hsplit] at himage
    have hrest : rest.length + 1 < fuel := by
      rw [hsplit, List.length_append, List.length_cons] at hfuel
      omega
    obtain ⟨t'', hlatest', hkept, -⟩ := latestTransaction_eq env.toRecoverEnv base (log.tail t)
      (t := { ts with pi := { ts.pi with logTail := log.tail t } }) (hscan.mem ▸ himage) hcurr hckpt hrest
    obtain ⟨rfl, -⟩ := Prod.mk.inj (Except.ok.inj (hlatest.symm.trans hlatest'))
    have hsame := hkept.same
    rw [← hsplit] at hsame
    refine ⟨?_, ?_, hkept.tail, hkept.lastBlocknr⟩
    · rw [← hscan.mem]
      exact hsame
    · rw [hkept.head, hscan.pi]
  · rw [latestTransaction, if_neg hckpt] at hlatest
    obtain ⟨rfl, -⟩ := Prod.mk.inj (Except.ok.inj hlatest)
    refine ⟨?_, ?_, rfl, rfl⟩
    · rw [hscan.mem]
      exact SameLog.refl
    · rw [hscan.pi]

/-- A window that ends is its scan, the part about the last transaction and the marking. -/
theorem traversePass_ok {env : RecoverEnv} {pass : TraversePass} (hhead : t.pi.logHead % 4096 = 0)
    (hscan : traverseScan base fuel (t.markHead base) t.pi.logHead = .ok (ts, currP))
    (hpass : traversePass env fuel base t = .ok (t', pass)) :
    ∃ tl bm, latestTransaction env fuel base { ts with pi := { ts.pi with logTail := currP } } currP = .ok (tl, pass) ∧
      t' = { tl with toRecovery := novaSetFileBm { tl.toRecovery with bm := bm } base tl.lastBlocknr } := by
  have hstart : (if base = 0 then { t with bm := setBm t.bm (t.pi.logHead / 4096) } else t) = t.markHead base := rfl
  rw [traversePass] at hpass
  simp only [hhead, ne_eq, not_true_eq_false, and_false, if_false, hstart, hscan, Except.bind] at hpass
  cases hlatest : latestTransaction env fuel base { ts with pi := { ts.pi with logTail := currP } } currP with
  | error f =>
      rw [hlatest] at hpass
      cases hpass
  | ok r =>
      rw [hlatest] at hpass
      simp only at hpass
      generalize (if base = 0 then markChain r.1.mem fuel r.1.bm (blockOff currP) else .ok r.1.bm) = marked at hpass
      cases marked with
      | error f => cases hpass
      | ok bm =>
          obtain ⟨rfl, hpass'⟩ := Prod.mk.inj (Except.ok.inj hpass)
          exact ⟨r.1, bm, by rw [← hpass'], rfl⟩

theorem ScannedLog.Ok.tail_ne (h : log.Ok t.mem t.pi.logHead) : log.tail t ≠ 0 := by
  have hstop := h.image.path.stopped.1
  unfold ScannedLog.tail
  split
  · cases hvisited : log.visited with
    | nil => exact hstop
    | cons p rest =>
        have hp := (h.image.ok p (by simp [hvisited])).ne
        simp only [List.head?_cons, Option.map_some, Option.getD_some]
        omega
  · exact hstop

/-- A file between two windows: its log is there and the arrays are blank. -/
structure FileOk (log : ScannedLog) (t : Traverse) (base : Nat) : Prop where
  log : log.Ok t.mem t.pi.logHead
  tail : t.pi.logTail ≠ 0
  blank : t.ring.Blank
  base : base ≤ t.lastBlocknr
  bound : t.lastBlocknr ≤ 2 ^ 52

/-- **A window leaves the arrays blank**, and the file ready for the next one. -/
theorem FileOk.window (h : FileOk log t base) (hwindow : WindowOk env log t base)
    (hfuel : log.visited.length < fuel) {more : Bool}
    (hstep : novaTraverseWindow env fuel base t = .ok (t', more)) :
    t'.ring.Blank ∧ (more = true → FileOk log t' (base + maxPgoff)) := by
  obtain ⟨ts, hscan⟩ := h.log.scan hwindow h.blank h.bound hfuel
  unfold novaTraverseWindow at hstep
  rw [hscan.verified] at hstep
  simp only [Except.bind] at hstep
  cases hpass : traversePass env.toRecoverEnv fuel base t with
  | error f =>
      rw [hpass] at hstep
      cases hstep
  | ok r =>
      rw [hpass] at hstep
      obtain ⟨rfl, hmore⟩ := Prod.mk.inj (Except.ok.inj hstep)
      obtain ⟨tl, bm, hlatest, hfinal⟩ := traversePass_ok h.log.image.start.2 hscan.plain hpass
      obtain ⟨hsame, hhead, htail, hlast⟩ := h.log.latest hwindow hscan hfuel hlatest
      have hless := latestTransaction_less hlatest
      have hcovered : tl.ring.Covered base tl.lastBlocknr := by
        rw [hlast]
        exact hscan.covered.less hless
      have hblank : r.1.ring.Blank := by
        rw [hfinal]
        exact novaSetFileBm_blank hcovered
      have hmem : r.1.mem = tl.mem := by rw [hfinal]; rfl
      have hpi : r.1.pi = tl.pi := by rw [hfinal]
      have hlast' : r.1.lastBlocknr = ts.lastBlocknr := by rw [hfinal]; exact hlast
      refine ⟨hblank, fun hgo => ⟨?_, ?_, hblank, ?_, ?_⟩⟩
      · rw [hmem, hpi, hhead]
        exact h.log.same hsame
      · rw [hpi, htail]
        exact h.log.tail_ne
      · rw [← hmore] at hgo
        exact of_decide_eq_true hgo
      · rw [hlast']
        exact hscan.bound

end

/-! ### Runs of a thread -/

/-- A thread between two inodes, or between two windows of a file. -/
inductive ThreadState where
  | idle (r : Recovery)
  | file (log : ScannedLog) (t : Traverse) (base : Nat)

/-- What a thread does next.  `bm` is the bitmap as the marking of log pages alone leaves it. -/
inductive ThreadOp where
  /-- a deleted inode, a directory or a file without a log -/
  | other (bm : Nat → Bool)
  /-- a file, with what `trans_curr` holds; the replica of its log is marked first, if it has one -/
  | inode (log : ScannedLog) (pi : RecoverInode) (transCurr : Nat) (bm : Nat → Bool)
  | window (fuel : Nat)

/-- One step of `failure_thread_func`.  The fuel is enough for the entries. -/
inductive ThreadStep (env : ThreadEnv) : ThreadState → ThreadOp → ThreadState → Prop where
  | other {r : Recovery} {bm : Nat → Bool} : ThreadStep env (.idle r) (.other bm) (.idle { r with bm := bm })
  | inode {r : Recovery} {log : ScannedLog} {pi : RecoverInode} {transCurr : Nat} {bm : Nat → Bool}
      (hlog : log.Ok r.mem pi.logHead) (htail : pi.logTail ≠ 0) :
      ThreadStep env (.idle r) (.inode log pi transCurr bm)
        (.file log (Traverse.first { r with bm := bm } pi transCurr) 0)
  | again {log : ScannedLog} {t t' : Traverse} {base fuel : Nat} (hfuel : log.visited.length < fuel)
      (hwindow : novaTraverseWindow env fuel base t = .ok (t', true)) :
      ThreadStep env (.file log t base) (.window fuel) (.file log t' (base + maxPgoff))
  | done {log : ScannedLog} {t t' : Traverse} {base fuel : Nat} (hfuel : log.visited.length < fuel)
      (hwindow : novaTraverseWindow env fuel base t = .ok (t', false)) :
      ThreadStep env (.file log t base) (.window fuel) (.idle t'.toRecovery)

/-- The windows meet what they need. -/
def ThreadOk (env : ThreadEnv) : ThreadState → ThreadOp → Prop
  | .file log t base, .window _ => WindowOk env log t base
  | _, _ => True

/-- What holds of a thread between its steps. -/
def ThreadState.Inv : ThreadState → Prop
  | .idle r => r.ring.Blank
  | .file log t base => FileOk log t base

section

variable {env : ThreadEnv} {r : Recovery} {s s' : ThreadState} {a : ThreadOp}

theorem ThreadState.Inv.step (h : s.Inv) (hstep : Guarded (ThreadOk env) (ThreadStep env) s a s') : s'.Inv := by
  obtain ⟨hok, hstep⟩ := hstep
  cases hstep with
  | other => exact h
  | inode hlog htail => exact ⟨hlog, htail, h, Nat.zero_le _, Nat.zero_le _⟩
  | again hfuel hwindow =>
      obtain ⟨-, hnext⟩ := FileOk.window h hok hfuel hwindow
      exact hnext rfl
  | done hfuel hwindow =>
      obtain ⟨hblank, -⟩ := FileOk.window h hok hfuel hwindow
      exact hblank

end

/-- A log of one page that holds one write entry, about the page `pg * 65536` alone. -/
def farWriteMem (pg : UInt8) : ByteMem := fun x =>
  if x = 4096 then 1 else if x = 4100 then 1 else if x = 4104 then 9 else if x = 4114 then pg
  else if x = 4144 then 1 else 0

theorem farWriteMem_ok (pg : UInt8) (hpg : pg = 0 ∨ pg = 4) : ScannedLog.Ok ⟨[4096], 4160⟩ (farWriteMem pg) 4096 := by
  rcases hpg with rfl | rfl
  · refine ⟨oneEntry_image rfl rfl (by decide) (by decide), ?_, ?_⟩
    · intro p hp hw
      rw [List.mem_singleton.mp hp]
      decide
    · intro p hp hw
      rw [List.mem_singleton.mp hp]
      decide
  · refine ⟨oneEntry_image rfl rfl (by decide) (by decide), ?_, ?_⟩
    · intro p hp hw
      rw [List.mem_singleton.mp hp]
      decide
    · intro p hp hw
      rw [List.mem_singleton.mp hp]
      decide

/-- The file whose log this is, before its first window. -/
def farWriteFile (pg : UInt8) : Traverse :=
  Traverse.first (Recovery.init (farWriteMem pg) fun _ => false) ⟨false, false, 4096, 4160, false⟩ 0

theorem farWriteFile_reached (env : ThreadEnv) (pg : UInt8) (hpg : pg = 0 ∨ pg = 4) :
    Runs (Guarded (ThreadOk env) (ThreadStep env)) (.idle (Recovery.init (farWriteMem pg) fun _ => false))
      (.file ⟨[4096], 4160⟩ (farWriteFile pg) 0) := by
  have hstep : ThreadStep env (.idle (Recovery.init (farWriteMem pg) fun _ => false))
      (.inode ⟨[4096], 4160⟩ ⟨false, false, 4096, 4160, false⟩ 0 fun _ => false)
      (.file ⟨[4096], 4160⟩ (farWriteFile pg) 0) := .inode (farWriteMem_ok pg hpg) (by decide)
  exact Runs.single ⟨trivial, hstep⟩

section

variable {env : ThreadEnv} {r : Recovery} {s : ThreadState}

/-- **Recovery stays inside its arrays and leaves them blank**, in every run of a thread over any
files whose windows meet what they need. -/
theorem threadRun_inArrays (hblank : r.ring.Blank)
    (hrun : Runs (Guarded (ThreadOk env) (ThreadStep env)) (.idle r) s) :
    (∀ log t base, s = .file log t base → WindowOk env log t base → ∀ fuel > log.visited.length,
      InArrays (windowIndices env fuel base t)) ∧
    ∀ r', s = .idle r' → r'.ring.Blank := by
  have hinv : s.Inv := hrun.invariant (fun _ _ _ h hstep => h.step hstep) hblank
  refine ⟨fun log t base hs hwindow fuel hfuel => ?_, fun r' hs => ?_⟩
  · subst hs
    obtain ⟨hlog, -, hring, hbase, hbound⟩ : FileOk log t base := hinv
    exact hlog.windowIndices_inArrays hwindow hring hbase hbound hfuel
  · subst hs
    exact hinv

end

/-- The first page of the file, and everything verifies. -/
theorem threadRun_inArrays_first :
    InArrays (windowIndices ⟨⟨fun _ => true, true⟩, fun _ _ => true⟩ 2 0 (farWriteFile 0)) := by
  have hfound : ScannedLog.found ⟨[4096], 4160⟩ (farWriteFile 0) = (1, 4096) := by decide +kernel
  refine (threadRun_inArrays (fun _ _ => ⟨rfl, rfl⟩) (farWriteFile_reached _ 0 (Or.inl rfl))).1 _ _ _ rfl
    ⟨fun _ _ => rfl, ?_, Or.inr (Or.inl ?_)⟩ 2 (by decide)
  · rw [hfound]
    exact Or.inr (by decide)
  · simp

/-- The only transaction of the file wrote the page `MAX_PGOFF`, and its data block does not verify:
dropping it in the first window clears a place behind the arrays. -/
theorem novaTraverseFileInodeLog_clears_outside :
    ¬∀ (env : ThreadEnv) (r : Recovery) (s : ThreadState), r.ring.Blank → Runs (ThreadStep env) (.idle r) s →
      (∀ log t base, s = .file log t base → ∀ fuel > log.visited.length, InArrays (windowIndices env fuel base t)) ∧
      ∀ r', s = .idle r' → r'.ring.Blank := by
  intro hall
  obtain ⟨env, henv⟩ : ∃ env : ThreadEnv, env = ⟨⟨fun _ => false, true⟩, fun _ _ => true⟩ := ⟨_, rfl⟩
  have hrun := (farWriteFile_reached env 4 (Or.inr rfl)).map fun s a t h => ⟨a, h.2⟩
  have hin := (hall env _ _ (fun _ _ => ⟨rfl, rfl⟩) hrun).1 _ _ _ rfl 2 (by decide) 262144 ?_
  · exact absurd hin (by decide)
  · rw [henv]
    decide +kernel

end Parfs
