/-
The second loop of a file's rebuild.

It starts at the entry where `trans_id` was seen to change last, and goes on by the size of a
write entry from wherever it stands.  Every write entry on its way is put into the tree once
more, but at the pages of the entry the main loop came to last.  That does no harm when the
start was seen, when the loop comes from entry to entry, and when the last entry of the log is
a write entry whose pages are in the tree anyway: `LastPassOk`.
-/
import Parfs.Proofs.Rebuild

namespace Parfs

open Lib ByteMem

/-! ### What the second loop is for -/

/-- The entries from the first write entry of the last write transaction on; none where there
is no write entry. -/
def sinceLastTransaction (m : ByteMem) (visited : List Nat) : List Nat :=
  match (lastTransaction m visited).head? with
  | some start => visited.dropWhile fun p => decide (p ≠ start)
  | none => []

/-- Whatever `trans_curr` holds at first, the second loop, if there is one, goes over the
entries since the last transaction to the end of the log, and leaves the tree alone. -/
def LastPassHarmless (snapshots : List Nat) (m : ByteMem) (pi : RecoverInode) (reb : NovaInodeRebuild)
    (visited : List Nat) : Prop :=
  ∀ transCurr, ∃ enough, ∀ fuel ≥ enough, ∃ r,
    novaRebuildFileInodeTree snapshots m fuel pi (novaInitHeader m reb transCurr) = .ok (some r) ∧
      ∀ pass, r.pass = some pass → pass = sinceLastTransaction m visited ∧
        ∀ q, r.final.file.tree.slot q = r.replayed.file.tree.slot q

/-- The size of a write entry leads from the entry to the next one: it is a write entry, or its
page ends behind it, so that either size leads to the next page. -/
def WriteSizeLeads (m : ByteMem) (p : Nat) : Prop :=
  IsWrite m p ∨ (gotoNextPage m (p + entrySize m p) = true ∧ gotoNextPage m (p + 64) = true)

/-- When it does no harm. -/
structure LastPassOk (m : ByteMem) (visited : List Nat) : Prop where
  /-- the `trans_id` a header starts with is 0 -/
  tracked : ∃ p ∈ writesOf m visited, transIdOf m p ≠ 0
  leads : ∀ p ∈ (sinceLastTransaction m visited).dropLast, WriteSizeLeads m p
  last : ∀ p, visited.getLast? = some p → IsWrite m p ∧ (wentry m p).numPages ≠ (wentry m p).invalidPages

/-! ### The way of the second loop -/

/-- It goes on by the size of a write entry. -/
inductive PassPath (m : ByteMem) (stop : Nat) : Nat → List Nat → Prop where
  | stop : PassPath m stop stop []
  | entry {curr p : Nat} {rest : List Nat} (hcurr : curr ≠ stop) (hfrom : scanFrom m curr = p)
      (hrest : PassPath m stop (p + 64) rest) : PassPath m stop curr (p :: rest)

/-- What it does to the tree. -/
def passed (snapshots : List Nat) (m : ByteMem) (entryc : Nat) (f : FileTree) (visited : List Nat) : FileTree :=
  visited.foldl (fun f p =>
    if novaGetEntryType m p = NovaEntryType.fileWrite.code then
      (novaAssignWriteEntry snapshots f p (f.entries entryc) true fun _ => true).1
    else f) f

section

variable {snapshots : List Nat} {m : ByteMem} {stop tail curr head p q entryc : Nat} {f : FileTree}
  {visited rest : List Nat}

theorem PassPath.loop (snapshots : List Nat) (entryc : Nat) (h : PassPath m stop curr visited) :
    ∀ (f : FileTree) (fuel : Nat), visited.length < fuel → lastTransactionLoop snapshots m stop entryc fuel curr f =
      .ok (passed snapshots m entryc f visited, visited) := by
  induction h with
  | stop =>
      intro f fuel hfuel
      obtain ⟨fuel, rfl⟩ : ∃ n, fuel = n + 1 := ⟨fuel - 1, by omega⟩
      rw [lastTransactionLoop, if_pos rfl]
      rfl
  | @entry curr p rest hcurr hfrom hrest ih =>
      intro f fuel hfuel
      obtain ⟨fuel, rfl⟩ : ∃ n, fuel = n + 1 := ⟨fuel - 1, by omega⟩
      rw [lastTransactionLoop, if_neg hcurr]
      simp only [hfrom]
      rw [ih _ fuel (by simpa using hfuel)]
      rfl

theorem PassPath.nil (h : PassPath m stop curr []) : curr = stop := by
  cases h
  rfl

theorem lastTransactionLoop_path : ∀ (fuel curr : Nat) (f : FileTree) (r : FileTree × List Nat),
    lastTransactionLoop snapshots m stop entryc fuel curr f = .ok r → PassPath m stop curr r.2 := by
  intro fuel
  induction fuel with
  | zero =>
      intro curr f r h
      cases h
  | succ fuel ih =>
      intro curr f r h
      rw [lastTransactionLoop] at h
      by_cases hcurr : curr = stop
      · rw [if_pos hcurr] at h
        cases h
        rw [hcurr]
        exact .stop
      · rw [if_neg hcurr] at h
        dsimp only at h
        generalize (if novaGetEntryType m (scanFrom m curr) = NovaEntryType.fileWrite.code then
          (novaAssignWriteEntry snapshots f (scanFrom m curr) (f.entries entryc) true fun _ => true).1
          else f) = f' at h
        cases hrun : lastTransactionLoop snapshots m stop entryc fuel (scanFrom m curr + 64) f' with
        | error =>
            rw [hrun] at h
            cases h
        | ok r' =>
            rw [hrun] at h
            cases h
            exact .entry hcurr rfl (ih _ _ _ hrun)

/-- An entry of the size of a write entry is one. -/
theorem EntryOk.write_of_size (h : EntryOk m p) (hsize : entrySize m p = 64) : IsWrite m p := by
  have hscan := h.size
  rw [hsize] at hscan
  unfold scanEntrySize at hscan
  dsimp only at hscan
  split at hscan
  · cases hscan
  · split at hscan
    · cases hscan
    · split at hscan
      · assumption
      · split at hscan <;> cases hscan

/-- Where the size of a write entry leads. -/
theorem EntryOk.leads_iff (hp : EntryOk m p) (hlink : nextLogPage m p % 4096 = 0)
    (hfrom : scanFrom m (p + entrySize m p) = q) :
    scanFrom m (p + 64) = q ↔ WriteSizeLeads m p := by
  have hmin := hp.min
  have hmax := (entrySize_cases hp.size).2.1
  have hfit := hp.fit
  have hnext : ∀ n ≤ 64, nextLogPage m (p + n) = nextLogPage m p := by
    intro n hn
    have hblock : blockOff (p + n) = blockOff p := by
      unfold blockOff
      omega
    unfold nextLogPage
    rw [hblock]
  unfold WriteSizeLeads
  constructor
  · intro hto
    by_cases hw : IsWrite m p
    · exact Or.inl hw
    refine Or.inr ?_
    have hsize : entrySize m p ≠ 64 := fun h => hw (hp.write_of_size h)
    rcases scanFrom_cases m (p + entrySize m p) with ⟨hjump, hq'⟩ | ⟨-, hq'⟩
    · refine ⟨hjump, ?_⟩
      rcases scanFrom_cases m (p + 64) with ⟨hjump', -⟩ | ⟨-, hself⟩
      · exact hjump'
      · -- no page starts so close behind an entry
        rw [hfrom, hnext _ (by omega)] at hq'
        rw [hto] at hself
        omega
    · rcases scanFrom_cases m (p + 64) with ⟨-, hpage⟩ | ⟨-, hself⟩
      · rw [hto, hnext _ le_rfl] at hpage
        rw [hfrom] at hq'
        omega
      · rw [hto] at hself
        rw [hfrom] at hq'
        omega
  · rintro (hw | ⟨hjump, hjump'⟩)
    · rw [← hfrom, entrySize_write hw]
    · rw [← hfrom, scanFrom, scanFrom, if_pos hjump, if_pos hjump', hnext _ le_rfl, hnext _ hmax]

/-- From an entry on. -/
theorem passPath_entry (hok : EntryOk m p) (hne : p ≠ tail) :
    PassPath m tail p (p :: rest) ↔ PassPath m tail (p + 64) rest := by
  have hself := (scanFrom_entry hok.size hok.fit).2
  constructor
  · intro hpass
    cases hpass with
    | entry _ hfrom hrest =>
        rw [hself] at hfrom
        exact hrest
  · exact fun hrest => .entry hne hself hrest

/-- **The second loop comes from entry to entry** to the end of the log exactly when the size of
a write entry leads from each one to the next, and the last one is a write entry. -/
theorem LogPath.pass_iff (h : LogPath m tail p (p :: rest))
    (happart : (p :: rest).Pairwise fun p q => p + entrySize m p ≤ q ∨ q + entrySize m q ≤ p)
    (hlinks : ∀ q ∈ p :: rest, nextLogPage m q % 4096 = 0) :
    PassPath m tail p (p :: rest) ↔ (∀ q ∈ (p :: rest).dropLast, WriteSizeLeads m q) ∧
      ∀ q, (p :: rest).getLast? = some q → IsWrite m q := by
  have hok := h.ok p List.mem_cons_self
  have hne := h.ne_tail List.mem_cons_self
  induction rest generalizing p with
  | nil =>
      have htail := h.tail_eq (p := p) rfl
      rw [passPath_entry hok hne]
      constructor
      · intro hpass
        have hstop : p + 64 = tail := by
          cases hpass
          rfl
        refine ⟨by simp, fun q hq => ?_⟩
        obtain rfl : p = q := by simpa using hq
        exact hok.write_of_size (by omega)
      · rintro ⟨-, hlast⟩
        rw [htail, entrySize_write (hlast p rfl)]
        exact .stop
  | cons q rest ih =>
      cases h with
      | entry _ _ _ _ hrest =>
          have hq := hrest.atFirst (hrest.ne_tail List.mem_cons_self)
          have hqok := hrest.ok q List.mem_cons_self
          obtain ⟨hfirst, happart⟩ := List.pairwise_cons.mp happart
          have hih : PassPath m tail q (q :: rest) ↔ (∀ x ∈ (q :: rest).dropLast, WriteSizeLeads m x) ∧
              ∀ x, (q :: rest).getLast? = some x → IsWrite m x :=
            ih hq happart (fun x hx => hlinks x (List.mem_cons_of_mem _ hx)) hqok
              (hrest.ne_tail List.mem_cons_self)
          have hnot : p + 64 ≠ tail := by
            have hlast := List.getLast?_eq_some_getLast (List.cons_ne_nil q rest)
            have hmem := List.getLast_mem (List.cons_ne_nil q rest)
            have htail := hrest.tail_eq hlast
            have hmin := (hrest.ok _ hmem).min
            have hpmin := hok.min
            have := hfirst _ hmem
            omega
          have hfrom : scanFrom m (p + entrySize m p) = q := by
            cases hrest with
            | entry _ hfrom => exact hfrom
          have hlead := hok.leads_iff (hlinks p List.mem_cons_self) hfrom
          have hstep : PassPath m tail (p + 64) (q :: rest) ↔
              WriteSizeLeads m p ∧ PassPath m tail q (q :: rest) := by
            rw [passPath_entry hqok (hrest.ne_tail List.mem_cons_self), ← hlead]
            constructor
            · intro hpass
              cases hpass with
              | entry _ hto hon => exact ⟨hto, hon⟩
            · rintro ⟨hto, hon⟩
              exact .entry hnot hto hon
          rw [passPath_entry hok hne, hstep, hih, List.dropLast_cons_cons, List.getLast?_cons_cons,
            List.forall_mem_cons, and_assoc]

/-! ### The tree after it -/

/-- Each entry is put at the pages of the one the main loop came to last. -/
theorem passed_spec (snapshots : List Nat) (m : ByteMem) (entryc : Nat) (visited : List Nat) : ∀ f : FileTree,
    SameExtents f.entries (passed snapshots m entryc f visited).entries ∧
      ∀ q, ¬((f.entries entryc).pgoff ≤ q ∧ q < (f.entries entryc).pgoff + (f.entries entryc).numPages) →
        (passed snapshots m entryc f visited).tree.slot q = f.tree.slot q := by
  induction visited with
  | nil => exact fun f => ⟨SameExtents.refl, fun _ _ => rfl⟩
  | cons p visited ih =>
      intro f
      rw [passed, List.foldl_cons]
      by_cases hw : novaGetEntryType m p = NovaEntryType.fileWrite.code
      · rw [if_pos hw]
        generalize hf' : (novaAssignWriteEntry snapshots f p (f.entries entryc) true fun _ => true).1 = f'
        have hext : SameExtents f.entries f'.entries := by
          rw [← hf']
          exact (freeOldEntry_spec snapshots f (f.entries entryc).epochId).extents
        obtain ⟨hpgoff, hnum, -, -⟩ := hext entryc
        obtain ⟨hrest, hslots⟩ := ih f'
        refine ⟨hext.trans hrest, fun q hq => ?_⟩
        have hslot := hslots q (by rw [hpgoff, hnum]; exact hq)
        rw [passed] at hslot
        rw [hslot, ← hf', novaAssignWriteEntry_slot, if_neg hq]
      · rw [if_neg hw]
        exact ih f

/-- **The last entry has those pages in the end.** -/
theorem passed_slot (hw : IsWrite m p) (q : Nat) :
    (passed snapshots m entryc f (visited ++ [p])).tree.slot q =
      if (f.entries entryc).pgoff ≤ q ∧ q < (f.entries entryc).pgoff + (f.entries entryc).numPages then some p
      else f.tree.slot q := by
  obtain ⟨hext, hslots⟩ := passed_spec snapshots m entryc visited f
  obtain ⟨hpgoff, hnum, -, -⟩ := hext entryc
  have hconcat : passed snapshots m entryc f (visited ++ [p]) =
      (novaAssignWriteEntry snapshots (passed snapshots m entryc f visited) p
        ((passed snapshots m entryc f visited).entries entryc) true fun _ => true).1 := by
    rw [passed, List.foldl_append, List.foldl_cons, List.foldl_nil, if_pos hw]
    rfl
  rw [hconcat, novaAssignWriteEntry_slot, hpgoff, hnum]
  by_cases hin : (f.entries entryc).pgoff ≤ q ∧ q < (f.entries entryc).pgoff + (f.entries entryc).numPages
  · rw [if_pos hin, if_pos hin]
  · rw [if_neg hin, if_neg hin, hslots q hin]

end

/-! ### The whole rebuild -/

section

variable {snapshots : List Nat} {m : ByteMem} {pi : RecoverInode} {reb : NovaInodeRebuild} {visited : List Nat}
  {head tail : Nat}

/-- The log since the last transaction. -/
theorem FileLog.since (h : FileLog m head tail visited) (hw : writesOf m visited ≠ []) :
    ∃ before r₀ rest, visited = before ++ r₀ :: rest ∧ (lastTransaction m visited).head? = some r₀ ∧
      sinceLastTransaction m visited = r₀ :: rest := by
  obtain ⟨before, r₀, rest, heq, hwrite, hlast, -⟩ := split_lastTransaction h.nodup hw
  have hhead : (lastTransaction m visited).head? = some r₀ := by
    rw [hlast, writesOf_write hwrite]
    rfl
  refine ⟨before, r₀, rest, heq, hhead, ?_⟩
  have hother : ∀ p ∈ before, decide (p ≠ r₀) = true := by
    intro p hp
    have hnodup := h.nodup
    rw [heq] at hnodup
    exact decide_eq_true ((List.nodup_append.mp hnodup).2.2 p hp r₀ List.mem_cons_self)
  rw [sinceLastTransaction, hhead]
  show visited.dropWhile (fun p => decide (p ≠ r₀)) = r₀ :: rest
  rw [heq, List.dropWhile_append_of_pos hother, List.dropWhile_cons_of_neg (by simp)]

/-- The rebuild, loop by loop. -/
theorem FileLog.rebuild (h : FileLog m pi.logHead pi.logTail visited) (hvalid : pi.recoveryLatestTransInvalid = false)
    (s : FileRebuild) (fuel : Nat) (hfuel : visited.length < fuel) :
    novaRebuildFileInodeTree snapshots m fuel pi s =
      (lastTransactionLoop snapshots m pi.logTail (replayed snapshots m true s visited).entryc fuel
        (replayed snapshots m true s visited).transCurr (replayed snapshots m true s visited).file).map fun r =>
          some ⟨replayed snapshots m true s visited, some r.2,
            novaRebuildInodeFinish { replayed snapshots m true s visited with file := r.1 }⟩ := by
  unfold novaRebuildFileInodeTree
  rw [if_neg (not_or.mpr h.start), hvalid]
  simp only [Bool.not_false, if_true]
  rw [h.path.rebuildLoop snapshots true s fuel hfuel]
  rfl

/-- What `entryc` points to, and what the tree has there, after the main loop. -/
theorem FileLog.replayed_last (snapshots : List Nat) (reb : NovaInodeRebuild) (h : FileLog m head tail visited) {init : List Nat} {p : Nat}
    (hvisited : visited = init ++ [p]) (hw : IsWrite m p) (v : Bool) (transCurr : Nat) :
    (replayed snapshots m v (novaInitHeader m reb transCurr) visited).entryc = p ∧
      ∀ q, (replayed snapshots m v (novaInitHeader m reb transCurr) visited).file.tree.slot q = some p ↔
        (wentry m p).numPages ≠ (wentry m p).invalidPages ∧ (wentry m p).pgoff ≤ q ∧
          q < (wentry m p).pgoff + (wentry m p).numPages := by
  obtain ⟨hrep, -, hslots⟩ := (Replaying.start m reb transCurr).replayed snapshots v init
  obtain ⟨-, hentryc, -⟩ := FileRebuild.handle_spec snapshots v hrep p
  obtain ⟨-, hslot⟩ := FileRebuild.handle_write snapshots v hrep hw
  rw [hvisited, replayed_concat]
  refine ⟨hentryc, fun q => ?_⟩
  rw [hslot q]
  split
  · rename_i hin
    exact ⟨fun _ => hin, fun _ => rfl⟩
  · rename_i hout
    refine ⟨fun hq => ?_, fun hin => absurd hin hout⟩
    have hnodup := h.nodup
    rw [hvisited] at hnodup
    rcases hslots q p hq with hmem | hnone
    · exact absurd rfl ((List.nodup_append.mp hnodup).2.2 p hmem p List.mem_cons_self)
    · cases hnone

/-- The main loop sees where the last transaction starts, unless all entries have the
`trans_id` of a fresh header. -/
theorem replayed_start (snapshots : List Nat) (m : ByteMem) (reb : NovaInodeRebuild) (visited : List Nat)
    (transCurr : Nat) :
    ((∃ p ∈ writesOf m visited, transIdOf m p ≠ 0) → (lastTransaction m visited).head? =
      some (replayed snapshots m true (novaInitHeader m reb transCurr) visited).transCurr) ∧
    (¬(∃ p ∈ writesOf m visited, transIdOf m p ≠ 0) →
      (replayed snapshots m true (novaInitHeader m reb transCurr) visited).transCurr = transCurr) := by
  obtain ⟨-, htrack, -⟩ := (Replaying.start m reb transCurr).replayed snapshots true visited
  rw [if_pos rfl] at htrack
  constructor
  · intro hother
    have hstart := foldl_trackRun_start (a := transCurr) hother
    have hcurr := congrArg Prod.snd htrack
    rw [lastTransaction, hstart]
    exact congrArg some hcurr.symm
  · intro hsame
    have hall : ∀ p ∈ writesOf m visited, transIdOf m p = 0 := by
      intro p hp
      by_contra hne
      exact hsame ⟨p, hp, hne⟩
    have hfold := foldl_trackRun_same (a := transCurr) hall
    exact (congrArg Prod.snd htrack).trans (congrArg Prod.snd hfold)

/-- The last entry of the log is the last one since the last transaction. -/
theorem FileLog.since_last (h : FileLog m head tail visited) (hok : LastPassOk m visited) :
    ∃ before r₀ init z, visited = before ++ (init ++ [z]) ∧ (lastTransaction m visited).head? = some r₀ ∧
      sinceLastTransaction m visited = init ++ [z] ∧ (init ++ [z]).head? = some r₀ ∧ IsWrite m z ∧
      (wentry m z).numPages ≠ (wentry m z).invalidPages := by
  have hwrites : writesOf m visited ≠ [] := by
    obtain ⟨p, hp, -⟩ := hok.tracked
    exact List.ne_nil_of_mem hp
  obtain ⟨before, r₀, rest, heq, hhead, hsince⟩ := h.since hwrites
  obtain ⟨init, z, hz⟩ : ∃ init z, r₀ :: rest = init ++ [z] :=
    ⟨_, _, (List.dropLast_append_getLast (List.cons_ne_nil r₀ rest)).symm⟩
  rw [hz] at heq hsince
  obtain ⟨hzw, hlive⟩ := hok.last z (by rw [heq, ← List.append_assoc, List.getLast?_concat])
  exact ⟨before, r₀, init, z, heq, hhead, hsince, by rw [← hz]; rfl, hzw, hlive⟩

/-- **The second loop over a log it is fit for.** -/
theorem FileLog.rebuild_ok (h : FileLog m pi.logHead pi.logTail visited)
    (hvalid : pi.recoveryLatestTransInvalid = false) (hok : LastPassOk m visited) (snapshots : List Nat)
    (reb : NovaInodeRebuild) (transCurr fuel : Nat) (hfuel : visited.length < fuel) :
    let s := replayed snapshots m true (novaInitHeader m reb transCurr) visited
    novaRebuildFileInodeTree snapshots m fuel pi (novaInitHeader m reb transCurr) =
      .ok (some ⟨s, some (sinceLastTransaction m visited), novaRebuildInodeFinish
        { s with file := passed snapshots m s.entryc s.file (sinceLastTransaction m visited) }⟩) := by
  intro s
  obtain ⟨before, r₀, init, z, heq, hhead, hsince, hstart, hzw, -⟩ := h.since_last hok
  obtain ⟨rest, hrest⟩ : ∃ rest, init ++ [z] = r₀ :: rest := by
    cases hlist : init ++ [z] with
    | nil => simp at hlist
    | cons p rest =>
        rw [hlist] at hstart
        exact ⟨rest, by rw [Option.some.inj hstart]⟩
  have hcurr : s.transCurr = r₀ := by
    have hcurr := (replayed_start snapshots m reb visited transCurr).1 hok.tracked
    rw [hhead] at hcurr
    exact (Option.some.inj hcurr).symm
  have hpath := h.path
  have happart := h.apart
  rw [heq, hrest] at hpath happart
  have hpass : PassPath m pi.logTail s.transCurr (sinceLastTransaction m visited) := by
    have hleads := hok.leads
    rw [hcurr, hsince, hrest]
    rw [hsince, hrest] at hleads
    refine (hpath.suffix.pass_iff (List.pairwise_append.mp happart).2.1 fun q hq =>
      h.links q (by rw [heq, hrest]; exact List.mem_append_right _ hq)).mpr ⟨hleads, fun q hq => ?_⟩
    rw [← hrest, List.getLast?_concat] at hq
    obtain rfl := Option.some.inj hq
    exact hzw
  have hlen : (sinceLastTransaction m visited).length < fuel := by
    rw [heq, List.length_append] at hfuel
    rw [hsince]
    omega
  rw [h.rebuild hvalid _ fuel hfuel, hpass.loop snapshots s.entryc s.file fuel hlen]
  rfl

/-- It leaves the tree alone. -/
theorem FileLog.passed_same (h : FileLog m head tail visited) (hok : LastPassOk m visited) (snapshots : List Nat)
    (reb : NovaInodeRebuild) (transCurr : Nat) :
    let s := replayed snapshots m true (novaInitHeader m reb transCurr) visited
    ∀ q, (passed snapshots m s.entryc s.file (sinceLastTransaction m visited)).tree.slot q =
      s.file.tree.slot q := by
  intro s q
  obtain ⟨before, r₀, init, z, heq, -, hsince, -, hzw, hlive⟩ := h.since_last hok
  rw [← List.append_assoc] at heq
  obtain ⟨hentryc, hslots⟩ := h.replayed_last snapshots reb heq hzw true transCurr
  obtain ⟨hrep, -, -⟩ := (Replaying.start m reb transCurr).replayed snapshots true visited
  obtain ⟨hpgoff, hnum, -, -, -⟩ := hrep.writes.fields z
  rw [hsince, passed_slot hzw, hentryc, hpgoff, hnum]
  split
  · rename_i hin
    exact ((hslots q).mpr ⟨hlive, hin⟩).symm
  · rfl

theorem FileLog.lastPass_ok (h : FileLog m pi.logHead pi.logTail visited)
    (hvalid : pi.recoveryLatestTransInvalid = false) (hok : LastPassOk m visited) :
    LastPassHarmless snapshots m pi reb visited := by
  intro transCurr
  refine ⟨visited.length + 1, fun fuel hfuel => ?_⟩
  refine ⟨_, h.rebuild_ok hvalid hok snapshots reb transCurr fuel (by omega), fun pass hpass => ?_⟩
  exact ⟨(Option.some.inj hpass).symm, h.passed_same hok snapshots reb transCurr⟩

theorem FileLog.lastPass_harmless (h : FileLog m pi.logHead pi.logTail visited)
    (hvalid : pi.recoveryLatestTransInvalid = false)
    (hharm : LastPassHarmless snapshots m pi reb visited) : LastPassOk m visited := by
  -- a run of the rebuild
  have hrun : ∀ transCurr, ∃ f, PassPath m pi.logTail
      (replayed snapshots m true (novaInitHeader m reb transCurr) visited).transCurr
        (sinceLastTransaction m visited) ∧
      f = passed snapshots m (replayed snapshots m true (novaInitHeader m reb transCurr) visited).entryc
        (replayed snapshots m true (novaInitHeader m reb transCurr) visited).file
        (sinceLastTransaction m visited) ∧
      ∀ q, f.tree.slot q =
        (replayed snapshots m true (novaInitHeader m reb transCurr) visited).file.tree.slot q := by
    intro transCurr
    obtain ⟨enough, hall⟩ := hharm transCurr
    obtain ⟨r, hr, hpass⟩ := hall (enough + visited.length + (sinceLastTransaction m visited).length + 1) (by omega)
    rw [h.rebuild hvalid _ _ (by omega)] at hr
    cases hloop : lastTransactionLoop snapshots m pi.logTail
        (replayed snapshots m true (novaInitHeader m reb transCurr) visited).entryc
        (enough + visited.length + (sinceLastTransaction m visited).length + 1)
        (replayed snapshots m true (novaInitHeader m reb transCurr) visited).transCurr
        (replayed snapshots m true (novaInitHeader m reb transCurr) visited).file with
    | error =>
        rw [hloop] at hr
        cases hr
    | ok v =>
        rw [hloop] at hr
        cases hr
        obtain ⟨hsince, hslots⟩ := hpass _ rfl
        have hpath := lastTransactionLoop_path _ _ _ _ hloop
        rw [hsince] at hpath
        refine ⟨v.1, hpath, ?_, hslots⟩
        rw [hpath.loop _ _ _ _ (by omega)] at hloop
        exact (congrArg Prod.fst (Except.ok.inj hloop)).symm
  -- with every value of `trans_curr` the loop starts at one place
  have htracked : ∃ p ∈ writesOf m visited, transIdOf m p ≠ 0 := by
    by_contra hsame
    have hkept := fun transCurr => (replayed_start snapshots m reb visited transCurr).2 hsame
    obtain ⟨-, hend, -⟩ := hrun pi.logTail
    obtain ⟨-, hon, -⟩ := hrun (pi.logTail + 1)
    rw [hkept] at hend hon
    generalize sinceLastTransaction m visited = since at hend hon
    cases hend with
    | stop => exact absurd hon.nil (by omega)
    | entry hne => exact hne rfl
  have hwrites : writesOf m visited ≠ [] := by
    obtain ⟨p, hp, -⟩ := htracked
    exact List.ne_nil_of_mem hp
  obtain ⟨before, r₀, rest, heq, hhead, hsince⟩ := h.since hwrites
  obtain ⟨init, z, hz⟩ : ∃ init z, r₀ :: rest = init ++ [z] :=
    ⟨_, _, (List.dropLast_append_getLast (List.cons_ne_nil r₀ rest)).symm⟩
  have hvisited : visited = (before ++ init) ++ [z] := by rw [heq, hz, List.append_assoc]
  obtain ⟨f, hpass, hf, hslots⟩ := hrun 0
  have hstart := (replayed_start snapshots m reb visited 0).1 htracked
  rw [hhead] at hstart
  rw [← Option.some.inj hstart, hsince] at hpass
  have hpath := h.path
  have happart := h.apart
  rw [heq] at hpath happart
  obtain ⟨hleads, hlast⟩ := (hpath.suffix.pass_iff (List.pairwise_append.mp happart).2.1
    fun q hq => h.links q (by rw [heq]; exact List.mem_append_right _ hq)).mp hpass
  have hzw : IsWrite m z := hlast z (by rw [hz, List.getLast?_concat])
  refine ⟨htracked, by rw [hsince]; exact hleads, fun p hp => ?_⟩
  rw [hvisited, List.getLast?_concat] at hp
  obtain rfl := Option.some.inj hp
  refine ⟨hzw, fun hdead => ?_⟩
  -- the loop puts a dead entry into the tree
  have hpages := (h.path.ok z (by rw [hvisited]; exact List.mem_append_right _ List.mem_cons_self)).pages hzw
  obtain ⟨hentryc, hslot⟩ := h.replayed_last snapshots reb hvisited hzw true 0
  obtain ⟨hrep, -, -⟩ := (Replaying.start m reb 0).replayed snapshots true visited
  obtain ⟨hpgoff, hnum, -, -, -⟩ := hrep.writes.fields z
  have hq := hslots (wentry m z).pgoff
  rw [hf, hsince, hz, passed_slot hzw, hentryc, hpgoff, hnum, if_pos (by omega)] at hq
  exact ((hslot _).mp hq.symm).1 hdead

/-- **The second loop does no harm exactly when** it is left out, or the last transaction shows
in its `trans_id`, the size of a write entry leads from each entry since to the next, and the
last entry of the log is a write entry that still has pages. -/
theorem novaRebuildFileInodeTree_lastPass_iff (h : FileLog m pi.logHead pi.logTail visited) :
    LastPassHarmless snapshots m pi reb visited ↔
      pi.recoveryLatestTransInvalid = true ∨ LastPassOk m visited := by
  cases hvalid : pi.recoveryLatestTransInvalid with
  | false =>
      simp only [Bool.false_eq_true, false_or]
      exact ⟨h.lastPass_harmless hvalid, h.lastPass_ok hvalid⟩
  | true =>
      simp only [true_or, iff_true]
      intro transCurr
      refine ⟨visited.length + 1, fun fuel hfuel => ?_⟩
      have hloop := h.path.rebuildLoop snapshots false (novaInitHeader m reb transCurr) fuel (by omega)
      unfold novaRebuildFileInodeTree
      rw [if_neg (not_or.mpr h.start), hvalid]
      simp only [Bool.not_true, Bool.false_eq_true, if_false]
      rw [hloop]
      exact ⟨_, rfl, fun pass hp => by cases hp⟩

end

/-- The log of one page with one write entry. -/
theorem oneEntry_fileLog {m : ByteMem} (himage : LogImage m 4096 [4096] 4160) (hw : IsWrite m 4096)
    (hnext : nextLogPage m 4096 = 0) : FileLog m 4096 4160 [4096] := by
  have hok := himage.ok 4096 List.mem_cons_self
  obtain ⟨hgoto, hself⟩ := scanFrom_entry hok.size hok.fit
  refine ⟨by decide, ?_, himage.apart, fun p hp => ?_⟩
  · refine .entry (by decide) hself (fun hjump => absurd (hgoto.symm.trans hjump) (by decide)) hok ?_
    rw [entrySize_write hw]
    exact .tail
  · rw [List.mem_singleton.mp hp, hnext]

theorem oneWriteMem_fileLog (transId : UInt8) : FileLog (oneWriteMem transId) 4096 4160 [4096] := by
  refine oneEntry_fileLog (oneWriteMem_image transId) rfl ?_
  have hnext : nextLogPage (oneWriteMem transId) 4096 = (oneWriteMem 0).word 8184 8 :=
    oneWriteMem_word transId (by decide)
  rw [hnext]
  decide

theorem novaRebuildFileInodeTree_lastPass_one :
    LastPassHarmless [] (oneWriteMem 1) ⟨false, false, 4096, 4160, false⟩ ⟨0, 0, 0, 0, 0, 0, 0, 0, 1, 33188, 0⟩
        [4096] ↔
      false = true ∨ LastPassOk (oneWriteMem 1) [4096] :=
  novaRebuildFileInodeTree_lastPass_iff (oneWriteMem_fileLog 1)

/-- A new file's first write has `trans_id` 0, as a fresh header does: nothing is ever stored to
`trans_curr`. -/
theorem novaRebuildFileInodeTree_start_unset :
    ¬∀ (snapshots : List Nat) (m : ByteMem) (pi : RecoverInode) (reb : NovaInodeRebuild) (visited : List Nat),
      FileLog m pi.logHead pi.logTail visited → LastPassHarmless snapshots m pi reb visited := by
  intro hall
  have hlog := oneWriteMem_fileLog 0
  have hharm := hall [] (oneWriteMem 0) ⟨false, false, 4096, 4160, false⟩ ⟨0, 0, 0, 0, 0, 0, 0, 0, 1, 33188, 0⟩
    [4096] hlog
  obtain ⟨p, hp, hother⟩ := (FileLog.lastPass_harmless hlog rfl hharm).tracked
  obtain ⟨hp, -⟩ := mem_writesOf.mp hp
  rw [List.mem_singleton.mp hp] at hother
  exact hother (by decide)

end Parfs
