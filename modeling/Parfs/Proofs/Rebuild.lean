/-
The main loop of a file's rebuild.

`FileLog` is a log as the rebuild meets it: the entries from the log head to the log tail, in
their pages.  Every log that operations leave is one.  Over such a log the main loop is a fold
over the entries.  While it goes on, the list of replaced pages stays empty, and nothing in
the write entries changes that it goes by.
-/
import Parfs.Rebuild
import Parfs.Proofs.FileTree
import Parfs.Proofs.RecoverTransaction

namespace Parfs

open Lib ByteMem

/-! ### Logs -/

/-- The way of the rebuild from `curr` over `visited` to the tail. -/
inductive LogPath (m : ByteMem) (tail : Nat) : Nat → List Nat → Prop where
  | tail : LogPath m tail tail []
  | entry {curr p : Nat} {rest : List Nat} (hcurr : curr ≠ tail) (hfrom : scanFrom m curr = p)
      (hpage : gotoNextPage m curr = true → p % 4096 = 0) (hok : EntryOk m p)
      (hrest : LogPath m tail (p + entrySize m p) rest) : LogPath m tail curr (p :: rest)

/-- The log of a file, from its head to its tail. -/
structure FileLog (m : ByteMem) (head tail : Nat) (visited : List Nat) : Prop where
  start : head ≠ 0 ∧ tail ≠ 0
  path : LogPath m tail head visited
  apart : visited.Pairwise fun p q => p + entrySize m p ≤ q ∨ q + entrySize m q ≤ p
  links : ∀ p ∈ visited, nextLogPage m p % 4096 = 0

section

variable {m : ByteMem} {tail curr head p q : Nat} {visited rest before pages : List Nat}

theorem LogPath.ok (h : LogPath m tail curr visited) : ∀ p ∈ visited, EntryOk m p := by
  induction h with
  | tail => simp
  | entry hcurr hfrom hpage hok hrest ih =>
      intro q hq
      rcases List.mem_cons.mp hq with rfl | hq
      · exact hok
      · exact ih q hq

theorem LogPath.atFirst (h : LogPath m tail curr (p :: rest)) (hp : p ≠ tail) :
    LogPath m tail p (p :: rest) := by
  cases h with
  | entry hcurr hfrom hpage hok hrest =>
      obtain ⟨hgoto, hself⟩ := scanFrom_entry hok.size hok.fit
      exact .entry hp hself (fun h => by rw [hgoto] at h; cases h) hok hrest

/-- The tail is the end of the last entry. -/
theorem LogPath.tail_eq (h : LogPath m tail curr visited) (hlast : visited.getLast? = some p) :
    tail = p + entrySize m p := by
  induction h with
  | tail => cases hlast
  | @entry curr q rest hcurr hfrom hpage hok hrest ih =>
      cases hrest with
      | tail =>
          obtain rfl : q = p := by simpa using hlast
          rfl
      | entry => exact ih (by rwa [List.getLast?_cons_cons] at hlast)

/-- No entry starts at the tail. -/
theorem LogPath.ne_tail (h : LogPath m tail curr visited) (hp : p ∈ visited) : p ≠ tail := by
  have htail : tail % 4096 ≠ 0 := by
    have hlast := List.getLast?_eq_some_getLast (List.ne_nil_of_mem hp)
    rw [h.tail_eq hlast]
    exact (h.ok _ (List.getLast_mem _)).end_ne
  induction h with
  | tail => cases hp
  | @entry curr q rest hcurr hfrom hpage hok hrest ih =>
      rcases List.mem_cons.mp hp with rfl | hp
      · rcases scanFrom_cases m curr with ⟨hgoto, -⟩ | ⟨-, hself⟩
        · have := hpage hgoto
          rintro rfl
          exact htail this
        · rw [← hfrom, hself]
          exact hcurr
      · exact ih hp

/-- The rest of the way from any entry on. -/
theorem LogPath.suffix (h : LogPath m tail curr (before ++ p :: rest)) : LogPath m tail p (p :: rest) := by
  induction before generalizing curr with
  | nil => exact h.atFirst (h.ne_tail List.mem_cons_self)
  | cons q before ih =>
      cases h with
      | entry hcurr hfrom hpage hok hrest => exact ih hrest

theorem FileLog.apartOf (h : FileLog m head tail visited) (hp : p ∈ visited) (hq : q ∈ visited) (hne : p ≠ q) :
    p + entrySize m p ≤ q ∨ q + entrySize m q ≤ p := by
  have hsym : Std.Symm fun p q => p + entrySize m p ≤ q ∨ q + entrySize m q ≤ p := ⟨fun _ _ h => h.symm⟩
  exact List.Pairwise.forall h.apart hp hq hne

theorem FileLog.nodup (h : FileLog m head tail visited) : visited.Nodup := by
  refine h.apart.imp_of_mem fun {p q} hp hq hapart => ?_
  rintro rfl
  have := (h.path.ok p hp).min
  omega

/-! ### Logs of runs -/

/-- The way over what was laid out, in front of the way from there on. -/
theorem Written.logPath {es : List (Nat × NovaLogEntryInfo)} {k l : Nat} (hlink : LinkedTo m 0 pages)
    (hpages : ∀ p ∈ pages, IsPage p) (hne : pages ≠ []) (h : Written m pages es k l)
    (hok : ∀ e ∈ es, e.2.Ok ∧ LogKind.file.handles e.2.type = true ∧ HasPages e.2) :
    (∀ i o, o ≤ 4064 → (i < k ∨ (i = k ∧ o < l)) → pages.getD i 0 + o ≠ tail) →
      ∀ {rest : List Nat}, LogPath m tail (pages.getD k 0 + l) rest →
        LogPath m tail (pages.getD 0 0) (es.map Prod.fst ++ rest) := by
  induction h with
  | nil =>
      intro _ rest hrest
      exact hrest
  | @here es k l e h hfit hent ih =>
      intro ht rest hrest
      obtain ⟨he, hkind, hnum⟩ := hok (_, e) (List.mem_append_right _ (List.mem_singleton.mpr rfl))
      obtain ⟨halign, hp0, -⟩ := hpages _ (getD_mem (h.page_lt hne))
      have hmin : 40 ≤ e.size ∧ e.size ≤ 304 := he.size_bounds
      obtain ⟨hentry, hsize⟩ := hent.entryOk he hkind hnum (by omega) (by omega)
      obtain ⟨hgoto, hself⟩ := scanFrom_entry hentry.size hentry.fit
      rw [List.map_append, List.append_assoc]
      refine ih (fun e he => hok e (List.mem_append_left _ he)) (fun i o ho hio => ht i o ho (by omega)) ?_
      refine .entry (ht k l h.place_le (by omega)) hself (fun hjump => ?_) hentry ?_
      · rw [hgoto] at hjump
        cases hjump
      · rw [hsize, Nat.add_assoc]
        exact hrest
  | @next es k l e h hleft hk hfit hent ih =>
      intro ht rest hrest
      obtain ⟨he, hkind, hnum⟩ := hok (_, e) (List.mem_append_right _ (List.mem_singleton.mpr rfl))
      obtain ⟨halign, hp0, -⟩ := hpages _ (getD_mem hk)
      obtain ⟨hentry, hsize⟩ := hent.entryOk he hkind hnum (by omega) hp0
      rw [List.map_append, List.append_assoc]
      refine ih (fun e he => hok e (List.mem_append_left _ he)) (fun i o ho hio => ht i o ho (by omega)) ?_
      refine .entry (ht k l h.place_le (by omega)) (scanFrom_left hlink hpages hk h.place_le hleft)
        (fun _ => halign) hentry ?_
      rw [hsize]
      exact hrest

/-- **What operations leave is a log**, once it has a page. -/
theorem LogInv.fileLog {env : LogEnv} {r : LogRun} {apages : List Nat} {k l k₀ l₀ : Nat}
    (h : LogInv env .file r pages apages k l k₀ l₀) (hhead : r.log.sih.logHead ≠ 0)
    (hnum : ∀ e ∈ r.entries, HasPages e.2) :
    FileLog r.log.mem r.log.sih.logHead r.log.sih.logTail (r.entries.map Prod.fst) := by
  have hne : pages ≠ [] := by
    rintro rfl
    exact hhead h.chains.head
  have hisPage : ∀ p ∈ pages, IsPage p := fun p hp => h.chains.isPage p (List.mem_append_left _ hp)
  have hnodup : pages.Nodup := (List.nodup_append.mp (List.nodup_append.mp h.chains.fresh.nodup).1).1
  have hheadD : r.log.sih.logHead = pages.getD 0 0 := by
    rw [h.chains.head]
    cases pages <;> rfl
  have hok : ∀ e ∈ r.entries, e.2.Ok ∧ LogKind.file.handles e.2.type = true ∧ HasPages e.2 :=
    fun e he => ⟨(h.ok e (List.mem_append_left _ he)).1, (h.ok e (List.mem_append_left _ he)).2, hnum e he⟩
  obtain ⟨htail, ht0, -, -⟩ := h.committed.facts hne hisPage
  have hk := h.committed.page hne
  have hplace := h.committed.place
  refine ⟨⟨hhead, ht0⟩, ?_, h.writtenCommitted.apart hnodup hisPage hne hok, fun p hp => ?_⟩
  · have hend : LogPath r.log.mem r.log.sih.logTail (pages.getD k₀ 0 + l₀) [] := by
      rw [htail]
      exact .tail
    have hpath := h.writtenCommitted.logPath h.chains.linked hisPage hne hok (fun i o ho hio => ?_) hend
    · rw [List.append_nil] at hpath
      rw [hheadD]
      exact hpath
    · rw [htail]
      rcases hio with hlt | ⟨rfl, hlt⟩
      · exact page_sep hnodup (fun p hp => (hisPage p hp).1) (by omega) hk (by omega) (by omega) (by omega)
      · omega
  · obtain ⟨⟨p, e⟩, he, rfl⟩ := List.mem_map.mp hp
    obtain ⟨i, o, rfl, hi, ho, -⟩ := h.writtenCommitted.mem he
    have hsize := (hok _ he).1.size_bounds
    have hblock : blockOff (pages.getD i 0 + o) = pages.getD i 0 := by
      have := (hisPage _ (getD_mem (by omega : i < pages.length))).1
      unfold blockOff
      omega
    show nextLogPage r.log.mem (pages.getD i 0 + o) % 4096 = 0
    rw [h.chains.linked.nextOfTail (by omega) hblock]
    by_cases hnext : i + 1 < pages.length
    · exact (hisPage _ (getD_mem hnext)).1
    · rw [List.getD_eq_default _ _ (by omega)]

end

/-! ### The tree -/

/-- What write entries say, but for the mark of an update that is going on. -/
def SameWrites (es es' : Nat → NovaFileWriteEntry) : Prop :=
  ∀ x, { es' x with updating := 0 } = { es x with updating := 0 }

section

variable {snapshots : List Nat} {f : FileTree} {entry q start epochId : Nat} {free deleteDead : Bool}
  {entryc : NovaFileWriteEntry} {a : Assigning} {es es' es'' : Nat → NovaFileWriteEntry}

theorem SameWrites.refl : SameWrites es es := fun _ => rfl

theorem SameWrites.trans (h : SameWrites es es') (h' : SameWrites es' es'') : SameWrites es es'' :=
  fun x => (h' x).trans (h x)

/-- What the rebuild goes by. -/
theorem SameWrites.fields (h : SameWrites es es') (x : Nat) :
    (es' x).pgoff = (es x).pgoff ∧ (es' x).numPages = (es x).numPages ∧
      (es' x).invalidPages = (es x).invalidPages ∧ (es' x).transId = (es x).transId ∧
      (es' x).blocknr = (es x).blocknr := by
  have hx := h x
  simp only [NovaFileWriteEntry.mk.injEq] at hx
  exact ⟨hx.2.2.2.2.1, hx.2.2.1, hx.2.2.2.2.2.1, hx.2.2.2.2.2.2.2.2.2.1, hx.2.2.2.1⟩

theorem assignPage_tree (p : Nat) : (assignPage entry free a p).tree = a.tree.set p entry := by
  unfold assignPage
  split
  · split <;> rfl
  · rfl

theorem assignPages_all (ps : List Nat) :
    assignPages entry free (fun _ => true) ps a = (ps.foldl (assignPage entry free) a, true) := by
  induction ps generalizing a with
  | nil => rfl
  | cons p ps ih =>
      rw [assignPages, if_neg (by simp), ih]
      rfl

theorem foldl_assignPage_slot (n : Nat) : ∀ (a : Assigning) (lo : Nat),
    ((List.range' lo n).foldl (assignPage entry free) a).tree.slot q =
      if lo ≤ q ∧ q < lo + n then some entry else a.tree.slot q := by
  induction n with
  | zero =>
      intro a lo
      rw [if_neg (by omega)]
      rfl
  | succ n ih =>
      intro a lo
      rw [List.range'_succ, List.foldl_cons, ih, assignPage_tree]
      by_cases hq : q = lo
      · rw [hq, Radix.set_slot_self, if_neg (by omega), if_pos (by omega)]
      · rw [Radix.set_slot_of_ne hq]
        by_cases hin : lo ≤ q ∧ q < lo + (n + 1)
        · rw [if_pos hin, if_pos (by omega)]
        · rw [if_neg hin, if_neg (by omega)]

/-- **An entry put into the tree has its pages**, and no other page changes. -/
theorem novaAssignWriteEntry_slot (snapshots : List Nat) (f : FileTree) (entry : Nat)
    (entryc : NovaFileWriteEntry) (free : Bool) (q : Nat) :
    (novaAssignWriteEntry snapshots f entry entryc free fun _ => true).1.tree.slot q =
      if entryc.pgoff ≤ q ∧ q < entryc.pgoff + entryc.numPages then some entry else f.tree.slot q := by
  have hdrained := freeOldEntry_spec snapshots f entryc.epochId
  unfold novaAssignWriteEntry
  dsimp only
  rw [assignPages_all]
  simp only [if_true]
  have hflush : ∀ a : Assigning, (a.flush free).tree = a.tree := by
    intro a
    unfold Assigning.flush
    split
    · split <;> rfl
    · rfl
  rw [hflush, foldl_assignPage_slot, hdrained.tree]

/-- An empty list is drained in no time. -/
theorem freeOldEntry_nil (h : f.oldEntryList = []) : freeOldEntry snapshots f epochId = f := by
  obtain ⟨tree, entries, list, freed, recorded⟩ := f
  obtain rfl : list = [] := h
  rfl

/-- Nothing but the tree and the list of replaced pages. -/
structure SameCalls (f f' : FileTree) : Prop where
  entries : f'.entries = f.entries
  freed : f'.freed = f.freed
  recorded : f'.recorded = f.recorded

theorem SameCalls.trans {f' f'' : FileTree} (h : SameCalls f f') (h' : SameCalls f' f'') : SameCalls f f'' :=
  ⟨h'.entries.trans h.entries, h'.freed.trans h.freed, h'.recorded.trans h.recorded⟩

/-- An entry put into the tree on its own leaves the list empty. -/
theorem novaAssignWriteEntry_alone (snapshots : List Nat) (entry : Nat) (entryc : NovaFileWriteEntry)
    (h : f.oldEntryList = []) :
    (novaAssignWriteEntry snapshots f entry entryc false fun _ => true).1.oldEntryList = [] ∧
      SameCalls f (novaAssignWriteEntry snapshots f entry entryc false fun _ => true).1 := by
  have hflush : ∀ a : Assigning, a.flush false = a := by
    intro a
    unfold Assigning.flush
    split <;> rfl
  have hpage : ∀ (a : Assigning) p, (assignPage entry false a p).oldEntryList = a.oldEntryList := by
    intro a p
    unfold assignPage
    rw [hflush]
    split
    · split <;> rfl
    · rfl
  have hpages : ∀ (ps : List Nat) (a : Assigning),
      (ps.foldl (assignPage entry false) a).oldEntryList = a.oldEntryList := by
    intro ps
    induction ps with
    | nil => exact fun _ => rfl
    | cons p ps ih => exact fun a => (ih _).trans (hpage a p)
  unfold novaAssignWriteEntry
  dsimp only
  rw [assignPages_all, freeOldEntry_nil h]
  simp only [if_true, hflush]
  exact ⟨(hpages _ _).trans h, rfl, rfl, rfl⟩

theorem Deleting.flush_keep (d : Deleting) : d.flush snapshots false deleteDead epochId = d := by
  unfold Deleting.flush
  split <;> rfl

/-- Cutting a tree without freeing only empties slots. -/
theorem deleteLoop_slots (snapshots : List Nat) (deleteDead : Bool) (epochId fuel : Nat) :
    ∀ (pgoff : Nat) (d : Deleting),
    SameCalls d.file (deleteLoop snapshots false deleteDead epochId fuel pgoff d).file ∧
      (deleteLoop snapshots false deleteDead epochId fuel pgoff d).file.oldEntryList = d.file.oldEntryList ∧
      ∀ q e, (deleteLoop snapshots false deleteDead epochId fuel pgoff d).file.tree.slot q = some e →
        d.file.tree.slot q = some e := by
  have hcut : ∀ (t : Radix Nat) (p q e : Nat), (t.erase p).slot q = some e → t.slot q = some e := by
    intro t p q e hq
    by_cases hpq : q = p
    · rw [hpq, Radix.erase_slot_self] at hq
      cases hq
    · rwa [Radix.erase_slot_of_ne hpq] at hq
  induction fuel with
  | zero => exact fun _ d => ⟨⟨rfl, rfl, rfl⟩, rfl, fun _ _ h => h⟩
  | succ fuel ih =>
      intro pgoff d
      rw [deleteLoop]
      split
      · dsimp only
        rw [Deleting.flush_keep]
        split <;>
        · obtain ⟨hcalls, hlist, hslots⟩ := ih (pgoff + 1) _
          exact ⟨⟨hcalls.entries, hcalls.freed, hcalls.recorded⟩, hlist,
            fun q e hq => hcut _ _ _ _ (hslots q e hq)⟩
      · split
        · exact ⟨⟨rfl, rfl, rfl⟩, rfl, fun _ _ h => h⟩
        · exact ih _ d

theorem novaDeleteFileTree_slots (snapshots : List Nat) (start : Nat) (deleteDead : Bool) (epochId : Nat)
    (h : f.oldEntryList = []) :
    SameCalls f (novaDeleteFileTree snapshots f start false deleteDead epochId) ∧
      (novaDeleteFileTree snapshots f start false deleteDead epochId).oldEntryList = [] ∧
      ∀ q e, (novaDeleteFileTree snapshots f start false deleteDead epochId).tree.slot q = some e →
        f.tree.slot q = some e := by
  unfold novaDeleteFileTree
  dsimp only
  rw [freeOldEntry_nil h, Deleting.flush_keep]
  obtain ⟨hcalls, hlist, hslots⟩ := deleteLoop_slots snapshots deleteDead epochId
    (f.tree.size - start + 1) start ⟨f, none, 0, 0⟩
  exact ⟨hcalls, hlist.trans h, hslots⟩

end

/-! ### The main loop -/

/-- What the header keeps while the log is replayed. -/
structure Replaying (m : ByteMem) (s : FileRebuild) : Prop where
  writes : SameWrites (wentry m) s.file.entries
  emptied : s.file.oldEntryList = []
  freed : s.file.freed = []

section

variable {snapshots : List Nat} {m : ByteMem} {tail curr p q e : Nat} {visited : List Nat} {v : Bool}
  {s : FileRebuild}

theorem Replaying.start (m : ByteMem) (reb : NovaInodeRebuild) (transCurr : Nat) :
    Replaying m (novaInitHeader m reb transCurr) := ⟨SameWrites.refl, rfl, rfl⟩

theorem Replaying.same {s' : FileRebuild} (h : Replaying m s) (hcalls : SameCalls s.file s'.file)
    (hlist : s'.file.oldEntryList = []) : Replaying m s' :=
  ⟨by rw [hcalls.entries]; exact h.writes, hlist, hcalls.freed.trans h.freed⟩

theorem SameWrites.clear (f : FileTree) (entry : Nat) :
    SameWrites f.entries (novaClearUpdating f entry).entries := by
  intro x
  by_cases hx : x = entry
  · rw [hx]
    show { Function.update f.entries entry _ entry with updating := 0 } = _
    rw [Function.update_self]
  · show { Function.update f.entries entry _ x with updating := 0 } = _
    rw [Function.update_of_ne hx]

/-- A write entry. -/
theorem novaRebuildHandleWriteEntry_spec (h : Replaying m s) (p : Nat) :
    Replaying m (novaRebuildHandleWriteEntry snapshots s p) ∧
      (∀ q, (novaRebuildHandleWriteEntry snapshots s p).file.tree.slot q =
        if (wentry m p).numPages ≠ (wentry m p).invalidPages ∧ (wentry m p).pgoff ≤ q ∧
          q < (wentry m p).pgoff + (wentry m p).numPages then some p else s.file.tree.slot q) := by
  obtain ⟨hpgoff, hnum, hinvalid, -, -⟩ := h.writes.fields p
  obtain ⟨f, hf, hlist, hcalls, hslots⟩ : ∃ f : FileTree,
      f = (if (s.file.entries p).numPages ≠ (s.file.entries p).invalidPages then
        (novaAssignWriteEntry snapshots s.file p (s.file.entries p) false fun _ => true).1 else s.file) ∧
      f.oldEntryList = [] ∧ SameCalls s.file f ∧ ∀ q, f.tree.slot q =
        if (wentry m p).numPages ≠ (wentry m p).invalidPages ∧ (wentry m p).pgoff ≤ q ∧
          q < (wentry m p).pgoff + (wentry m p).numPages then some p else s.file.tree.slot q := by
    rw [hnum, hinvalid]
    by_cases hlive : (wentry m p).numPages ≠ (wentry m p).invalidPages
    · obtain ⟨hlist, hcalls⟩ := novaAssignWriteEntry_alone snapshots p (s.file.entries p) h.emptied
      refine ⟨_, rfl, ?_, ?_, fun q => ?_⟩
      · rw [if_pos hlive]
        exact hlist
      · rw [if_pos hlive]
        exact hcalls
      · rw [if_pos hlive, novaAssignWriteEntry_slot, hpgoff, hnum]
        simp only [hlive, ne_eq, not_false_eq_true, true_and]
    · refine ⟨_, rfl, ?_, ?_, fun q => ?_⟩
      · rw [if_neg hlive]
        exact h.emptied
      · rw [if_neg hlive]
        exact ⟨rfl, rfl, rfl⟩
      · rw [if_neg hlive, if_neg fun hc => hlive hc.1]
  unfold novaRebuildHandleWriteEntry
  dsimp only
  rw [← hf]
  by_cases hupd : (s.file.entries p).updating ≠ 0
  · rw [if_pos hupd]
    refine ⟨⟨?_, hlist, hcalls.freed.trans h.freed⟩, hslots⟩
    have hclear := SameWrites.clear f p
    rw [hcalls.entries] at hclear
    exact h.writes.trans hclear
  · rw [if_neg hupd]
    exact ⟨⟨by rw [hcalls.entries]; exact h.writes, hlist, hcalls.freed.trans h.freed⟩, hslots⟩

theorem FileRebuild.handle_write (snapshots : List Nat) (v : Bool) (h : Replaying m s) (hw : IsWrite m p) :
    Replaying m (s.handle snapshots m v p) ∧
      ∀ q, (s.handle snapshots m v p).file.tree.slot q =
        if (wentry m p).numPages ≠ (wentry m p).invalidPages ∧ (wentry m p).pgoff ≤ q ∧
          q < (wentry m p).pgoff + (wentry m p).numPages then some p else s.file.tree.slot q := by
  have hset : novaGetEntryType m p ≠ NovaEntryType.setAttr.code := by rw [hw]; decide
  have hlink : novaGetEntryType m p ≠ NovaEntryType.linkChange.code := by rw [hw]; decide
  unfold FileRebuild.handle
  dsimp only
  rw [if_neg hset, if_neg hlink, if_pos hw]
  split <;>
  · refine novaRebuildHandleWriteEntry_spec ?_ p
    exact ⟨h.writes, h.emptied, h.freed⟩

/-- **One entry.** -/
theorem FileRebuild.handle_spec (snapshots : List Nat) (v : Bool) (h : Replaying m s) (p : Nat) :
    Replaying m (s.handle snapshots m v p) ∧ (s.handle snapshots m v p).entryc = p ∧
      ((s.handle snapshots m v p).transId, (s.handle snapshots m v p).transCurr) =
        (if v = true ∧ IsWrite m p then trackRun (transIdOf m) (s.transId, s.transCurr) p
          else (s.transId, s.transCurr)) ∧
      ∀ q e, (s.handle snapshots m v p).file.tree.slot q = some e → e = p ∨ s.file.tree.slot q = some e := by
  by_cases hw : IsWrite m p
  · obtain ⟨hrep, hslots⟩ := FileRebuild.handle_write snapshots v h hw
    have hset : novaGetEntryType m p ≠ NovaEntryType.setAttr.code := by rw [hw]; decide
    have hlink : novaGetEntryType m p ≠ NovaEntryType.linkChange.code := by rw [hw]; decide
    have htrans : (s.file.entries p).transId = transIdOf m p := (h.writes.fields p).2.2.2.1
    refine ⟨hrep, ?_, ?_, fun q e hq => ?_⟩
    · unfold FileRebuild.handle
      dsimp only
      rw [if_neg hset, if_neg hlink, if_pos hw]
      split <;> rfl
    · unfold FileRebuild.handle
      dsimp only
      rw [if_neg hset, if_neg hlink, if_pos hw, htrans]
      by_cases hv : v = true
      · by_cases hother : transIdOf m p ≠ s.transId
        · rw [if_pos ⟨hv, hother⟩, if_pos ⟨hv, hw⟩, trackRun, if_pos hother]
          rfl
        · rw [if_neg fun hc => hother hc.2, if_pos ⟨hv, hw⟩, trackRun, if_neg hother]
          rfl
      · rw [if_neg fun hc => hv hc.1, if_neg fun hc => hv hc.1]
        rfl
    · rw [hslots q] at hq
      split at hq
      · exact Or.inl (Option.some.inj hq).symm
      · exact Or.inr hq
  · rw [if_neg fun hc => hw hc.2]
    unfold FileRebuild.handle
    dsimp only
    by_cases hset : novaGetEntryType m p = NovaEntryType.setAttr.code
    · rw [if_pos hset]
      obtain ⟨hcalls, hlist, hslots⟩ := novaDeleteFileTree_slots snapshots
        (((sentry m p).size + 4095) / 4096) false 0 h.emptied
      unfold novaApplySetattrEntry
      dsimp only
      split
      · exact ⟨h.same hcalls hlist, rfl, rfl, fun q e hq => Or.inr (hslots q e hq)⟩
      · exact ⟨⟨h.writes, h.emptied, h.freed⟩, rfl, rfl, fun q e hq => Or.inr hq⟩
    · rw [if_neg hset]
      by_cases hlink : novaGetEntryType m p = NovaEntryType.linkChange.code
      · rw [if_pos hlink]
        exact ⟨⟨h.writes, h.emptied, h.freed⟩, rfl, rfl, fun q e hq => Or.inr hq⟩
      · rw [if_neg hlink, if_neg hw]
        exact ⟨⟨h.writes, h.emptied, h.freed⟩, rfl, rfl, fun q e hq => Or.inr hq⟩

/-- What the main loop comes to. -/
def replayed (snapshots : List Nat) (m : ByteMem) (v : Bool) (s : FileRebuild) (visited : List Nat) :
    FileRebuild :=
  visited.foldl (FileRebuild.handle snapshots m v) s

/-- **The main loop goes over the entries.** -/
theorem LogPath.rebuildLoop (snapshots : List Nat) (v : Bool) (h : LogPath m tail curr visited) :
    ∀ (s : FileRebuild) (fuel : Nat), visited.length < fuel →
      rebuildFileLoop snapshots m tail v fuel curr s = .ok (replayed snapshots m v s visited) := by
  induction h with
  | tail =>
      intro s fuel hfuel
      obtain ⟨fuel, rfl⟩ : ∃ n, fuel = n + 1 := ⟨fuel - 1, by omega⟩
      rw [rebuildFileLoop, if_pos rfl]
      rfl
  | @entry curr p rest hcurr hfrom hpage hok hrest ih =>
      intro s fuel hfuel
      obtain ⟨fuel, rfl⟩ : ∃ n, fuel = n + 1 := ⟨fuel - 1, by omega⟩
      rw [rebuildFileLoop, if_neg hcurr]
      simp only [hfrom, hok.ne, if_false, hok.size]
      rw [ih _ fuel (by simpa using hfuel)]
      rfl

/-- **A run of the main loop.** -/
theorem Replaying.replayed (snapshots : List Nat) (v : Bool) (h : Replaying m s) (visited : List Nat) :
    Replaying m (replayed snapshots m v s visited) ∧
      ((Parfs.replayed snapshots m v s visited).transId, (Parfs.replayed snapshots m v s visited).transCurr) =
        (if v = true then (writesOf m visited).foldl (trackRun (transIdOf m)) (s.transId, s.transCurr)
          else (s.transId, s.transCurr)) ∧
      ∀ q e, (Parfs.replayed snapshots m v s visited).file.tree.slot q = some e →
        e ∈ visited ∨ s.file.tree.slot q = some e := by
  induction visited generalizing s with
  | nil => exact ⟨h, by simp [Parfs.replayed, writesOf], fun q e hq => Or.inr hq⟩
  | cons p visited ih =>
      obtain ⟨hrep, -, htrans, hslots⟩ := FileRebuild.handle_spec snapshots v h p
      obtain ⟨hrep', htrans', hslots'⟩ := ih hrep
      refine ⟨hrep', htrans'.trans ?_, fun q e hq => ?_⟩
      · rw [htrans]
        by_cases hv : v = true
        · rw [if_pos hv, if_pos hv]
          by_cases hw : IsWrite m p
          · rw [if_pos ⟨hv, hw⟩, writesOf_write hw, List.foldl_cons]
          · rw [if_neg fun hc => hw hc.2, writesOf_other hw]
        · rw [if_neg hv, if_neg hv, if_neg fun hc => hv hc.1]
      · rcases hslots' q e hq with hmem | hq
        · exact Or.inl (List.mem_cons_of_mem _ hmem)
        · rcases hslots q e hq with rfl | hq
          · exact Or.inl List.mem_cons_self
          · exact Or.inr hq

theorem replayed_concat (s : FileRebuild) (visited : List Nat) (p : Nat) :
    replayed snapshots m v s (visited ++ [p]) = (replayed snapshots m v s visited).handle snapshots m v p := by
  rw [replayed, List.foldl_append]
  rfl

end

end Parfs
