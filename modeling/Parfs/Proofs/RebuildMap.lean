/-
The page map a log stands for.

A write entry with valid pages takes its pages, and an attribute change of a regular file cuts
the map at the size it records.  The main loop of the rebuild leaves exactly this map in the
tree.
-/
import Parfs.Proofs.Rebuild

namespace Parfs

open Lib

/-- The map after one more entry. -/
def mapEntry (m : ByteMem) (map : Nat → Option Nat) (p : Nat) : Nat → Option Nat :=
  if IsWrite m p then
    if (wentry m p).numPages = (wentry m p).invalidPages then map
    else fun q =>
      if (wentry m p).pgoff ≤ q ∧ q < (wentry m p).pgoff + (wentry m p).numPages then some p else map q
  else if novaGetEntryType m p = NovaEntryType.setAttr.code ∧ isReg (sentry m p).mode = true then
    fun q => if ((sentry m p).size + 4095) / 4096 ≤ q then none else map q
  else map

/-- The page map of a log. -/
def pageMap (m : ByteMem) (visited : List Nat) : Nat → Option Nat := visited.foldl (mapEntry m) fun _ => none

section

variable {snapshots : List Nat} {m : ByteMem} {visited : List Nat} {p q e : Nat} {v : Bool}
  {map : Nat → Option Nat} {s : FileRebuild}

theorem pageMap_concat : pageMap m (visited ++ [p]) = mapEntry m (pageMap m visited) p := by
  rw [pageMap, List.foldl_append]
  rfl

theorem mapEntry_write (map : Nat → Option Nat) (hw : IsWrite m p) (q : Nat) : mapEntry m map p q =
    if (wentry m p).numPages ≠ (wentry m p).invalidPages ∧ (wentry m p).pgoff ≤ q ∧
      q < (wentry m p).pgoff + (wentry m p).numPages then some p else map q := by
  unfold mapEntry
  rw [if_pos hw]
  by_cases hdead : (wentry m p).numPages = (wentry m p).invalidPages
  · rw [if_pos hdead, if_neg fun h => h.1 hdead]
  · rw [if_neg hdead]
    simp only [ne_eq, hdead, not_false_eq_true, true_and]

/-- What is kept of a map while a log is replayed: its entries have been met, they are where they
say, and they have no holes. -/
structure MapOk (m : ByteMem) (visited : List Nat) (map : Nat → Option Nat) : Prop where
  met : ∀ q e, map q = some e → e ∈ visited ∧ IsWrite m e ∧ (wentry m e).pgoff ≤ q ∧
    q < (wentry m e).pgoff + (wentry m e).numPages
  solid : Solid map

theorem MapOk.start (m : ByteMem) : MapOk m [] fun _ => none := ⟨nofun, nofun⟩

/-- **One entry keeps a map in order.** -/
theorem MapOk.entry (h : MapOk m visited map) (hp : p ∉ visited) :
    MapOk m (visited ++ [p]) (mapEntry m map p) := by
  have hmore : ∀ {q e}, map q = some e → e ∈ visited ++ [p] ∧ IsWrite m e ∧ (wentry m e).pgoff ≤ q ∧
      q < (wentry m e).pgoff + (wentry m e).numPages :=
    fun hq => ⟨List.mem_append_left _ (h.met _ _ hq).1, (h.met _ _ hq).2⟩
  by_cases hw : IsWrite m p
  · have hslot := mapEntry_write map hw
    have hold : ∀ {q e}, mapEntry m map p q = some e → e ≠ p → map q = some e := by
      intro q e hq hne
      rw [hslot q] at hq
      split at hq
      · exact absurd (Option.some.inj hq).symm hne
      · exact hq
    have hnew : ∀ {q}, mapEntry m map p q = some p →
        (wentry m p).numPages ≠ (wentry m p).invalidPages ∧ (wentry m p).pgoff ≤ q ∧
          q < (wentry m p).pgoff + (wentry m p).numPages := by
      intro q hq
      rw [hslot q] at hq
      split at hq
      · assumption
      · exact absurd (h.met _ _ hq).1 hp
    refine ⟨fun q e hq => ?_, fun e a b c hab hbc ha hc => ?_⟩
    · by_cases he : e = p
      · subst he
        exact ⟨List.mem_append_right _ List.mem_cons_self, hw, (hnew hq).2⟩
      · exact hmore (hold hq he)
    · rw [hslot b]
      split
      · exact nofun
      · rename_i hout
        by_cases he : e = p
        · subst he
          have h1 := hnew ha
          have h2 := hnew hc
          exact absurd ⟨h1.1, by omega, by omega⟩ hout
        · exact h.solid e a b c hab hbc (hold ha he) (hold hc he)
  · unfold mapEntry
    rw [if_neg hw]
    split
    · have hcut : ∀ {cut q e}, (if cut ≤ q then none else map q) = some e → q < cut ∧ map q = some e := by
        intro cut q e hq
        split at hq
        · cases hq
        · exact ⟨by omega, hq⟩
      refine ⟨fun q e hq => hmore (hcut hq).2, fun e a b c hab hbc ha hc => ?_⟩
      obtain ⟨-, ha⟩ := hcut ha
      obtain ⟨hlt, hc⟩ := hcut hc
      rw [if_neg (by omega)]
      exact h.solid e a b c hab hbc ha hc
    · exact ⟨fun q e hq => hmore hq, h.solid⟩

theorem pageMap_ok (hnodup : visited.Nodup) : MapOk m visited (pageMap m visited) := by
  induction visited using List.reverseRecOn with
  | nil => exact MapOk.start m
  | append_singleton visited p ih =>
      obtain ⟨hbefore, -, hnew⟩ := List.nodup_append.mp hnodup
      rw [pageMap_concat]
      exact (ih hbefore).entry fun hp => hnew p hp p List.mem_cons_self rfl

/-- One entry does to the tree what it does to the map. -/
theorem FileRebuild.handle_map (snapshots : List Nat) (v : Bool) (h : Replaying m s)
    (hok : MapOk m visited s.file.tree.slot) (p : Nat) :
    (s.handle snapshots m v p).file.tree.slot = mapEntry m s.file.tree.slot p := by
  by_cases hw : IsWrite m p
  · funext q
    rw [(FileRebuild.handle_write snapshots v h hw).2 q, mapEntry_write _ hw]
  · unfold mapEntry FileRebuild.handle
    rw [if_neg hw]
    dsimp only
    by_cases hset : novaGetEntryType m p = NovaEntryType.setAttr.code
    · rw [if_pos hset]
      unfold novaApplySetattrEntry
      dsimp only
      by_cases hreg : isReg (sentry m p).mode = true
      · rw [if_pos hreg, if_pos ⟨hset, hreg⟩]
        have hpgoff : ∀ q e, s.file.tree.slot q = some e → (s.file.entries e).pgoff ≤ q := by
          intro q e hq
          rw [(h.writes.fields e).1]
          exact (hok.met q e hq).2.2.1
        obtain ⟨cut, hcut⟩ : ∃ cut, Deleted snapshots s.file (((sentry m p).size + 4095) / 4096) false false 0 cut
            (novaDeleteFileTree snapshots s.file (((sentry m p).size + 4095) / 4096) false false 0) :=
          novaDeleteFileTree_spec hok.solid hpgoff
        exact funext hcut.slots
      · rw [if_neg hreg, if_neg fun hc => hreg hc.2]
    · have hother : ¬(novaGetEntryType m p = NovaEntryType.setAttr.code ∧ isReg (sentry m p).mode = true) :=
        fun hc => hset hc.1
      rw [if_neg hset, if_neg hw, if_neg hother]
      split <;> rfl

/-- **The main loop leaves the page map of the log in the tree.** -/
theorem replayed_map (snapshots : List Nat) (v : Bool) (reb : NovaInodeRebuild) (transCurr : Nat)
    (hnodup : visited.Nodup) :
    (replayed snapshots m v (novaInitHeader m reb transCurr) visited).file.tree.slot = pageMap m visited := by
  induction visited using List.reverseRecOn with
  | nil => rfl
  | append_singleton visited p ih =>
      have hbefore := (List.nodup_append.mp hnodup).1
      obtain ⟨hrep, -, -⟩ := (Replaying.start m reb transCurr).replayed snapshots v visited
      have hih := ih hbefore
      rw [replayed_concat, pageMap_concat, ← hih]
      exact FileRebuild.handle_map snapshots v hrep (by rw [hih]; exact pageMap_ok hbefore) p

end

end Parfs
