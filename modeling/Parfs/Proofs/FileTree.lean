/-
Pages in, pages out.

Every page of a write entry is in the tree, on the list of replaced pages, freed, or kept for
a snapshot, and the functions of the tree only move pages from one place to the next.  A run
of pages on the list or in a call that frees is described by its first page and its length, so
the accounts balance only when the pages of one entry that are met one after another stand
next to each other.  `Solid` is what makes them.
-/
import Mathlib.Data.Multiset.Range
import Parfs.FileTree

namespace Parfs

open Lib

/-! ### Runs of pages -/

/-- `n` pages of an entry, with the entry. -/
def runPages (e s n : Nat) : Multiset (Nat × Nat) := (Multiset.range n).map fun j => (e, s + j)

def OldEntry.pages (o : OldEntry) : Multiset (Nat × Nat) := runPages o.entry o.startPgoff o.numFree

def FreedBlocks.pages (b : FreedBlocks) : Multiset (Nat × Nat) := runPages b.entry b.pgoff b.num

def listedPages (l : List OldEntry) : Multiset (Nat × Nat) := (l.map OldEntry.pages).sum

def freedPages (l : List FreedBlocks) : Multiset (Nat × Nat) := (l.map FreedBlocks.pages).sum

/-- Between two pages of one entry there is no hole. -/
def Solid (slot : Nat → Option Nat) : Prop :=
  ∀ e p q r, p < q → q < r → slot p = some e → slot r = some e → slot q ≠ none

/-- The call that frees the blocks of a run on the list. -/
def OldEntry.toFreed (entries : Nat → NovaFileWriteEntry) (o : OldEntry) : FreedBlocks :=
  ⟨o.entry, o.startPgoff, getNvmm (entries o.entry) o.startPgoff, o.numFree⟩

/-- What an entry says about its pages is the same. -/
def SameExtents (es es' : Nat → NovaFileWriteEntry) : Prop :=
  ∀ x, (es' x).pgoff = (es x).pgoff ∧ (es' x).numPages = (es x).numPages ∧
    (es' x).blocknr = (es x).blocknr ∧ (es' x).epochId = (es x).epochId

section

variable {snapshots : List Nat} {f f' : FileTree} {e p q n s entry epochId lo : Nat} {free : Bool}
  {orig : Nat → Option Nat} {a a' : Assigning} {d d' : Deleting} {es es' es'' : Nat → NovaFileWriteEntry}
  {inserts : Nat → Bool} {deleteNvmm deleteDead : Bool}

@[simp] theorem runPages_zero : runPages e s 0 = 0 := rfl

theorem runPages_succ : runPages e s (n + 1) = runPages e s n + {(e, s + n)} := by
  unfold runPages
  rw [Multiset.range_succ, Multiset.map_cons, ← Multiset.singleton_add, add_comm]

theorem runPages_one : runPages e s 1 = {(e, s)} := by
  rw [runPages_succ, runPages_zero, zero_add, Nat.add_zero]

theorem mem_runPages {x : Nat × Nat} : x ∈ runPages e s n ↔ x.1 = e ∧ s ≤ x.2 ∧ x.2 < s + n := by
  unfold runPages
  rw [Multiset.mem_map]
  constructor
  · rintro ⟨j, hj, rfl⟩
    rw [Multiset.mem_range] at hj
    exact ⟨rfl, by omega, by omega⟩
  · rintro ⟨rfl, h1, h2⟩
    exact ⟨x.2 - s, Multiset.mem_range.mpr (by omega), by rw [Nat.add_sub_cancel' h1]⟩

@[simp] theorem listedPages_nil : listedPages [] = 0 := rfl

@[simp] theorem listedPages_cons {o : OldEntry} {l : List OldEntry} :
    listedPages (o :: l) = o.pages + listedPages l := by simp [listedPages]

@[simp] theorem freedPages_nil : freedPages [] = 0 := rfl

@[simp] theorem freedPages_append {l l' : List FreedBlocks} :
    freedPages (l ++ l') = freedPages l + freedPages l' := by simp [freedPages]

@[simp] theorem freedPages_singleton {b : FreedBlocks} : freedPages [b] = b.pages := by simp [freedPages]

theorem mem_listedPages {l : List OldEntry} {x : Nat × Nat} :
    x ∈ listedPages l ↔ ∃ o ∈ l, x ∈ o.pages := by
  induction l with
  | nil => simp
  | cons o l ih => simp [ih]

theorem mem_freedPages {l : List FreedBlocks} {x : Nat × Nat} :
    x ∈ freedPages l ↔ ∃ b ∈ l, x ∈ b.pages := by
  induction l with
  | nil => simp
  | cons b l ih =>
      rw [← List.singleton_append, freedPages_append, freedPages_singleton, Multiset.mem_add, ih]
      simp

/-- The pages that are freed are those that were on the list. -/
theorem freedPages_toFreed (l : List OldEntry) : freedPages (l.map (OldEntry.toFreed es)) = listedPages l := by
  induction l with
  | nil => rfl
  | cons o l ih =>
      rw [List.map_cons, ← List.singleton_append, freedPages_append, freedPages_singleton, ih, listedPages_cons]
      rfl

theorem SameExtents.refl : SameExtents es es := fun _ => ⟨rfl, rfl, rfl, rfl⟩

theorem SameExtents.trans (h : SameExtents es es') (h' : SameExtents es' es'') : SameExtents es es'' :=
  fun x => ⟨(h' x).1.trans (h x).1, (h' x).2.1.trans (h x).2.1, (h' x).2.2.1.trans (h x).2.2.1,
    (h' x).2.2.2.trans (h x).2.2.2⟩

theorem SameExtents.getNvmm (h : SameExtents es es') : getNvmm (es' e) p = getNvmm (es e) p := by
  unfold Parfs.getNvmm
  rw [(h e).2.2.1, (h e).1]

/-! ### One entry is invalidated -/

/-- Marking entries: extents stay, and a mark once set stays. -/
structure Marked (f f' : FileTree) : Prop where
  tree : f'.tree = f.tree
  extents : SameExtents f.entries f'.entries
  stays : ∀ x, (f.entries x).reassigned = 1 → (f'.entries x).reassigned = 1

theorem Marked.refl : Marked f f := ⟨rfl, SameExtents.refl, fun _ h => h⟩

theorem Marked.trans {f'' : FileTree} (h : Marked f f') (h' : Marked f' f'') : Marked f f'' :=
  ⟨h'.tree.trans h.tree, h.extents.trans h'.extents, fun x hx => h'.stays x (h.stays x hx)⟩

/-- `nova_invalidate_write_entry` with `reassign` set marks the entry and no other. -/
theorem novaInvalidateWriteEntry_spec (f : FileTree) (entry n : Nat) :
    Marked f (novaInvalidateWriteEntry f entry true n) ∧
    ((novaInvalidateWriteEntry f entry true n).entries entry).reassigned = 1 ∧
    (∀ x, x ≠ entry → (novaInvalidateWriteEntry f entry true n).entries x = f.entries x) ∧
    (novaInvalidateWriteEntry f entry true n).oldEntryList = f.oldEntryList ∧
    (novaInvalidateWriteEntry f entry true n).freed = f.freed ∧
    (novaInvalidateWriteEntry f entry true n).recorded = f.recorded := by
  by_cases h : n = 0 ∧ (f.entries entry).reassigned = 1
  · have heq : novaInvalidateWriteEntry f entry true n = f := if_pos h
    rw [heq]
    exact ⟨Marked.refl, h.2, fun _ _ => rfl, rfl, rfl, rfl⟩
  · obtain ⟨e', he', hset, hext⟩ : ∃ e' : NovaFileWriteEntry,
        novaInvalidateWriteEntry f entry true n = { f with entries := Function.update f.entries entry e' } ∧
          e'.reassigned = 1 ∧ e'.pgoff = (f.entries entry).pgoff ∧
          e'.numPages = (f.entries entry).numPages ∧ e'.blocknr = (f.entries entry).blocknr ∧
          e'.epochId = (f.entries entry).epochId :=
      ⟨_, if_neg h, rfl, rfl, rfl, rfl, rfl⟩
    have hentries : (novaInvalidateWriteEntry f entry true n).entries = Function.update f.entries entry e' := by
      rw [he']
    have hself : (novaInvalidateWriteEntry f entry true n).entries entry = e' := by
      rw [hentries, Function.update_self]
    have hother : ∀ x, x ≠ entry → (novaInvalidateWriteEntry f entry true n).entries x = f.entries x := by
      intro x hx
      rw [hentries, Function.update_of_ne hx]
    refine ⟨⟨by rw [he'], fun x => ?_, fun x hx => ?_⟩, by rw [hself, hset], hother, by rw [he'], by rw [he'],
      by rw [he']⟩
    · by_cases hx : x = entry
      · rw [hx, hself]
        exact hext
      · rw [hother x hx]
        exact ⟨rfl, rfl, rfl, rfl⟩
    · by_cases hxe : x = entry
      · rw [hxe, hself, hset]
      · rw [hother x hxe]
        exact hx

/-! ### The list is drained -/

/-- What `free_old_entry` does. -/
structure Drained (f f' : FileTree) : Prop extends Marked f f' where
  emptied : f'.oldEntryList = []
  freed : f'.freed = f.freed ++ f.oldEntryList.map (OldEntry.toFreed f.entries)
  recorded : f'.recorded = f.recorded
  marked : ∀ o ∈ f.oldEntryList, (f'.entries o.entry).reassigned = 1
  others : ∀ x, (∀ o ∈ f.oldEntryList, o.entry ≠ x) → f'.entries x = f.entries x

theorem freeOldEntry_spec (snapshots : List Nat) (f : FileTree) (epochId : Nat) : Drained f (freeOldEntry snapshots f epochId) := by
  have hfold : ∀ (l : List OldEntry) (f : FileTree),
      let f' := l.foldl (fun f old => novaInvalidateWriteEntry
        (novaFreeOldEntry snapshots f old.entry old.startPgoff old.numFree true epochId) old.entry true 0) f
      Marked f f' ∧ f'.freed = f.freed ++ l.map (OldEntry.toFreed f.entries) ∧ f'.recorded = f.recorded ∧
        (∀ o ∈ l, (f'.entries o.entry).reassigned = 1) ∧
        ∀ x, (∀ o ∈ l, o.entry ≠ x) → f'.entries x = f.entries x := by
    intro l
    induction l with
    | nil => exact fun f => ⟨Marked.refl, (List.append_nil _).symm, rfl, by simp, fun _ _ => rfl⟩
    | cons o l ih =>
        intro f
        generalize hf₁ : novaFreeOldEntry snapshots f o.entry o.startPgoff o.numFree true epochId = f₁
        have hfreed₁ : f₁.freed = f.freed ++ [o.toFreed f.entries] := by rw [← hf₁]; rfl
        have hrest₁ : f₁.tree = f.tree ∧ f₁.entries = f.entries ∧ f₁.recorded = f.recorded := by
          rw [← hf₁]
          exact ⟨rfl, rfl, rfl⟩
        obtain ⟨hmark, hself, hother, -, hfreed₂, hrec₂⟩ :=
          novaInvalidateWriteEntry_spec f₁ o.entry 0
        obtain ⟨hm, hfreed, hrec, hset, hkeep⟩ := ih (novaInvalidateWriteEntry f₁ o.entry true 0)
        simp only [List.foldl_cons, hf₁]
        have hext : SameExtents f.entries (novaInvalidateWriteEntry f₁ o.entry true 0).entries := by
          rw [← hrest₁.2.1]
          exact hmark.extents
        refine ⟨⟨hm.tree.trans (hmark.tree.trans hrest₁.1), hext.trans hm.extents, fun x hx => ?_⟩, ?_,
          hrec.trans (hrec₂.trans hrest₁.2.2), ?_, ?_⟩
        · exact hm.stays x (hmark.stays x (by rw [hrest₁.2.1]; exact hx))
        · rw [hfreed, hfreed₂, hfreed₁, List.append_assoc, List.map_cons, List.singleton_append]
          congr 2
          refine List.map_congr_left fun o' _ => ?_
          unfold OldEntry.toFreed
          rw [hext.getNvmm]
        · intro o' ho'
          rcases List.mem_cons.mp ho' with rfl | ho'
          · exact hm.stays _ hself
          · exact hset o' ho'
        · intro x hx
          rw [hkeep x fun o' ho' => hx o' (List.mem_cons_of_mem _ ho'),
            hother x fun h => hx o List.mem_cons_self h.symm, hrest₁.2.1]
  obtain ⟨hm, hfreed, hrec, hset, hkeep⟩ := hfold f.oldEntryList f
  exact ⟨⟨hm.tree, hm.extents, hm.stays⟩, rfl, hfreed, hrec, hset, hkeep⟩

/-! ### An entry is put into the tree -/

/-- The run collected so far. -/
def Assigning.current (a : Assigning) : Multiset (Nat × Nat) :=
  match a.startOldEntry with
  | some e => runPages e a.startOldPgoff a.numFree
  | none => 0

/-- A run of pages that were mapped to its entry. -/
def RunOf (orig : Nat → Option Nat) (lo hi : Nat) (o : OldEntry) : Prop :=
  0 < o.numFree ∧ lo ≤ o.startPgoff ∧ o.startPgoff + o.numFree ≤ hi ∧
    ∀ j < o.numFree, orig (o.startPgoff + j) = some o.entry

/-- After the pages from `lo` to `hi`, with the tree and the list there were. -/
structure AssignInv (orig : Radix Nat) (list : List OldEntry) (entry lo hi : Nat) (a : Assigning) : Prop where
  slots : ∀ q, a.tree.slot q = if lo ≤ q ∧ q < hi then some entry else orig.slot q
  account : a.tree.members + (listedPages a.oldEntryList + a.current) =
    orig.members + listedPages list + runPages entry lo (hi - lo)
  listed : ∀ o ∈ a.oldEntryList, o ∈ list ∨ RunOf orig.slot lo hi o
  run : ∀ e, a.startOldEntry = some e → RunOf orig.slot lo hi ⟨e, a.startOldPgoff, a.numFree⟩
  /-- Nothing was mapped since the run ended. -/
  since : ∀ e r, a.startOldEntry = some e → a.startOldPgoff + a.numFree ≤ r → r < hi → orig.slot r = none

theorem RunOf.mono {lo hi hi' : Nat} {o : OldEntry} (h : RunOf orig lo hi o) (hle : hi ≤ hi') :
    RunOf orig lo hi' o := ⟨h.1, h.2.1, h.2.2.1.trans hle, h.2.2.2⟩

/-- The run goes to the list with its pages. -/
theorem Assigning.flush_spec : (a.flush true).tree = a.tree ∧
    listedPages (a.flush true).oldEntryList = listedPages a.oldEntryList + a.current ∧
    ∀ o ∈ (a.flush true).oldEntryList,
      o ∈ a.oldEntryList ∨ a.startOldEntry = some o.entry ∧ o = ⟨o.entry, a.startOldPgoff, a.numFree⟩ := by
  unfold Assigning.flush Assigning.current
  cases h : a.startOldEntry with
  | none => exact ⟨rfl, (add_zero _).symm, fun o ho => Or.inl ho⟩
  | some e =>
      refine ⟨rfl, ?_, fun o ho => ?_⟩
      · show listedPages (_ :: _) = _
        rw [listedPages_cons, add_comm]
        rfl
      · rcases List.mem_cons.mp ho with rfl | ho
        · exact Or.inr ⟨rfl, rfl⟩
        · exact Or.inl ho

/-- A run goes up to the next page of its entry: a hole would have a page of the entry on each
side. -/
theorem RunOf.ends {lo hi : Nat} {o : OldEntry} (h : RunOf orig lo hi o) (hsolid : Solid orig)
    (hhi : orig hi = some o.entry)
    (hsince : ∀ r, o.startPgoff + o.numFree ≤ r → r < hi → orig r = none) :
    o.startPgoff + o.numFree = hi := by
  obtain ⟨hpos, -, hle, hrun⟩ := h
  by_contra hne
  have hlast := hrun (o.numFree - 1) (by omega)
  exact hsolid o.entry _ (o.startPgoff + o.numFree) hi (by omega) (by omega) hlast hhi
    (hsince _ le_rfl (by omega))

section

variable {orig : Radix Nat} {list : List OldEntry} {hi : Nat}

theorem AssignInv.start (entry lo : Nat) (t : Radix Nat) (l : List OldEntry) :
    AssignInv t l entry lo lo ⟨t, l, none, 0, 0⟩ where
  slots := fun q => by rw [if_neg (by omega)]
  account := by
    show t.members + (listedPages l + 0) = _
    rw [Nat.sub_self, runPages_zero]
    abel
  listed := fun o ho => Or.inl ho
  run := fun e he => by cases he
  since := fun e r he => by cases he

theorem slots_step {t : Radix Nat} (h : ∀ q, t.slot q = if lo ≤ q ∧ q < hi then some entry else orig.slot q)
    (hlo : lo ≤ hi) (q : Nat) :
    (t.set hi entry).slot q = if lo ≤ q ∧ q < hi + 1 then some entry else orig.slot q := by
  by_cases hq : q = hi
  · rw [hq, Radix.set_slot_self, if_pos ⟨hlo, by omega⟩]
  · rw [Radix.set_slot_of_ne hq, h q]
    by_cases hin : lo ≤ q ∧ q < hi
    · rw [if_pos hin, if_pos ⟨hin.1, by omega⟩]
    · rw [if_neg hin, if_neg (by omega)]

/-- One page more. -/
theorem AssignInv.assignPage (h : AssignInv orig list entry lo hi a) (hsolid : Solid orig.slot) (hlo : lo ≤ hi) :
    AssignInv orig list entry lo (hi + 1) (assignPage entry true a hi) := by
  have hslot : a.tree.slot hi = orig.slot hi := by rw [h.slots hi, if_neg (by omega)]
  have hset := Radix.members_set (t := a.tree) (p := hi) (x := entry)
  have hrun : runPages entry lo (hi + 1 - lo) = runPages entry lo (hi - lo) + {(entry, hi)} := by
    rw [Nat.sub_add_comm hlo, runPages_succ, Nat.add_sub_cancel' hlo]
  have haccount := h.account
  unfold Parfs.assignPage
  cases hold : a.tree.slot hi with
  | none =>
      rw [hold, Radix.member_none, add_zero] at hset
      exact
        { slots := slots_step h.slots hlo
          account := by
            show (a.tree.set hi entry).members + (listedPages a.oldEntryList + a.current) = _
            rw [hset, hrun, ← add_assoc (orig.members + _), ← haccount]
            abel
          listed := fun o ho => (h.listed o ho).imp_right fun hr => hr.mono (Nat.le_succ hi)
          run := fun e he => (h.run e he).mono (Nat.le_succ hi)
          since := by
            intro e r he h1 h2
            rcases Nat.lt_or_eq_of_le (Nat.lt_succ_iff.mp h2) with hlt | rfl
            · exact h.since e r he h1 hlt
            · rw [← hslot, hold] }
  | some old =>
      rw [hold, Radix.member_some] at hset
      have horig : orig.slot hi = some old := by rw [← hslot, hold]
      by_cases hsame : a.startOldEntry = some old
      · have hr := h.run old hsame
        have hend : a.startOldPgoff + a.numFree = hi := hr.ends hsolid horig (h.since old · hsame)
        have hcur : a.current = runPages old a.startOldPgoff a.numFree := by
          unfold Assigning.current
          rw [hsame]
        dsimp only
        rw [if_neg (by rw [hsame]; simp)]
        exact
          { slots := slots_step h.slots hlo
            account := by
              have hcur' : Assigning.current
                  { a with tree := a.tree.set hi entry, numFree := a.numFree + 1 } = a.current + {(old, hi)} := by
                unfold Assigning.current
                dsimp only
                rw [hsame]
                dsimp only
                rw [runPages_succ, hend]
              rw [hcur', hrun, ← add_assoc (orig.members + _), ← haccount]
              show (a.tree.set hi entry).members + (listedPages a.oldEntryList + _) = _
              calc _ = (a.tree.set hi entry).members + {(old, hi)} +
                    (listedPages a.oldEntryList + a.current) := by abel
                _ = _ := by rw [hset]; abel
            listed := fun o ho => (h.listed o ho).imp_right fun hr => hr.mono (Nat.le_succ hi)
            run := by
              intro e he
              have : e = old := Option.some.inj (he.symm.trans hsame)
              subst this
              refine ⟨Nat.succ_pos _, hr.2.1, by dsimp only; omega, fun j hj => ?_⟩
              rcases Nat.lt_or_eq_of_le (Nat.lt_succ_iff.mp hj) with hlt | rfl
              · exact hr.2.2.2 j hlt
              · dsimp only
                rw [hend, horig]
            since := by
              intro e r he h1 h2
              dsimp only at h1
              omega }
      · obtain ⟨htree, hpages, hmem⟩ := Assigning.flush_spec (a := a)
        dsimp only
        rw [if_pos hsame]
        exact
          { slots := slots_step h.slots hlo
            account := by
              show (a.tree.set hi entry).members +
                (listedPages (a.flush true).oldEntryList + runPages old hi 1) = _
              rw [hpages, hrun, runPages_one, ← add_assoc (orig.members + _), ← haccount]
              calc _ = (a.tree.set hi entry).members + {(old, hi)} +
                    (listedPages a.oldEntryList + a.current) := by abel
                _ = _ := by rw [hset]; abel
            listed := by
              intro o ho
              rcases hmem o ho with hmem | ⟨he, hoeq⟩
              · exact (h.listed o hmem).imp_right fun hr => hr.mono (Nat.le_succ hi)
              · rw [hoeq]
                exact Or.inr ((h.run o.entry he).mono (Nat.le_succ hi))
            run := by
              intro e he
              have : e = old := (Option.some.inj he).symm
              subst this
              refine ⟨Nat.one_pos, hlo, le_rfl, fun j hj => ?_⟩
              dsimp only at hj ⊢
              rw [Nat.lt_one_iff.mp hj, Nat.add_zero, horig]
            since := by
              intro e r he h1 h2
              dsimp only at h1
              omega }

/-- All the pages. -/
theorem AssignInv.assignPages (hsolid : Solid orig.slot) (h : AssignInv orig list entry lo hi a) (hlo : lo ≤ hi)
    (hdone : (assignPages entry true inserts (List.range' hi n) a).2 = true) :
    AssignInv orig list entry lo (hi + n) (assignPages entry true inserts (List.range' hi n) a).1 := by
  induction n generalizing hi a with
  | zero => exact h
  | succ n ih =>
      rw [List.range'_succ] at hdone ⊢
      unfold Parfs.assignPages at hdone ⊢
      by_cases hfail : a.tree.slot hi = none ∧ inserts hi = false
      · rw [if_pos hfail] at hdone
        cases hdone
      · rw [if_neg hfail] at hdone ⊢
        rw [Nat.add_comm n 1, ← Nat.add_assoc]
        exact ih (h.assignPage hsolid hlo) (by omega) hdone

end

/-- What `nova_assign_write_entry` does when it succeeds. -/
structure Assigned (f : FileTree) (entry : Nat) (entryc : NovaFileWriteEntry) (f' : FileTree) : Prop where
  slots : ∀ q, f'.tree.slot q =
    if entryc.pgoff ≤ q ∧ q < entryc.pgoff + entryc.numPages then some entry else f.tree.slot q
  account : f'.tree.members + listedPages f'.oldEntryList =
    f.tree.members + runPages entry entryc.pgoff entryc.numPages
  listed : ∀ o ∈ f'.oldEntryList, RunOf f.tree.slot entryc.pgoff (entryc.pgoff + entryc.numPages) o
  freed : f'.freed = f.freed ++ f.oldEntryList.map (OldEntry.toFreed f.entries)
  recorded : f'.recorded = f.recorded
  extents : SameExtents f.entries f'.entries
  stays : ∀ x, (f.entries x).reassigned = 1 → (f'.entries x).reassigned = 1
  marked : ∀ o ∈ f.oldEntryList, (f'.entries o.entry).reassigned = 1
  others : ∀ x, (∀ o ∈ f.oldEntryList, o.entry ≠ x) → f'.entries x = f.entries x

theorem novaAssignWriteEntry_spec {entryc : NovaFileWriteEntry} (hsolid : Solid f.tree.slot)
    (hdone : (novaAssignWriteEntry snapshots f entry entryc true inserts).2 = true) :
    Assigned f entry entryc (novaAssignWriteEntry snapshots f entry entryc true inserts).1 := by
  have hdrained := freeOldEntry_spec snapshots f entryc.epochId
  unfold novaAssignWriteEntry at hdone ⊢
  generalize freeOldEntry snapshots f entryc.epochId = f₁ at hdrained hdone ⊢
  dsimp only at hdone ⊢
  rw [hdrained.tree, hdrained.emptied] at hdone ⊢
  have hinv := AssignInv.assignPages hsolid
    (AssignInv.start entry entryc.pgoff f.tree []) le_rfl hdone
  obtain ⟨htree, hpages, hmem⟩ := Assigning.flush_spec (a := (assignPages entry true inserts
    (List.range' entryc.pgoff entryc.numPages) ⟨f.tree, [], none, 0, 0⟩).1)
  simp only [hdone, if_true]
  exact
    { slots := by
        intro q
        rw [htree]
        exact hinv.slots q
      account := by
        rw [htree, hpages, hinv.account, listedPages_nil, add_zero, Nat.add_sub_cancel_left]
      listed := by
        intro o ho
        rcases hmem o ho with hmem | ⟨he, hoeq⟩
        · exact (hinv.listed o hmem).resolve_left (by simp)
        · rw [hoeq]
          exact hinv.run o.entry he
      freed := hdrained.freed
      recorded := hdrained.recorded
      extents := hdrained.extents
      stays := hdrained.stays
      marked := hdrained.marked
      others := hdrained.others }

/-! ### The tree is cut -/

/-- Whether the blocks of a run that is cut are freed at once. -/
def OldEntry.freedBy (snapshots : List Nat) (entries : Nat → NovaFileWriteEntry) (deleteNvmm deleteDead : Bool)
    (epochId : Nat) (o : OldEntry) : Bool :=
  deleteNvmm && (deleteDead || (novaOldEntryDeleteable snapshots (entries o.entry).epochId epochId).isNone)

/-- What goes to a snapshot instead. -/
def OldEntry.recordedBy (snapshots : List Nat) (entries : Nat → NovaFileWriteEntry)
    (deleteNvmm deleteDead : Bool) (epochId : Nat) (o : OldEntry) : Option SnapshotData :=
  if deleteNvmm = true ∧ deleteDead = false then
    (novaOldEntryDeleteable snapshots (entries o.entry).epochId epochId).map fun info =>
      ⟨info, getNvmm (entries o.entry) o.startPgoff, o.numFree, epochId⟩
  else none

/-- What a number of calls of `nova_free_old_entry` do. -/
structure Cut (snapshots : List Nat) (f : FileTree) (deleteNvmm deleteDead : Bool) (epochId : Nat)
    (cut : List OldEntry) (f' : FileTree) : Prop where
  extents : SameExtents f.entries f'.entries
  stays : ∀ x, (f.entries x).reassigned = 1 → (f'.entries x).reassigned = 1
  list : f'.oldEntryList = f.oldEntryList
  freed : f'.freed = f.freed ++
    (cut.filter (OldEntry.freedBy snapshots f.entries deleteNvmm deleteDead epochId)).map
      (OldEntry.toFreed f.entries)
  recorded : f'.recorded = f.recorded ++
    cut.filterMap (OldEntry.recordedBy snapshots f.entries deleteNvmm deleteDead epochId)
  marked : deleteNvmm = true → deleteDead = false → ∀ o ∈ cut, (f'.entries o.entry).reassigned = 1
  others : ∀ x, (∀ o ∈ cut, o.entry ≠ x) → f'.entries x = f.entries x

theorem Cut.nil : Cut snapshots f deleteNvmm deleteDead epochId [] f :=
  ⟨SameExtents.refl, fun _ h => h, rfl, (List.append_nil _).symm, (List.append_nil _).symm, by simp,
    fun _ _ => rfl⟩

/-- `nova_free_old_entry`, of one run. -/
theorem novaFreeOldEntry_spec (snapshots : List Nat) (f : FileTree) (o : OldEntry) (deleteDead : Bool)
    (epochId : Nat) :
    (novaFreeOldEntry snapshots f o.entry o.startPgoff o.numFree deleteDead epochId).tree = f.tree ∧
    Cut snapshots f true deleteDead epochId [o]
      (novaFreeOldEntry snapshots f o.entry o.startPgoff o.numFree deleteDead epochId) := by
  unfold novaFreeOldEntry
  cases deleteDead with
  | true =>
      rw [if_pos rfl]
      exact ⟨rfl, SameExtents.refl, fun _ h => h, rfl, rfl, (List.append_nil _).symm,
        fun _ h => Bool.noConfusion h, fun _ _ => rfl⟩
  | false =>
      rw [if_neg Bool.false_ne_true]
      cases hinfo : novaOldEntryDeleteable snapshots (f.entries o.entry).epochId epochId with
      | none =>
          obtain ⟨hmark, hself, hother, hlist, hfreed, hrec⟩ :=
            novaInvalidateWriteEntry_spec f o.entry o.numFree
          refine ⟨hmark.tree, hmark.extents, hmark.stays, hlist, ?_, ?_, ?_, ?_⟩
          · simp [OldEntry.freedBy, hinfo, hfreed, OldEntry.toFreed]
          · simp [OldEntry.recordedBy, hinfo, hrec]
          · simp [hself]
          · exact fun x hx => hother x fun h => hx o List.mem_cons_self h.symm
      | some info =>
          dsimp only
          generalize hf₁ : ({ f with recorded := f.recorded ++
            [⟨info, getNvmm (f.entries o.entry) o.startPgoff, o.numFree, epochId⟩] } : FileTree) = f₁
          have hentries : f₁.entries = f.entries := by rw [← hf₁]
          obtain ⟨hmark, hself, hother, hlist, hfreed, hrec⟩ :=
            novaInvalidateWriteEntry_spec f₁ o.entry 0
          have hext := hmark.extents
          have hstays := hmark.stays
          rw [hentries] at hext hstays hother
          refine ⟨hmark.tree.trans (by rw [← hf₁]), hext, hstays, hlist.trans (by rw [← hf₁]), ?_, ?_, ?_, ?_⟩
          · rw [hfreed, ← hf₁]
            simp [OldEntry.freedBy, hinfo]
          · rw [hrec, ← hf₁]
            simp [OldEntry.recordedBy, hinfo]
          · simp [hself]
          · exact fun x hx => hother x fun h => hx o List.mem_cons_self h.symm

theorem OldEntry.toFreed_congr (h : SameExtents es es') : OldEntry.toFreed es' = OldEntry.toFreed es := by
  funext o
  unfold OldEntry.toFreed
  rw [h.getNvmm]

theorem OldEntry.freedBy_congr (h : SameExtents es es') :
    OldEntry.freedBy snapshots es' deleteNvmm deleteDead epochId =
      OldEntry.freedBy snapshots es deleteNvmm deleteDead epochId := by
  funext o
  unfold OldEntry.freedBy
  rw [(h o.entry).2.2.2]

theorem OldEntry.recordedBy_congr (h : SameExtents es es') :
    OldEntry.recordedBy snapshots es' deleteNvmm deleteDead epochId =
      OldEntry.recordedBy snapshots es deleteNvmm deleteDead epochId := by
  funext o
  unfold OldEntry.recordedBy
  rw [(h o.entry).2.2.2, h.getNvmm]

theorem Cut.append {f'' : FileTree} {cut cut' : List OldEntry}
    (h : Cut snapshots f deleteNvmm deleteDead epochId cut f')
    (h' : Cut snapshots f' deleteNvmm deleteDead epochId cut' f'') :
    Cut snapshots f deleteNvmm deleteDead epochId (cut ++ cut') f'' where
  extents := h.extents.trans h'.extents
  stays := fun x hx => h'.stays x (h.stays x hx)
  list := h'.list.trans h.list
  freed := by
    rw [h'.freed, h.freed, OldEntry.toFreed_congr h.extents, OldEntry.freedBy_congr h.extents,
      List.filter_append, List.map_append, List.append_assoc]
  recorded := by
    rw [h'.recorded, h.recorded, OldEntry.recordedBy_congr h.extents, List.filterMap_append, List.append_assoc]
  marked := by
    intro hn hd o ho
    rcases List.mem_append.mp ho with ho | ho
    · exact h'.stays _ (h.marked hn hd o ho)
    · exact h'.marked hn hd o ho
  others := by
    intro x hx
    rw [h'.others x fun o ho => hx o (List.mem_append_right _ ho),
      h.others x fun o ho => hx o (List.mem_append_left _ ho)]

/-- Only the tree changes. -/
theorem Cut.tree {cut : List OldEntry} {t : Radix Nat}
    (h : Cut snapshots f deleteNvmm deleteDead epochId cut f') :
    Cut snapshots f deleteNvmm deleteDead epochId cut { f' with tree := t } :=
  ⟨h.extents, h.stays, h.list, h.freed, h.recorded, h.marked, h.others⟩

/-- With `delete_nvmm` clear nothing is called. -/
theorem Cut.kept {cut cut' : List OldEntry} (h : Cut snapshots f false deleteDead epochId cut f') :
    Cut snapshots f false deleteDead epochId (cut ++ cut') f' where
  extents := h.extents
  stays := h.stays
  list := h.list
  freed := by
    have hnone : OldEntry.freedBy snapshots f.entries false deleteDead epochId = fun _ => false := rfl
    have hfreed := h.freed
    rw [hnone, List.filter_false] at hfreed
    rw [hnone, List.filter_false]
    exact hfreed
  recorded := by
    have hnone : OldEntry.recordedBy snapshots f.entries false deleteDead epochId = fun _ => none := rfl
    have hrec := h.recorded
    rw [hnone, List.filterMap_none] at hrec
    rw [hnone, List.filterMap_none]
    exact hrec
  marked := fun hn => Bool.noConfusion hn
  others := fun x hx => h.others x fun o ho => hx o (List.mem_append_left _ ho)

/-- The run collected so far. -/
def Deleting.current (d : Deleting) : Multiset (Nat × Nat) :=
  match d.oldEntry with
  | some e => runPages e d.oldPgoff d.numFree
  | none => 0

/-- After the slots from `lo` to `hi`, with the runs cut so far. -/
structure DeleteInv (snapshots : List Nat) (f : FileTree) (deleteNvmm deleteDead : Bool) (epochId lo hi : Nat)
    (cut : List OldEntry) (d : Deleting) : Prop where
  slots : ∀ q, d.file.tree.slot q = if lo ≤ q ∧ q < hi then none else f.tree.slot q
  size : d.file.tree.size = f.tree.size
  account : d.file.tree.members + (listedPages cut + d.current) = f.tree.members
  runs : ∀ o ∈ cut, RunOf f.tree.slot lo hi o
  calls : Cut snapshots f deleteNvmm deleteDead epochId cut d.file
  run : ∀ e, d.oldEntry = some e → RunOf f.tree.slot lo hi ⟨e, d.oldPgoff, d.numFree⟩
  /-- Nothing was mapped since the run ended. -/
  since : ∀ e r, d.oldEntry = some e → d.oldPgoff + d.numFree ≤ r → r < hi → f.tree.slot r = none

section

variable {hi : Nat} {cut : List OldEntry}

/-- The run is cut with its pages. -/
theorem DeleteInv.flush (h : DeleteInv snapshots f deleteNvmm deleteDead epochId lo hi cut d) :
    ∃ cut', DeleteInv snapshots f deleteNvmm deleteDead epochId lo hi cut'
      { d.flush snapshots deleteNvmm deleteDead epochId with oldEntry := none } := by
  cases hold : d.oldEntry with
  | none =>
      have heq : d.flush snapshots deleteNvmm deleteDead epochId = d := by
        unfold Deleting.flush
        rw [hold]
      rw [heq]
      refine ⟨cut, h.slots, h.size, ?_, h.runs, h.calls, nofun, nofun⟩
      have haccount := h.account
      unfold Deleting.current at haccount
      rw [hold] at haccount
      exact haccount
  | some e =>
      have haccount := h.account
      have hcur : d.current = OldEntry.pages ⟨e, d.oldPgoff, d.numFree⟩ := by
        unfold Deleting.current
        rw [hold]
        rfl
      have hpages : listedPages (cut ++ [⟨e, d.oldPgoff, d.numFree⟩]) = listedPages cut + d.current := by
        rw [hcur]
        simp [listedPages]
      have hruns : ∀ o ∈ cut ++ [⟨e, d.oldPgoff, d.numFree⟩], RunOf f.tree.slot lo hi o := by
        intro o ho
        rcases List.mem_append.mp ho with ho | ho
        · exact h.runs o ho
        · rw [List.mem_singleton.mp ho]
          exact h.run e hold
      rw [← hpages, ← add_zero (listedPages _)] at haccount
      unfold Deleting.flush
      rw [hold]
      cases deleteNvmm with
      | false =>
          exact ⟨_, h.slots, h.size, haccount, hruns, h.calls.kept, nofun, nofun⟩
      | true =>
          obtain ⟨htree, hcall⟩ := novaFreeOldEntry_spec snapshots d.file ⟨e, d.oldPgoff, d.numFree⟩
            deleteDead epochId
          dsimp only at htree hcall ⊢
          rw [if_pos rfl]
          refine ⟨_, fun q => ?_, ?_, ?_, hruns, h.calls.append hcall, nofun, nofun⟩
          · dsimp only
            rw [htree]
            exact h.slots q
          · dsimp only
            rw [htree]
            exact h.size
          · dsimp only
            rw [htree]
            exact haccount

theorem erase_slots {t : Radix Nat} (h : ∀ q, t.slot q = if lo ≤ q ∧ q < hi then none else orig q) (hlo : lo ≤ hi)
    (q : Nat) : (t.erase hi).slot q = if lo ≤ q ∧ q < hi + 1 then none else orig q := by
  by_cases hq : q = hi
  · rw [hq, Radix.erase_slot_self, if_pos ⟨hlo, by omega⟩]
  · rw [Radix.erase_slot_of_ne hq, h q]
    by_cases hin : lo ≤ q ∧ q < hi
    · rw [if_pos hin, if_pos ⟨hin.1, by omega⟩]
    · rw [if_neg hin, if_neg (by omega)]

/-- A mapped slot that starts a run. -/
theorem DeleteInv.startRun (h : DeleteInv snapshots f deleteNvmm deleteDead epochId lo hi cut d) (hlo : lo ≤ hi)
    (hslot : f.tree.slot hi = some e) (hnone : d.oldEntry = none) :
    DeleteInv snapshots f deleteNvmm deleteDead epochId lo (hi + 1) cut
      { d with
        file := { d.file with tree := d.file.tree.erase hi }
        oldEntry := some e
        oldPgoff := hi
        numFree := 1 } := by
  have hold : d.file.tree.slot hi = some e := by rw [h.slots hi, if_neg (by omega), hslot]
  have herase := Radix.members_erase (t := d.file.tree) (p := hi)
  rw [hold, Radix.member_some] at herase
  exact
    { slots := erase_slots h.slots hlo
      size := h.size
      account := by
        have haccount := h.account
        have hcur : d.current = 0 := by
          unfold Deleting.current
          rw [hnone]
        rw [hcur, add_zero] at haccount
        show (d.file.tree.erase hi).members + (listedPages cut + runPages e hi 1) = _
        rw [runPages_one, ← haccount, ← herase]
        abel
      runs := fun o ho => (h.runs o ho).mono (Nat.le_succ hi)
      calls := h.calls.tree
      run := by
        intro e' he
        have : e' = e := (Option.some.inj he).symm
        subst this
        refine ⟨Nat.one_pos, hlo, le_rfl, fun j hj => ?_⟩
        dsimp only at hj ⊢
        rw [Nat.lt_one_iff.mp hj, Nat.add_zero, hslot]
      since := by
        intro e' r he h1 h2
        dsimp only at h1
        omega }

/-- A mapped slot that continues the run. -/
theorem DeleteInv.goOn (h : DeleteInv snapshots f deleteNvmm deleteDead epochId lo hi cut d)
    (hsolid : Solid f.tree.slot) (hlo : lo ≤ hi) (hslot : f.tree.slot hi = some e) (hsame : d.oldEntry = some e) :
    DeleteInv snapshots f deleteNvmm deleteDead epochId lo (hi + 1) cut
      { d with file := { d.file with tree := d.file.tree.erase hi }, numFree := d.numFree + 1 } := by
  have hold : d.file.tree.slot hi = some e := by rw [h.slots hi, if_neg (by omega), hslot]
  have herase := Radix.members_erase (t := d.file.tree) (p := hi)
  rw [hold, Radix.member_some] at herase
  have hr := h.run e hsame
  have hend : d.oldPgoff + d.numFree = hi := hr.ends hsolid hslot (h.since e · hsame)
  exact
    { slots := erase_slots h.slots hlo
      size := h.size
      account := by
        have haccount := h.account
        have hcur : d.current = runPages e d.oldPgoff d.numFree := by
          unfold Deleting.current
          rw [hsame]
        have hcur' : Deleting.current { d with
            file := { d.file with tree := d.file.tree.erase hi }
            numFree := d.numFree + 1 } = d.current + {(e, hi)} := by
          rw [hcur, ← hend, ← runPages_succ]
          unfold Deleting.current
          dsimp only
          rw [hsame]
        rw [hcur']
        show (d.file.tree.erase hi).members + (listedPages cut + _) = _
        rw [← haccount, ← herase]
        abel
      runs := fun o ho => (h.runs o ho).mono (Nat.le_succ hi)
      calls := h.calls.tree
      run := by
        intro e' he
        have : e' = e := Option.some.inj (he.symm.trans hsame)
        subst this
        refine ⟨Nat.succ_pos _, hr.2.1, by dsimp only; omega, fun j hj => ?_⟩
        rcases Nat.lt_or_eq_of_le (Nat.lt_succ_iff.mp hj) with hlt | rfl
        · exact hr.2.2.2 j hlt
        · dsimp only
          rw [hend, hslot]
      since := by
        intro e' r he h1 h2
        dsimp only at h1
        omega }

/-- Slots that are empty are passed over. -/
theorem DeleteInv.skip {hi' : Nat} (h : DeleteInv snapshots f deleteNvmm deleteDead epochId lo hi cut d)
    (hle : hi ≤ hi') (hempty : ∀ r, hi ≤ r → r < hi' → f.tree.slot r = none) :
    DeleteInv snapshots f deleteNvmm deleteDead epochId lo hi' cut d where
  slots := by
    intro q
    rw [h.slots q]
    by_cases h1 : lo ≤ q ∧ q < hi
    · rw [if_pos h1, if_pos ⟨h1.1, by omega⟩]
    · rw [if_neg h1]
      by_cases h2 : lo ≤ q ∧ q < hi'
      · rw [if_pos h2, hempty q (by omega) h2.2]
      · rw [if_neg h2]
  size := h.size
  account := h.account
  runs := fun o ho => (h.runs o ho).mono hle
  calls := h.calls
  run := fun e he => (h.run e he).mono hle
  since := by
    intro e r he h1 h2
    by_cases hr : r < hi
    · exact h.since e r he h1 hr
    · exact hempty r (by omega) h2

theorem novaInvalidateWriteEntry_tree (f : FileTree) (entry n : Nat) (t : Radix Nat) (b : Bool) :
    novaInvalidateWriteEntry { f with tree := t } entry b n =
      { novaInvalidateWriteEntry f entry b n with tree := t } := by
  unfold novaInvalidateWriteEntry
  by_cases h : n = 0 ∧ (f.entries entry).reassigned = 1
  · rw [if_pos h, if_pos h]
  · rw [if_neg h, if_neg h]

/-- Freeing a run has nothing to do with the tree. -/
theorem novaFreeOldEntry_tree {t : Radix Nat} {o : OldEntry} :
    novaFreeOldEntry snapshots { f with tree := t } o.entry o.startPgoff o.numFree deleteDead epochId =
      { novaFreeOldEntry snapshots f o.entry o.startPgoff o.numFree deleteDead epochId with tree := t } := by
  unfold novaFreeOldEntry
  cases deleteDead with
  | true => rfl
  | false =>
      rw [if_neg Bool.false_ne_true, if_neg Bool.false_ne_true]
      dsimp only
      cases novaOldEntryDeleteable snapshots (f.entries o.entry).epochId epochId with
      | none =>
          dsimp only
          rw [novaInvalidateWriteEntry_tree]
      | some info =>
          generalize hf₁ : ({ f with recorded := f.recorded ++
            [⟨info, getNvmm (f.entries o.entry) o.startPgoff, o.numFree, epochId⟩] } : FileTree) = f₁
          have h := novaInvalidateWriteEntry_tree f₁ o.entry 0 t true
          rw [← hf₁] at h
          exact h

theorem Deleting.flush_tree {t : Radix Nat} :
    Deleting.flush snapshots { d with file := { d.file with tree := t } } deleteNvmm deleteDead epochId =
      { d.flush snapshots deleteNvmm deleteDead epochId with
        file := { (d.flush snapshots deleteNvmm deleteDead epochId).file with tree := t } } := by
  obtain ⟨file, oldEntry, oldPgoff, numFree⟩ := d
  unfold Deleting.flush
  cases oldEntry with
  | none => rfl
  | some e =>
      cases deleteNvmm with
      | false => rfl
      | true =>
          dsimp only
          rw [if_pos rfl, if_pos rfl, novaFreeOldEntry_tree (o := ⟨e, oldPgoff, numFree⟩)]

theorem Deleting.flush_file_tree :
    (d.flush snapshots deleteNvmm deleteDead epochId).file.tree = d.file.tree := by
  unfold Deleting.flush
  cases d.oldEntry with
  | none => rfl
  | some e =>
      cases deleteNvmm with
      | false => rfl
      | true => exact (novaFreeOldEntry_spec snapshots d.file ⟨e, d.oldPgoff, d.numFree⟩ deleteDead epochId).1

/-- The loop cuts everything from `lo` on. -/
theorem DeleteInv.loop {fuel : Nat} (h : DeleteInv snapshots f deleteNvmm deleteDead epochId lo hi cut d)
    (hsolid : Solid f.tree.slot)
    (hpgoff : ∀ q e, f.tree.slot q = some e → (f.entries e).pgoff ≤ q) (hlo : lo ≤ hi)
    (hfuel : f.tree.size - hi + 1 ≤ fuel) :
    ∃ cut' hi', DeleteInv snapshots f deleteNvmm deleteDead epochId lo hi' cut'
        (deleteLoop snapshots deleteNvmm deleteDead epochId fuel hi d) ∧
      lo ≤ hi' ∧ ∀ q, hi' ≤ q → f.tree.slot q = none := by
  induction fuel generalizing hi cut d with
  | zero => omega
  | succ fuel ih =>
      unfold deleteLoop
      have hslot : d.file.tree.slot hi = f.tree.slot hi := by rw [h.slots hi, if_neg (by omega)]
      cases hhi : d.file.tree.slot hi with
      | some e =>
          rw [hhi] at hslot
          have hlt : hi < f.tree.size := Radix.lt_size hslot.symm
          dsimp only
          by_cases hsame : d.oldEntry = some e
          · rw [if_neg (by rw [hsame]; simp)]
            exact ih (h.goOn hsolid hlo hslot.symm hsame) (by omega) (by omega)
          · rw [if_pos hsame, Deleting.flush_tree]
            obtain ⟨cut', hflush⟩ := h.flush
            have hstart := hflush.startRun hlo hslot.symm rfl
            have htree : (d.flush snapshots deleteNvmm deleteDead epochId).file.tree = d.file.tree :=
              Deleting.flush_file_tree
            dsimp only at hstart
            rw [htree] at hstart
            exact ih hstart (by omega) (by omega)
      | none =>
          rw [hhi] at hslot
          cases hnext : novaFindNextEntry d.file hi with
          | none =>
              refine ⟨cut, hi, h, hlo, fun q hq => ?_⟩
              have := Radix.next_none hnext hq
              rw [h.slots q, if_neg (by omega)] at this
              exact this
          | some x =>
              obtain ⟨q, hq, hx, hbefore⟩ := Radix.next_some hnext
              have hsame : ∀ r, hi ≤ r → d.file.tree.slot r = f.tree.slot r := fun r hr => by
                rw [h.slots r, if_neg (by omega)]
              have hne : q ≠ hi := by
                rintro rfl
                rw [hhi] at hx
                cases hx
              rw [hsame q hq] at hx
              have hge := hpgoff q x hx
              rw [← (h.calls.extents x).1] at hge
              have hlt := Radix.lt_size hx
              dsimp only
              generalize hnew : (if hi + 1 > (d.file.entries x).pgoff then hi + 1
                else (d.file.entries x).pgoff) = hi'
              have hbounds : hi < hi' ∧ hi' ≤ q := by
                rw [← hnew]
                split <;> omega
              refine ih (h.skip (by omega) fun r h1 h2 => ?_) (by omega) (by omega)
              rw [← hsame r h1]
              exact hbefore r h1 (by omega)

end

/-- What `nova_delete_file_tree` does, and the runs it cuts. -/
structure Deleted (snapshots : List Nat) (f : FileTree) (start : Nat) (deleteNvmm deleteDead : Bool)
    (epochId : Nat) (cut : List OldEntry) (f' : FileTree) : Prop where
  slots : ∀ q, f'.tree.slot q = if start ≤ q then none else f.tree.slot q
  account : f'.tree.members + listedPages cut = f.tree.members
  runs : ∀ o ∈ cut, 0 < o.numFree ∧ start ≤ o.startPgoff ∧
    ∀ j < o.numFree, f.tree.slot (o.startPgoff + j) = some o.entry
  emptied : f'.oldEntryList = []
  freed : f'.freed = f.freed ++ f.oldEntryList.map (OldEntry.toFreed f.entries) ++
    (cut.filter (OldEntry.freedBy snapshots f.entries deleteNvmm deleteDead epochId)).map
      (OldEntry.toFreed f.entries)
  recorded : f'.recorded = f.recorded ++
    cut.filterMap (OldEntry.recordedBy snapshots f.entries deleteNvmm deleteDead epochId)
  extents : SameExtents f.entries f'.entries
  stays : ∀ x, (f.entries x).reassigned = 1 → (f'.entries x).reassigned = 1
  marked : ∀ o ∈ f.oldEntryList, (f'.entries o.entry).reassigned = 1
  markedCut : deleteNvmm = true → deleteDead = false → ∀ o ∈ cut, (f'.entries o.entry).reassigned = 1
  others : ∀ x, (∀ o ∈ f.oldEntryList, o.entry ≠ x) → (∀ o ∈ cut, o.entry ≠ x) → f'.entries x = f.entries x

theorem novaDeleteFileTree_spec {start : Nat} (hsolid : Solid f.tree.slot)
    (hpgoff : ∀ q e, f.tree.slot q = some e → (f.entries e).pgoff ≤ q) :
    ∃ cut, Deleted snapshots f start deleteNvmm deleteDead epochId cut
      (novaDeleteFileTree snapshots f start deleteNvmm deleteDead epochId) := by
  have hdrained := freeOldEntry_spec snapshots f 0
  unfold novaDeleteFileTree
  generalize freeOldEntry snapshots f 0 = f₁ at hdrained ⊢
  dsimp only
  have hext := hdrained.extents
  have hstart : DeleteInv snapshots f₁ deleteNvmm deleteDead epochId start start [] ⟨f₁, none, 0, 0⟩ :=
    { slots := fun q => by rw [if_neg (by omega)]
      size := rfl
      account := by
        show f₁.tree.members + (0 + 0) = _
        rw [add_zero, add_zero]
      runs := nofun
      calls := Cut.nil
      run := nofun
      since := nofun }
  rw [← hdrained.tree] at hsolid hpgoff
  obtain ⟨cut, hi, hinv, hlo, hempty⟩ := hstart.loop hsolid
    (fun q e hq => by rw [(hext e).1]; exact hpgoff q e hq) le_rfl le_rfl
  obtain ⟨cut', hlast⟩ := hinv.flush
  generalize Deleting.flush snapshots _ deleteNvmm deleteDead epochId = d' at hlast ⊢
  refine ⟨cut', ?_, ?_, ?_, ?_, ?_, ?_, hext.trans hlast.calls.extents, ?_, ?_, hlast.calls.marked, ?_⟩
  · intro q
    rw [hlast.slots q, hdrained.tree]
    by_cases hq : start ≤ q
    · rw [if_pos hq]
      by_cases hin : q < hi
      · rw [if_pos ⟨hq, hin⟩]
      · rw [if_neg (by omega), ← hdrained.tree, hempty q (by omega)]
    · rw [if_neg hq, if_neg (by omega)]
  · rw [← hdrained.tree, ← hlast.account]
    show _ = _ + (listedPages cut' + 0)
    rw [add_zero]
  · intro o ho
    obtain ⟨hpos, hge, -, hrun⟩ := hlast.runs o ho
    rw [hdrained.tree] at hrun
    exact ⟨hpos, hge, hrun⟩
  · rw [hlast.calls.list, hdrained.emptied]
  · rw [hlast.calls.freed, hdrained.freed, OldEntry.toFreed_congr hext, OldEntry.freedBy_congr hext]
  · rw [hlast.calls.recorded, hdrained.recorded, OldEntry.recordedBy_congr hext]
  · exact fun x hx => hlast.calls.stays x (hdrained.stays x hx)
  · exact fun o ho => hlast.calls.stays _ (hdrained.marked o ho)
  · intro x hx hx'
    rw [hlast.calls.others x hx', hdrained.others x hx]

end

end Parfs
