/-
Renames and crashes.

A store of a rename is undone when its word is journaled, and needs no undoing when it stores
what was there.  The whole copies store everything else of an inode as it was, but for the heads
of its logs, which the copy may have got when the link change was appended.  And the copy of the
target was taken before the target was invalidated.
-/
import Parfs.Rename
import Parfs.Proofs.Inplace

namespace Parfs

open Lib

/-- The fields of a dentry that are journaled. -/
def dentryFields (d : Nat) : List Nat :=
  [d + NovaDentry.inoAt, d + NovaDentry.csumAt, d + NovaDentry.reassignedAt, d + NovaDentry.invalidAt]

/-- The fields of the target that are journaled. -/
def targetFields (invalidate : Bool) (n : RenameTarget) : List Nat :=
  (n.copy.pi + NovaInode.logTailAt) ::
    if invalidate then [n.copy.pi + NovaInode.validAt, n.copy.pi + NovaInode.deleteEpochIdAt] else []

namespace RenameCall

variable (r : RenameCall)

/-- The fields that are journaled. -/
def fields : List Nat :=
  [r.oldInode.pi + NovaInode.logTailAt, r.oldDir.pi + NovaInode.logTailAt] ++
    r.newInode.elim [] (targetFields r.invalidateNewInode) ++
    (r.newDir.elim [] fun d => [d.pi + NovaInode.logTailAt]) ++ r.fatherEntry.elim [] dentryFields ++
    (r.newInode.elim [] fun n => dentryFields n.createDentry) ++ dentryFields r.createDentry

/-- The journaled words. -/
def words : List Nat := r.fields.map fun field => field / 8 * 8

/-- The objects of the call other than the two inodes that are stored whole, with their lengths. -/
def others : List (Nat × Nat) :=
  (r.oldDir.pi, NovaInode.size) :: ((r.newDir.elim [] fun d => [(d.pi, NovaInode.size)]) ++
    (r.fatherEntry.elim [] fun p => [(p, novaGetLogEntrySize .dirLog)]) ++
    (r.newInode.elim [] fun n => [(n.createDentry, novaGetLogEntrySize .dirLog)]) ++
    [(r.createDentry, novaGetLogEntrySize .dirLog)])

def objects : List (Nat × Nat) :=
  (r.newInode.elim [] fun n => [(n.copy.pi, NovaInode.size)]) ++ (r.oldInode.pi, NovaInode.size) :: r.others

/-- All its stores, with those of the builder. -/
def allStores (m : JournalMem) (b : Journaling) : List InplaceStore := b.stores.map .journal ++ r.stores m

end RenameCall

/-- In no two objects is one byte. -/
def ObjectsApart (x y : Nat × Nat) : Prop := x.1 + x.2 ≤ y.1 ∨ y.1 + y.2 ≤ x.1

instance (x y : Nat × Nat) : Decidable (ObjectsApart x y) := inferInstanceAs (Decidable (_ ∨ _))

/-- What a rename starts its transaction from. -/
structure RenameStart (env : JournalEnv) (s : JournalState) (cpu : Nat) (r : RenameCall) (b : Journaling) :
    Prop where
  csum : env.metadataCsum = false
  inv : JournalInv env s
  bound : cpu < env.cpus
  idle : s.trans cpu = none
  created : r.create env (s.mem.pairs cpu) cpu = some b
  aligned : ∀ x ∈ r.objects, x.1 % 8 = 0
  apart : r.objects.Pairwise ObjectsApart
  /-- the inodes and dentries are locked: they are in nobody's transaction -/
  free : ∀ j tr, s.trans j = some tr → ∀ a ∈ tr.words, ∀ x ∈ r.objects, a < x.1 ∨ x.1 + x.2 ≤ a

/-- Wherever the machine stops before the commit, recovery finds all words that are stored to as
they were when the transaction was created. -/
def RenameUndone (env : JournalEnv) (m : JournalMem) (r : RenameCall) (b : Journaling) : Prop :=
  ∀ pre, pre <+: r.allStores m b → ∃ m', novaLiteJournalSoftInit env true (inplaceMem env pre m) = some (.ok m') ∧
    ∀ st ∈ r.stores m, ∀ a, st.word? = some a → m'.words a = m.words a

/-- When the rename is done and dropped the last link of the target, the target is invalid. -/
def TargetInvalidated (env : JournalEnv) (m : JournalMem) (cpu : Nat) (r : RenameCall) (b : Journaling) : Prop :=
  ∀ n, r.newInode = some n → n.nlink = 0 →
    let m' := inplaceMem env (r.allStores m b ++ [.commit cpu b.currP]) m
    m'.field (n.copy.pi + NovaInode.validAt) 1 = 0 ∧
      m'.field (n.copy.pi + NovaInode.deleteEpochIdAt) 8 = r.epochId.toNat

/-- The copy has the heads of the logs that the inode has. -/
def InodeCopy.SameHeads (m : JournalMem) (c : InodeCopy) : Prop :=
  m.field (c.pi + NovaInode.logHeadAt) 8 = c.logHead.toNat ∧
    m.field (c.pi + NovaInode.alterLogHeadAt) 8 = c.alterLogHead.toNat

/-- Appending the link changes neither started nor cleaned a log, and a target without links was
invalid already. -/
def RenameCall.Harmless (m : JournalMem) (r : RenameCall) : Prop :=
  r.oldInode.SameHeads m ∧ ∀ n, r.newInode = some n → n.copy.SameHeads m ∧
    (n.nlink = 0 → m.field (n.copy.pi + NovaInode.validAt) 1 = 0 ∧
      m.field (n.copy.pi + NovaInode.deleteEpochIdAt) 8 = r.epochId.toNat)

section

variable {env : JournalEnv} {s : JournalState} {cpu a v : Nat} {r : RenameCall} {b : Journaling}
  {m m' : JournalMem} {c : InodeCopy} {W : List Nat} {st : InplaceStore} {sts : List InplaceStore}

/-! ### The journaled words -/

/-- The words journaled so far. -/
def Journaling.words (b : Journaling) : List Nat := b.stores.filterMap JournalStore.word?

/-- The words of fields. -/
def fieldWords (fields : List Nat) : List Nat := fields.map fun field => field / 8 * 8

theorem fieldWords_append (as bs : List Nat) : fieldWords (as ++ bs) = fieldWords as ++ fieldWords bs :=
  List.map_append

theorem novaAppendEntryJournal_words (b : Journaling) (field : Nat) :
    (novaAppendEntryJournal b field).words = b.words ++ fieldWords [field] := by
  unfold novaAppendEntryJournal Journaling.words
  rw [List.filterMap_append]
  rfl

theorem novaAppendInodeJournal_words (hcsum : env.metadataCsum = false) (b : Journaling) (pi : Nat)
    (invalidate : Bool) : (novaAppendInodeJournal env b (renameInode pi) false invalidate false).words =
      b.words ++ fieldWords ((pi + NovaInode.logTailAt) ::
        if invalidate then [pi + NovaInode.validAt, pi + NovaInode.deleteEpochIdAt] else []) := by
  unfold novaAppendInodeJournal novaJournalInodeTail
  simp only [hcsum, Bool.false_eq_true, if_false, renameInode]
  cases invalidate with
  | false => exact novaAppendEntryJournal_words b _
  | true =>
      simp only [if_true, novaAppendEntryJournal_words, List.append_assoc]
      rfl

theorem novaAppendInodeJournal_dirWords (hcsum : env.metadataCsum = false) (b : Journaling) (pi : Nat) :
    (novaAppendInodeJournal env b (renameInode pi) false false true).words =
      b.words ++ fieldWords [pi + NovaInode.logTailAt] := by
  unfold novaAppendInodeJournal novaJournalInodeTail
  simp only [hcsum, Bool.false_eq_true, if_false, if_true, renameInode]
  exact novaAppendEntryJournal_words b _

theorem novaAppendDentryJournal_words (b : Journaling) (d : Nat) :
    (novaAppendDentryJournal b d).words = b.words ++ fieldWords (dentryFields d) := by
  unfold novaAppendDentryJournal
  simp only [novaAppendEntryJournal_words, List.append_assoc]
  rfl

theorem journalOptional_words {α : Type} {append : Journaling → α → Journaling}
    {fields : α → List Nat} (h : ∀ b x, (append b x).words = b.words ++ fieldWords (fields x)) (b : Journaling)
    (x? : Option α) : (journalOptional append b x?).words = b.words ++ fieldWords (x?.elim [] fields) := by
  cases x? with
  | none => exact (List.append_nil _).symm
  | some x => exact h b x

theorem journalOptional_map {α β : Type} {append : Journaling → β → Journaling} {f : α → β} (b : Journaling)
    (x? : Option α) : journalOptional append b (x?.map f) = journalOptional (fun b x => append b (f x)) b x? := by
  cases x? with
  | none => rfl
  | some x => rfl

theorem RenameStart.words_eq (h : RenameStart env s cpu r b) :
    b.stores.filterMap JournalStore.word? = r.words := by
  have hcreated := h.created
  unfold RenameCall.create novaCreateRenameTransaction createTransaction at hcreated
  split at hcreated
  · cases hcreated
  · dsimp only at hcreated
    rw [journalOptional_map, journalOptional_map, journalOptional_map] at hcreated
    obtain rfl := Option.some.inj hcreated
    have htarget := fun b (n : RenameTarget) =>
      novaAppendInodeJournal_words h.csum b n.copy.pi r.invalidateNewInode
    have hdir := fun b (d : DirUpdate) => novaAppendInodeJournal_dirWords h.csum b d.pi
    dsimp only
    rw [List.filterMap_append]
    show Journaling.words (novaAppendDentryJournal _ r.createDentry) ++ [] = fieldWords r.fields
    rw [List.append_nil, novaAppendDentryJournal_words,
      journalOptional_words fun b (n : RenameTarget) => novaAppendDentryJournal_words b n.createDentry,
      journalOptional_words novaAppendDentryJournal_words, journalOptional_words hdir,
      journalOptional_words htarget, novaAppendInodeJournal_dirWords h.csum, novaAppendInodeJournal_words h.csum]
    unfold RenameCall.fields
    simp only [fieldWords_append]
    rfl

/-! ### Stores that need no undoing -/

/-- The store puts a word back. -/
def InplaceStore.Idle (m : JournalMem) (st : InplaceStore) : Prop :=
  ∃ x v, st = .field x 8 v ∧ x % 8 = 0 ∧ v % 256 ^ 8 = m.field x 8

/-- Words that are not journaled are kept by stores to journaled words and by idle ones. -/
theorem inplaceMem_undone (hsts : ∀ st ∈ sts, (∃ x, st.word? = some x ∧ x ∈ W) ∨ st.Idle m) :
    ∀ m', (∀ x, x ∉ W → m'.words x = m.words x) → ∀ x, x ∉ W → (inplaceMem env sts m').words x = m.words x := by
  induction sts with
  | nil => exact fun m' h => h
  | cons st sts ih =>
      intro m' h
      refine ih (fun st' hst' => hsts st' (List.mem_cons_of_mem _ hst')) (st.apply env m') fun x hx => ?_
      rcases hsts st List.mem_cons_self with ⟨y, hy, hyW⟩ | ⟨y, v, rfl, hmod, hv⟩
      · obtain ⟨v, hv⟩ := InplaceStore.apply_word (m := m') hy
        have hne : x ≠ y := by
          rintro rfl
          exact hx hyW
        rw [hv, JournalMem.setWord_other hne]
        exact h x hx
      · have hword : y / 8 * 8 = y := by omega
        show ((m'.setField y 8 v).words x) = _
        unfold JournalMem.setField
        rw [hword]
        by_cases hxy : x = y
        · subst hxy
          rw [JournalMem.setWord_self, h x hx, putField_same]
          rw [hv]
          unfold JournalMem.field
          rw [hword]
        · rw [JournalMem.setWord_other hxy]
          exact h x hx

theorem RenameCall.mem_words (r : RenameCall) (field : Nat) (h : field ∈ r.fields) : field / 8 * 8 ∈ r.words :=
  List.mem_map_of_mem h

/-- A copy with the same heads puts all words back but the tail. -/
theorem novaUpdateInodeCopy_undone (hheads : c.SameHeads m) (halign : c.pi % 8 = 0)
    (htail : c.pi + NovaInode.logTailAt ∈ W) :
    ∀ st ∈ novaUpdateInodeCopy m c, (∃ x, st.word? = some x ∧ x ∈ W) ∨ st.Idle m := by
  intro st hst
  obtain ⟨i, hi, rfl⟩ := List.mem_map.mp hst
  have hx : (c.pi + 8 * i) % 8 = 0 := by omega
  have hword : (c.pi + 8 * i) / 8 * 8 = c.pi + 8 * i := by omega
  by_cases ht : 8 * i = NovaInode.logTailAt
  · refine Or.inl ⟨_, rfl, ?_⟩
    rw [hword, ht]
    exact htail
  · refine Or.inr ⟨_, _, rfl, hx, ?_⟩
    unfold InodeCopy.word
    by_cases hh : 8 * i = NovaInode.logHeadAt
    · rw [if_pos hh, hh, hheads.1]
      exact Nat.mod_eq_of_lt c.logHead.toNat_lt
    · rw [if_neg hh]
      by_cases ha : 8 * i = NovaInode.alterLogHeadAt
      · rw [if_pos ha, ha, hheads.2]
        exact Nat.mod_eq_of_lt c.alterLogHead.toNat_lt
      · rw [if_neg ha, if_neg ht]
        unfold JournalMem.field getField
        rw [hword, hx, pow_zero, Nat.div_one]

theorem RenameStart.aligned_old (h : RenameStart env s cpu r b) : r.oldInode.pi % 8 = 0 :=
  h.aligned (r.oldInode.pi, NovaInode.size) (List.mem_append_right _ List.mem_cons_self)

theorem RenameStart.aligned_new (h : RenameStart env s cpu r b) {n : RenameTarget} (hn : r.newInode = some n) :
    n.copy.pi % 8 = 0 := by
  refine h.aligned (n.copy.pi, NovaInode.size) (List.mem_append_left _ ?_)
  rw [hn]
  exact List.mem_singleton_self _

/-- The fields of the target are journaled. -/
theorem RenameCall.target_fields {n : RenameTarget} (hn : r.newInode = some n) :
    ∀ f ∈ targetFields r.invalidateNewInode n, f ∈ r.fields := by
  intro f hf
  unfold RenameCall.fields
  rw [hn]
  simp only [Option.elim, List.mem_append]
  exact Or.inl (Or.inl (Or.inl (Or.inl (Or.inr hf))))

theorem RenameCall.invalidate_eq {n : RenameTarget} (hn : r.newInode = some n) :
    r.invalidateNewInode = decide (n.nlink = 0) := by
  unfold RenameCall.invalidateNewInode
  rw [hn]

/-- The stores in front of the copy of the renamed inode, and those after it. -/
def RenameCall.before (r : RenameCall) : List InplaceStore :=
  (r.newInode.elim [] fun n => novaReassignDentry n.createDentry) ++ novaReassignDentry r.createDentry

def RenameCall.after (m : JournalMem) (r : RenameCall) : List InplaceStore :=
  novaUpdateInodeTail r.oldDir ++ r.newDir.elim [] novaUpdateInodeTail ++
    (r.fatherEntry.elim [] fun p => [.field (p + NovaDentry.inoAt) 8 r.newDirIno.toNat]) ++
    (r.newInode.elim [] fun n => invalidateNewPi r.epochId n ++ novaUpdateInodeCopy m n.copy)

theorem RenameCall.stores_split (m : JournalMem) (r : RenameCall) :
    r.stores m = r.before ++ novaUpdateInodeCopy m r.oldInode ++ r.after m := by
  unfold RenameCall.stores RenameCall.before RenameCall.after
  simp only [List.append_assoc]

theorem RenameCall.before_cases : ∀ st ∈ r.before, ∃ f ∈ r.fields, st.word? = some (f / 8 * 8) := by
  intro st hst
  rcases List.mem_append.mp hst with hst | hst
  · cases hn : r.newInode with
    | none =>
        rw [hn] at hst
        cases hst
    | some n =>
        rw [hn] at hst
        obtain rfl := List.mem_singleton.mp hst
        refine ⟨n.createDentry + NovaDentry.reassignedAt, ?_, rfl⟩
        simp [RenameCall.fields, hn, dentryFields]
  · obtain rfl := List.mem_singleton.mp hst
    exact ⟨r.createDentry + NovaDentry.reassignedAt, by simp [RenameCall.fields, dentryFields], rfl⟩

theorem RenameCall.after_cases (m : JournalMem) : ∀ st ∈ r.after m,
    (∃ f ∈ r.fields, st.word? = some (f / 8 * 8)) ∨
      ∃ n, r.newInode = some n ∧ st ∈ novaUpdateInodeCopy m n.copy := by
  intro st hst
  unfold RenameCall.after at hst
  simp only [List.mem_append] at hst
  rcases hst with ((hst | hst) | hst) | hst
  · obtain rfl := List.mem_singleton.mp hst
    exact Or.inl ⟨r.oldDir.pi + NovaInode.logTailAt, by simp [RenameCall.fields], rfl⟩
  · cases hd : r.newDir with
    | none =>
        rw [hd] at hst
        cases hst
    | some d =>
        rw [hd] at hst
        obtain rfl := List.mem_singleton.mp hst
        exact Or.inl ⟨d.pi + NovaInode.logTailAt, by simp [RenameCall.fields, hd], rfl⟩
  · cases hf : r.fatherEntry with
    | none =>
        rw [hf] at hst
        cases hst
    | some p =>
        rw [hf] at hst
        obtain rfl := List.mem_singleton.mp hst
        exact Or.inl ⟨p + NovaDentry.inoAt, by simp [RenameCall.fields, hf, dentryFields], rfl⟩
  · cases hn : r.newInode with
    | none =>
        rw [hn] at hst
        cases hst
    | some n =>
        rw [hn] at hst
        rcases List.mem_append.mp hst with hst | hst
        · have hfields := RenameCall.target_fields hn
          rw [RenameCall.invalidate_eq hn] at hfields
          unfold invalidateNewPi at hst
          by_cases hz : n.nlink = 0
          · rw [if_pos hz] at hst
            have hmem : ∀ f ∈ [n.copy.pi + NovaInode.validAt, n.copy.pi + NovaInode.deleteEpochIdAt],
                f ∈ r.fields := by
              intro f hf
              refine hfields f (List.mem_cons_of_mem _ ?_)
              rw [if_pos (decide_eq_true hz)]
              exact hf
            rcases List.mem_cons.mp hst with rfl | hst
            · exact Or.inl ⟨_, hmem _ List.mem_cons_self, rfl⟩
            · obtain rfl := List.mem_singleton.mp hst
              exact Or.inl ⟨_, hmem _ (List.mem_cons_of_mem _ List.mem_cons_self), rfl⟩
          · rw [if_neg hz] at hst
            cases hst
        · exact Or.inr ⟨n, rfl, hst⟩

/-- The stores that are not part of a whole copy go to journaled words. -/
theorem RenameCall.stores_cases (m : JournalMem) : ∀ st ∈ r.stores m,
    (∃ f ∈ r.fields, st.word? = some (f / 8 * 8)) ∨ st ∈ novaUpdateInodeCopy m r.oldInode ∨
      ∃ n, r.newInode = some n ∧ st ∈ novaUpdateInodeCopy m n.copy := by
  intro st hst
  rw [RenameCall.stores_split] at hst
  rcases List.mem_append.mp hst with hst | hst
  · rcases List.mem_append.mp hst with hst | hst
    · exact Or.inl (RenameCall.before_cases st hst)
    · exact Or.inr (Or.inl hst)
  · exact (RenameCall.after_cases m st hst).imp_right Or.inr

/-- With the same heads, every store needs no undoing or goes to a journaled word. -/
theorem RenameStart.stores_undone (h : RenameStart env s cpu r b) (hold : r.oldInode.SameHeads s.mem)
    (hnew : ∀ n, r.newInode = some n → n.copy.SameHeads s.mem) :
    ∀ st ∈ r.stores s.mem, (∃ x, st.word? = some x ∧ x ∈ r.words) ∨ st.Idle s.mem := by
  intro st hst
  rcases RenameCall.stores_cases s.mem st hst with ⟨f, hf, hword⟩ | hcopy | ⟨n, hn, hcopy⟩
  · exact Or.inl ⟨_, hword, r.mem_words f hf⟩
  · have halign := h.aligned_old
    refine novaUpdateInodeCopy_undone hold halign ?_ st hcopy
    have hmem := r.mem_words (r.oldInode.pi + NovaInode.logTailAt) (by simp [RenameCall.fields])
    rwa [show (r.oldInode.pi + NovaInode.logTailAt) / 8 * 8 = r.oldInode.pi + NovaInode.logTailAt by
      unfold NovaInode.logTailAt; omega] at hmem
  · have halign := h.aligned_new hn
    refine novaUpdateInodeCopy_undone (hnew n hn) halign ?_ st hcopy
    have hmem := r.mem_words _ (RenameCall.target_fields hn _ List.mem_cons_self)
    rwa [show (n.copy.pi + NovaInode.logTailAt) / 8 * 8 = n.copy.pi + NovaInode.logTailAt by
      unfold NovaInode.logTailAt; omega] at hmem

/-! ### Where the words are -/

/-- The byte is in the object. -/
def InObject (x : Nat) (y : Nat × Nat) : Prop := y.1 ≤ x ∧ x < y.1 + y.2

theorem dentryFields_inObject {d f : Nat} (hf : f ∈ dentryFields d) :
    InObject f (d, novaGetLogEntrySize .dirLog) := by
  have hsize : novaGetLogEntrySize .dirLog = 48 := rfl
  simp only [dentryFields, NovaDentry.inoAt, NovaDentry.csumAt, NovaDentry.reassignedAt, NovaDentry.invalidAt,
    List.mem_cons, List.not_mem_nil, or_false] at hf
  unfold InObject
  dsimp only
  omega

theorem targetFields_inObject {n : RenameTarget} {i : Bool} {f : Nat} (hf : f ∈ targetFields i n) :
    InObject f (n.copy.pi, NovaInode.size) ∧
      (f = n.copy.pi + NovaInode.logTailAt ∨ f = n.copy.pi + NovaInode.validAt ∨
        f = n.copy.pi + NovaInode.deleteEpochIdAt) := by
  unfold InObject
  unfold targetFields NovaInode.logTailAt NovaInode.validAt NovaInode.deleteEpochIdAt at *
  unfold NovaInode.size
  cases i with
  | false =>
      have := List.mem_singleton.mp hf
      omega
  | true =>
      simp only [if_true, List.mem_cons, List.not_mem_nil, or_false] at hf
      omega

/-- A journaled field is the old inode's tail, one of the target's, or in another object. -/
theorem RenameCall.fields_cases : ∀ f ∈ r.fields, f = r.oldInode.pi + NovaInode.logTailAt ∨
    (∃ n, r.newInode = some n ∧ f ∈ targetFields r.invalidateNewInode n) ∨ ∃ y ∈ r.others, InObject f y := by
  intro f hf
  have htail : ∀ pi, InObject (pi + NovaInode.logTailAt) (pi, NovaInode.size) := by
    intro pi
    unfold InObject NovaInode.logTailAt NovaInode.size
    dsimp only
    omega
  unfold RenameCall.fields at hf
  simp only [List.mem_append] at hf
  unfold RenameCall.others
  rcases hf with ((((hf | hf) | hf) | hf) | hf) | hf
  · rcases List.mem_cons.mp hf with rfl | hf
    · exact Or.inl rfl
    · obtain rfl := List.mem_singleton.mp hf
      exact Or.inr (Or.inr ⟨_, List.mem_cons_self, htail _⟩)
  · cases hn : r.newInode with
    | none =>
        rw [hn] at hf
        cases hf
    | some n =>
        rw [hn] at hf
        exact Or.inr (Or.inl ⟨n, rfl, hf⟩)
  · cases hd : r.newDir with
    | none =>
        rw [hd] at hf
        cases hf
    | some d =>
        rw [hd] at hf
        obtain rfl := List.mem_singleton.mp hf
        exact Or.inr (Or.inr ⟨(d.pi, NovaInode.size), by simp, htail _⟩)
  · cases hp : r.fatherEntry with
    | none =>
        rw [hp] at hf
        cases hf
    | some p =>
        rw [hp] at hf
        exact Or.inr (Or.inr ⟨(p, novaGetLogEntrySize .dirLog), by simp, dentryFields_inObject hf⟩)
  · cases hn : r.newInode with
    | none =>
        rw [hn] at hf
        cases hf
    | some n =>
        rw [hn] at hf
        exact Or.inr (Or.inr ⟨(n.createDentry, novaGetLogEntrySize .dirLog), by simp, dentryFields_inObject hf⟩)
  · exact Or.inr (Or.inr ⟨(r.createDentry, novaGetLogEntrySize .dirLog), by simp, dentryFields_inObject hf⟩)

theorem RenameCall.mem_objects_old : (r.oldInode.pi, NovaInode.size) ∈ r.objects :=
  List.mem_append_right _ List.mem_cons_self

theorem RenameCall.mem_objects_new {n : RenameTarget} (hn : r.newInode = some n) :
    (n.copy.pi, NovaInode.size) ∈ r.objects := by
  refine List.mem_append_left _ ?_
  rw [hn]
  exact List.mem_singleton_self _

theorem RenameCall.mem_objects_others {y : Nat × Nat} (hy : y ∈ r.others) : y ∈ r.objects :=
  List.mem_append_right _ (List.mem_cons_of_mem _ hy)

/-- The old inode is apart from the other objects, and the target from all. -/
theorem RenameStart.apart_old (h : RenameStart env s cpu r b) :
    ∀ y ∈ r.others, ObjectsApart (r.oldInode.pi, NovaInode.size) y :=
  fun y hy => (List.pairwise_cons.mp (List.pairwise_append.mp h.apart).2.1).1 y hy

theorem RenameStart.apart_new (h : RenameStart env s cpu r b) {n : RenameTarget} (hn : r.newInode = some n) :
    ObjectsApart (n.copy.pi, NovaInode.size) (r.oldInode.pi, NovaInode.size) ∧
      ∀ y ∈ r.others, ObjectsApart (n.copy.pi, NovaInode.size) y := by
  have hcross := (List.pairwise_append.mp h.apart).2.2 (n.copy.pi, NovaInode.size) (by
    rw [hn]
    exact List.mem_singleton_self _)
  exact ⟨hcross _ List.mem_cons_self, fun y hy => hcross y (List.mem_cons_of_mem _ hy)⟩

theorem InObject.word {x : Nat} {y : Nat × Nat} (h : InObject x y) (halign : y.1 % 8 = 0) :
    InObject (x / 8 * 8) y := by
  unfold InObject at *
  omega

theorem InObject.apart {x : Nat} {y z : Nat × Nat} (hy : InObject x y) (h : ObjectsApart y z) :
    ¬ InObject x z := by
  unfold InObject ObjectsApart at *
  omega

/-- A journaled word is in an object. -/
theorem RenameStart.word_inObject (h : RenameStart env s cpu r b) {x : Nat} (hx : x ∈ r.words) :
    ∃ y ∈ r.objects, InObject x y := by
  obtain ⟨f, hf, rfl⟩ := List.mem_map.mp hx
  have hobject : ∃ y ∈ r.objects, InObject f y := by
    rcases RenameCall.fields_cases f hf with rfl | ⟨n, hn, hf⟩ | ⟨y, hy, hin⟩
    · refine ⟨_, RenameCall.mem_objects_old, ?_⟩
      unfold InObject NovaInode.logTailAt NovaInode.size
      dsimp only
      omega
    · exact ⟨_, RenameCall.mem_objects_new hn, (targetFields_inObject hf).1⟩
    · exact ⟨y, RenameCall.mem_objects_others hy, hin⟩
  obtain ⟨y, hy, hin⟩ := hobject
  exact ⟨y, hy, hin.word (h.aligned y hy)⟩

/-- A store of a copy goes to a word of the inode. -/
theorem novaUpdateInodeCopy_word (hst : st ∈ novaUpdateInodeCopy m c) (halign : c.pi % 8 = 0) :
    ∃ i < 15, st = .field (c.pi + 8 * i) 8 (c.word m (8 * i)) ∧ st.word? = some (c.pi + 8 * i) ∧
      InObject (c.pi + 8 * i) (c.pi, NovaInode.size) := by
  obtain ⟨i, hi, rfl⟩ := List.mem_map.mp hst
  have hlt : i < 15 := List.mem_range.mp hi
  refine ⟨i, hlt, rfl, ?_, ?_⟩
  · show some ((c.pi + 8 * i) / 8 * 8) = _
    congr 1
    omega
  · unfold InObject NovaInode.size
    dsimp only
    omega

/-- Every store goes to a word of an object. -/
theorem RenameStart.store_inObject (h : RenameStart env s cpu r b) :
    ∀ st ∈ r.stores m, ∃ x, st.word? = some x ∧ ∃ y ∈ r.objects, InObject x y := by
  intro st hst
  rcases RenameCall.stores_cases m st hst with ⟨f, hf, hword⟩ | hcopy | ⟨n, hn, hcopy⟩
  · exact ⟨_, hword, h.word_inObject (r.mem_words f hf)⟩
  · obtain ⟨i, -, -, hword, hin⟩ := novaUpdateInodeCopy_word hcopy h.aligned_old
    exact ⟨_, hword, _, RenameCall.mem_objects_old, hin⟩
  · obtain ⟨i, -, -, hword, hin⟩ := novaUpdateInodeCopy_word hcopy (h.aligned_new hn)
    exact ⟨_, hword, _, RenameCall.mem_objects_new hn, hin⟩

/-- The heads of the old inode's logs are not journaled. -/
theorem RenameStart.old_notMem (h : RenameStart env s cpu r b) {i : Nat} (hi : i < 15) (hne : 8 * i ≠ 72) :
    r.oldInode.pi + 8 * i ∉ r.words := by
  intro hmem
  obtain ⟨f, hf, hword⟩ := List.mem_map.mp hmem
  have halign := h.aligned_old
  have hin : InObject (r.oldInode.pi + 8 * i) (r.oldInode.pi, NovaInode.size) := by
    unfold InObject NovaInode.size
    dsimp only
    omega
  rcases RenameCall.fields_cases f hf with rfl | ⟨n, hn, hf⟩ | ⟨y, hy, hfy⟩
  · unfold NovaInode.logTailAt at hword
    omega
  · have hnew := (targetFields_inObject hf).1.word (h.aligned_new hn)
    rw [hword] at hnew
    exact hnew.apart (h.apart_new hn).1 hin
  · have hother := hfy.word (h.aligned y (RenameCall.mem_objects_others hy))
    rw [hword] at hother
    exact hin.apart (h.apart_old y hy) hother

/-- Nor those of the target's. -/
theorem RenameStart.new_notMem (h : RenameStart env s cpu r b) {n : RenameTarget} (hn : r.newInode = some n)
    {i : Nat} (hi : 0 < i) (hi' : i < 13) (hne : 8 * i ≠ 72) : n.copy.pi + 8 * i ∉ r.words := by
  intro hmem
  obtain ⟨f, hf, hword⟩ := List.mem_map.mp hmem
  have halign := h.aligned_new hn
  have hin : InObject (n.copy.pi + 8 * i) (n.copy.pi, NovaInode.size) := by
    unfold InObject NovaInode.size
    dsimp only
    omega
  rcases RenameCall.fields_cases f hf with rfl | ⟨n', hn', hf⟩ | ⟨y, hy, hfy⟩
  · have hold : InObject (r.oldInode.pi + NovaInode.logTailAt) (r.oldInode.pi, NovaInode.size) := by
      unfold InObject NovaInode.logTailAt NovaInode.size
      dsimp only
      omega
    have hold := hold.word h.aligned_old
    rw [hword] at hold
    exact hin.apart (h.apart_new hn).1 hold
  · obtain rfl := Option.some.inj (hn.symm.trans hn')
    have hcases := (targetFields_inObject hf).2
    unfold NovaInode.logTailAt NovaInode.validAt NovaInode.deleteEpochIdAt at hcases
    omega
  · have hother := hfy.word (h.aligned y (RenameCall.mem_objects_others hy))
    rw [hword] at hother
    exact hin.apart ((h.apart_new hn).2 y hy) hother

/-! ### The rename as a run of the journal -/

/-- The transaction of a rename, with the stores of the builder that are still to come. -/
def renameTrans (s : JournalState) (b : Journaling) (rest : List JournalStore) : JournalTrans :=
  ⟨rest, b.currP, b.stores.filterMap JournalStore.word?, s.mem.words⟩

namespace RenameStart

/-- Words in objects are in nobody else's transaction. -/
theorem free_word (h : RenameStart env s cpu r b) {x j : Nat} {tr : JournalTrans} {y : Nat × Nat}
    (hy : y ∈ r.objects) (hin : InObject x y) (htr : s.trans j = some tr) : x ∉ tr.words := by
  intro hmem
  have := h.free j tr htr x hmem y hy
  unfold InObject at hin
  omega

theorem creating (h : RenameStart env s cpu r b) (n : Nat) :
    Runs (JournalStep env) s (s.set ((b.stores.take n).foldl (JournalStore.apply env) s.mem) cpu
      (some (renameTrans s b (b.stores.drop n)))) := by
  have hcreate : JournalStep env s (.create cpu (.rename (renameInode r.oldInode.pi) (renameInode r.oldDir.pi)
      (r.newInode.map fun n => renameInode n.copy.pi) (r.newDir.map fun d => renameInode d.pi) r.fatherEntry
      (r.newInode.map RenameTarget.createDentry) (some r.createDentry) r.invalidateNewInode))
      (s.set s.mem cpu (some (renameTrans s b b.stores))) := by
    refine JournalStep.create h.bound h.idle h.created fun j trj htrj a ha hmem => ?_
    rw [h.words_eq] at hmem
    obtain ⟨y, hy, hin⟩ := h.word_inObject hmem
    exact h.free_word hy hin htrj ha
  have hstores := @JournalStep.runs_stores env _ (b.stores.take n) (b.stores.drop n) _ _
    (s.set_trans_self s.mem cpu (some (renameTrans s b b.stores))) (List.take_append_drop n b.stores).symm
  have hset : ∀ mem tr?, (s.set s.mem cpu (some (renameTrans s b b.stores))).set mem cpu tr? =
      s.set mem cpu tr? := by
    intro mem tr?
    unfold JournalState.set
    rw [Function.update_idem]
  rw [hset] at hstores
  exact (Runs.single hcreate).trans hstores

theorem storing (h : RenameStart env s cpu r b) {us : List InplaceStore} (hus : us <+: r.stores s.mem) :
    Runs (JournalStep env) s (s.set (inplaceMem env us (b.stores.foldl (JournalStore.apply env) s.mem)) cpu
      (some (renameTrans s b []))) := by
  have hall := h.creating b.stores.length
  rw [List.take_length, List.drop_length] at hall
  have hself := s.set_trans_self (b.stores.foldl (JournalStore.apply env) s.mem) cpu (some (renameTrans s b []))
  refine hall.trans (JournalStep.runs_update ⟨hself, rfl⟩ us (fun st hst => ?_) _)
  obtain ⟨x, hword, y, hy, hin⟩ := h.store_inObject st (hus.subset hst)
  refine ⟨x, hword, ?_⟩
  by_cases hx : x ∈ r.words
  · refine Or.inl ?_
    show x ∈ b.stores.filterMap JournalStore.word?
    rw [h.words_eq]
    exact hx
  · refine Or.inr fun j trj htrj hmem => ?_
    by_cases hj : j = cpu
    · rw [hj, hself] at htrj
      obtain rfl := Option.some.inj htrj
      change x ∈ b.stores.filterMap JournalStore.word? at hmem
      rw [h.words_eq] at hmem
      exact hx hmem
    · exact h.free_word hy hin ((Function.update_of_ne hj ..).symm.trans htrj) hmem

/-- What recovery makes of a word of an object, before the commit. -/
theorem recovered (h : RenameStart env s cpu r b) {mem : JournalMem} {rest : List JournalStore}
    (hrun : Runs (JournalStep env) s (s.set mem cpu (some (renameTrans s b rest)))) :
    ∃ m', novaLiteJournalSoftInit env true mem = some (.ok m') ∧
      ∀ x, (∃ y ∈ r.objects, InObject x y) →
        (rest = [] → x ∈ r.words → m'.words x = s.mem.words x) ∧
        ((rest = [] → x ∉ r.words) → m'.words x = mem.words x) := by
  obtain ⟨m', hm', hrec⟩ :=
    (hrun.invariant (fun _ _ _ hi hstep => hi.step h.csum hstep) h.inv : JournalInv env _).recovered
  have hself := s.set_trans_self mem cpu (some (renameTrans s b rest))
  refine ⟨m', hm', fun x ⟨y, hy, hin⟩ => ⟨fun hrest hx => ?_, fun hx => ?_⟩⟩
  · refine hrec.restored cpu _ ⟨hself, hrest⟩ x ?_
    show x ∈ b.stores.filterMap JournalStore.word?
    rw [h.words_eq]
    exact hx
  · refine hrec.kept x fun j tr hopen hmem => ?_
    by_cases hj : j = cpu
    · rw [hj] at hopen
      obtain rfl := Option.some.inj (hself.symm.trans hopen.1)
      change x ∈ b.stores.filterMap JournalStore.word? at hmem
      rw [h.words_eq] at hmem
      exact hx hopen.2 hmem
    · exact h.free_word hy hin ((Function.update_of_ne hj ..).symm.trans hopen.1) hmem

/-- **A crash is undone** when the copies have the heads that the inodes have. -/
theorem undone (h : RenameStart env s cpu r b) (hold : r.oldInode.SameHeads s.mem)
    (hnew : ∀ n, r.newInode = some n → n.copy.SameHeads s.mem) : RenameUndone env s.mem r b := by
  intro pre hpre
  have hphase : (∃ n, pre = (b.stores.take n).map .journal) ∨
      ∃ us, us <+: r.stores s.mem ∧ pre = b.stores.map .journal ++ us := by
    rcases Nat.le_total pre.length (b.stores.map InplaceStore.journal).length with hle | hle
    · have hshort := List.prefix_of_prefix_length_le hpre (List.prefix_append _ _) hle
      refine Or.inl ⟨pre.length, ?_⟩
      rw [List.map_take]
      exact List.prefix_iff_eq_take.mp hshort
    · obtain ⟨us, rfl⟩ := List.prefix_of_prefix_length_le (List.prefix_append _ _) hpre hle
      exact Or.inr ⟨us, (List.prefix_append_right_inj _).mp hpre, rfl⟩
  rcases hphase with ⟨n, rfl⟩ | ⟨us, hus, rfl⟩
  · obtain ⟨m', hm', hwords⟩ := h.recovered (h.creating n)
    rw [inplaceMem_journal]
    refine ⟨m', hm', fun st hst a hword => ?_⟩
    obtain ⟨x, hx, hobject⟩ := h.store_inObject st hst
    obtain rfl := Option.some.inj (hx.symm.trans hword)
    by_cases hcase : b.stores.drop n = [] ∧ x ∈ r.words
    · exact (hwords x hobject).1 hcase.1 hcase.2
    · rw [(hwords x hobject).2 fun hrest hmem => hcase ⟨hrest, hmem⟩, words_foldl_stores]
  · obtain ⟨m', hm', hwords⟩ := h.recovered (h.storing hus)
    rw [inplaceMem_append, inplaceMem_journal]
    refine ⟨m', hm', fun st hst a hword => ?_⟩
    obtain ⟨x, hx, hobject⟩ := h.store_inObject st hst
    obtain rfl := Option.some.inj (hx.symm.trans hword)
    by_cases hmem : x ∈ r.words
    · exact (hwords x hobject).1 rfl hmem
    · rw [(hwords x hobject).2 fun _ => hmem]
      refine inplaceMem_undone (fun st' hst' => h.stores_undone hold hnew st' (hus.subset hst')) _ ?_ x hmem
      intro z _
      rw [words_foldl_stores]

end RenameStart

/-! ### What the whole copies leave -/

/-- The words of a copy, when it is stored. -/
theorem inplaceMem_copy (env : JournalEnv) (c : InodeCopy) (m₀ : JournalMem) (k : Nat) (m : JournalMem) {i : Nat} (hi : i < k) :
    (inplaceMem env ((List.range k).map fun i => .field (c.pi + 8 * i) 8 (c.word m₀ (8 * i))) m).field
      (c.pi + 8 * i) 8 = c.word m₀ (8 * i) % 256 ^ 8 := by
  induction k with
  | zero => omega
  | succ k ih =>
      rw [List.range_succ, List.map_append, inplaceMem_append]
      show (JournalMem.setField _ (c.pi + 8 * k) 8 _).field _ _ = _
      rcases Nat.lt_or_eq_of_le (Nat.lt_succ_iff.mp hi) with hlt | rfl
      · rw [field_setField_other (Or.inl (by omega))]
        exact ih hlt
      · exact field_setField

/-- They stay when nothing else is stored there. -/
theorem inplaceMem_copy_post (env : JournalEnv) (pre post : List InplaceStore) (halign : c.pi % 8 = 0)
    (m₀ m : JournalMem) {i : Nat} (hi : i < 15) (hpost : ∀ st ∈ post, ∃ x, st.word? = some x ∧ x ≠ c.pi + 8 * i) :
    (inplaceMem env (pre ++ novaUpdateInodeCopy m₀ c ++ post) m).field (c.pi + 8 * i) 8 =
      c.word m₀ (8 * i) % 256 ^ 8 := by
  rw [inplaceMem_append, inplaceMem_append]
  have hcopy := inplaceMem_copy env c m₀ 15 (inplaceMem env pre m) hi
  rw [← hcopy]
  unfold JournalMem.field
  rw [show (c.pi + 8 * i) / 8 * 8 = c.pi + 8 * i by omega, inplaceMem_kept post hpost]
  rfl

/-- The stores of the target's copy come last. -/
theorem RenameCall.stores_new (m : JournalMem) {n : RenameTarget} (hn : r.newInode = some n) :
    ∃ pre, r.stores m = pre ++ novaUpdateInodeCopy m n.copy ++ [] := by
  refine ⟨r.before ++ novaUpdateInodeCopy m r.oldInode ++ (novaUpdateInodeTail r.oldDir ++
    r.newDir.elim [] novaUpdateInodeTail ++
    (r.fatherEntry.elim [] fun p => [.field (p + NovaDentry.inoAt) 8 r.newDirIno.toNat]) ++
    invalidateNewPi r.epochId n), ?_⟩
  rw [RenameCall.stores_split]
  unfold RenameCall.after
  rw [hn]
  simp only [Option.elim, List.append_assoc, List.append_nil]

namespace RenameStart

/-- What follows the copy of the renamed inode does not store to its heads. -/
theorem after_ne (h : RenameStart env s cpu r b) {i : Nat} (hi : i < 15) (hne : 8 * i ≠ 72) :
    ∀ st ∈ r.after m, ∃ x, st.word? = some x ∧ x ≠ r.oldInode.pi + 8 * i := by
  intro st hst
  rcases RenameCall.after_cases m st hst with ⟨f, hf, hword⟩ | ⟨n, hn, hcopy⟩
  · refine ⟨_, hword, fun heq => h.old_notMem hi hne ?_⟩
    rw [← heq]
    exact r.mem_words f hf
  · obtain ⟨j, -, -, hword, hin⟩ := novaUpdateInodeCopy_word hcopy (h.aligned_new hn)
    refine ⟨_, hword, fun heq => hin.apart (h.apart_new hn).1 ?_⟩
    rw [heq]
    unfold InObject NovaInode.size
    dsimp only
    omega

/-- A word that is stored, not journaled and undone was there before. -/
theorem word_of_undone (h : RenameStart env s cpu r b) (hundone : RenameUndone env s.mem r b)
    {pre post : List InplaceStore} (hsplit : r.stores s.mem = pre ++ novaUpdateInodeCopy s.mem c ++ post)
    (hobject : (c.pi, NovaInode.size) ∈ r.objects) {i : Nat} (hi : i < 15) (hnot : c.pi + 8 * i ∉ r.words)
    (hpost : ∀ st ∈ post, ∃ x, st.word? = some x ∧ x ≠ c.pi + 8 * i) :
    s.mem.field (c.pi + 8 * i) 8 = c.word s.mem (8 * i) % 256 ^ 8 := by
  have halign : c.pi % 8 = 0 := h.aligned _ hobject
  have hword : (c.pi + 8 * i) / 8 * 8 = c.pi + 8 * i := by omega
  obtain ⟨m', hm', hwords⟩ := h.recovered (h.storing (List.prefix_refl _))
  obtain ⟨m'', hm'', hback⟩ := hundone (r.allStores s.mem b) (List.prefix_refl _)
  unfold RenameCall.allStores at hm''
  rw [inplaceMem_append, inplaceMem_journal, hm'] at hm''
  obtain rfl : m' = m'' := Except.ok.inj (Option.some.inj hm'')
  have hin : InObject (c.pi + 8 * i) (c.pi, NovaInode.size) := by
    unfold InObject NovaInode.size
    dsimp only
    omega
  have hst : InplaceStore.field (c.pi + 8 * i) 8 (c.word s.mem (8 * i)) ∈ r.stores s.mem := by
    rw [hsplit]
    exact List.mem_append_left _ (List.mem_append_right _ (List.mem_map.mpr ⟨i, List.mem_range.mpr hi, rfl⟩))
  have hkept := (hwords _ ⟨_, hobject, hin⟩).2 fun _ => hnot
  have hrestored := hback _ hst _ (congrArg some hword)
  rw [← inplaceMem_copy_post env pre post halign s.mem
    (b.stores.foldl (JournalStore.apply env) s.mem) hi hpost, ← hsplit]
  unfold JournalMem.field
  rw [hword, ← hrestored, hkept]

/-- **Undoing needs the same heads.** -/
theorem heads_of_undone (h : RenameStart env s cpu r b) (hundone : RenameUndone env s.mem r b) :
    r.oldInode.SameHeads s.mem ∧ ∀ n, r.newInode = some n → n.copy.SameHeads s.mem := by
  have hhead : ∀ c : InodeCopy, c.word s.mem (8 * 8) % 256 ^ 8 = c.logHead.toNat := by
    intro c
    exact Nat.mod_eq_of_lt c.logHead.toNat_lt
  have halter : ∀ c : InodeCopy, c.word s.mem (8 * 10) % 256 ^ 8 = c.alterLogHead.toNat := by
    intro c
    exact Nat.mod_eq_of_lt c.alterLogHead.toNat_lt
  constructor
  · have hword := fun i (hi : i < 15) (hne : 8 * i ≠ 72) => h.word_of_undone hundone (RenameCall.stores_split _ _)
      RenameCall.mem_objects_old hi (h.old_notMem hi hne) (h.after_ne hi hne)
    exact ⟨(hword 8 (by omega) (by omega)).trans (hhead _), (hword 10 (by omega) (by omega)).trans (halter _)⟩
  · intro n hn
    obtain ⟨pre, hsplit⟩ := RenameCall.stores_new s.mem hn
    have hword := fun i (hi : 0 < i) (hi' : i < 13) (hne : 8 * i ≠ 72) =>
      h.word_of_undone hundone hsplit (RenameCall.mem_objects_new hn) (by omega) (h.new_notMem hn hi hi' hne)
        (fun _ hst => by cases hst)
    exact ⟨(hword 8 (by omega) (by omega) (by omega)).trans (hhead _),
      (hword 10 (by omega) (by omega) (by omega)).trans (halter _)⟩

/-- **The copy of the target undoes its invalidation.** -/
theorem target_fields (h : RenameStart env s cpu r b) {n : RenameTarget} (hn : r.newInode = some n) :
    let m' := inplaceMem env (r.allStores s.mem b ++ [.commit cpu b.currP]) s.mem
    m'.field (n.copy.pi + NovaInode.validAt) 1 = s.mem.field (n.copy.pi + NovaInode.validAt) 1 ∧
      m'.field (n.copy.pi + NovaInode.deleteEpochIdAt) 8 =
        s.mem.field (n.copy.pi + NovaInode.deleteEpochIdAt) 8 := by
  intro m'
  have halign := h.aligned_new hn
  obtain ⟨pre, hsplit⟩ := RenameCall.stores_new s.mem hn
  have hcommit : m'.words = (inplaceMem env (r.stores s.mem)
      (b.stores.foldl (JournalStore.apply env) s.mem)).words := by
    show (inplaceMem env (r.allStores s.mem b ++ [.commit cpu b.currP]) s.mem).words = _
    unfold RenameCall.allStores
    rw [inplaceMem_append, inplaceMem_append, inplaceMem_journal]
    show ((novaCommitLiteTransaction _ b.currP cpu).getD _).words = _
    unfold novaCommitLiteTransaction
    split
    · rfl
    · rfl
  have hfield : ∀ i < 15, 8 * i ≠ 64 → 8 * i ≠ 80 → 8 * i ≠ 72 →
      m'.field (n.copy.pi + 8 * i) 8 = s.mem.field (n.copy.pi + 8 * i) 8 := by
    intro i hi h1 h2 h3
    have hword : (n.copy.pi + 8 * i) / 8 * 8 = n.copy.pi + 8 * i := by omega
    have hmod : (n.copy.pi + 8 * i) % 8 = 0 := by omega
    have hcopy := inplaceMem_copy_post env pre [] halign s.mem
      (b.stores.foldl (JournalStore.apply env) s.mem) hi (fun _ hst => by cases hst)
    rw [← hsplit] at hcopy
    have hpic : n.copy.word s.mem (8 * i) = s.mem.words (n.copy.pi + 8 * i) := by
      unfold InodeCopy.word NovaInode.logHeadAt NovaInode.alterLogHeadAt NovaInode.logTailAt
      rw [if_neg h1, if_neg h2, if_neg h3]
    rw [hpic] at hcopy
    unfold JournalMem.field at hcopy ⊢
    rw [hcommit, hcopy]
    unfold getField
    rw [hword, hmod, pow_zero, Nat.div_one]
  constructor
  · have hzero := hfield 0 (by omega) (by omega) (by omega) (by omega)
    unfold JournalMem.field at hzero ⊢
    rw [Nat.mul_zero, Nat.add_zero] at hzero
    have hmod : n.copy.pi % 8 = 0 := halign
    rw [hmod] at hzero
    have hpart := getField_inside (i := 1) (k := 1) hzero (by omega)
    unfold NovaInode.validAt
    rw [show (n.copy.pi + 1) / 8 * 8 = n.copy.pi / 8 * 8 by omega, show (n.copy.pi + 1) % 8 = 0 + 1 by omega]
    exact hpart
  · exact hfield 13 (by omega) (by omega) (by omega) (by omega)

end RenameStart

/-- **A rename is atomic and takes effect exactly when it is harmless.** -/
theorem novaRename_atomic_iff (h : RenameStart env s cpu r b) :
    (RenameUndone env s.mem r b ∧ TargetInvalidated env s.mem cpu r b) ↔ r.Harmless s.mem := by
  constructor
  · rintro ⟨hundone, htarget⟩
    obtain ⟨hold, hnew⟩ := h.heads_of_undone hundone
    refine ⟨hold, fun n hn => ⟨hnew n hn, fun hz => ?_⟩⟩
    obtain ⟨hvalid, hepoch⟩ := h.target_fields hn
    obtain ⟨hvalid', hepoch'⟩ := htarget n hn hz
    exact ⟨hvalid.symm.trans hvalid', hepoch.symm.trans hepoch'⟩
  · rintro ⟨hold, hnew⟩
    refine ⟨h.undone hold fun n hn => (hnew n hn).1, fun n hn hz => ?_⟩
    obtain ⟨hvalid, hepoch⟩ := h.target_fields hn
    obtain ⟨hvalid', hepoch'⟩ := (hnew n hn).2 hz
    exact ⟨hvalid.trans hvalid', hepoch.trans hepoch'⟩

end

/-- One CPU, and inodes whose words all say that they are valid. -/
def validState : JournalState where
  mem := ⟨fun _ => ⟨0, 0, 0, 0, 0⟩, fun _ => 0x100, fun _ => ⟨0x2000, 0x2000⟩⟩
  trans := fun _ => none

/-- A file moves from one directory to another. -/
def moveFile (newInode : Option RenameTarget) : RenameCall where
  oldInode := ⟨0x4000, 0x100, 0x100, 0x8040⟩
  oldDir := ⟨0x5000, 0x9040⟩
  newDir := some ⟨0x6000, 0xa040⟩
  newInode := newInode
  fatherEntry := none
  newDirIno := 7
  createDentry := 0x9000
  epochId := 3

/-- The only link of the target goes. -/
def lastLink : RenameTarget := ⟨⟨0x7000, 0x100, 0x100, 0xb040⟩, 0, 0xa000⟩

theorem moveFile_start (newInode : Option RenameTarget) (h : newInode = none ∨ newInode = some lastLink) :
    ∃ b, RenameStart lastPlaceEnv validState 0 (moveFile newInode) b := by
  have hinv : JournalInv lastPlaceEnv validState :=
    JournalInv.init ⟨fun _ => rfl, fun _ _ => rfl, by decide, by decide⟩
  rcases h with rfl | rfl
  · exact ⟨_, rfl, hinv, by decide, rfl, rfl, by decide, by decide, fun j tr htr => by cases htr⟩
  · exact ⟨_, rfl, hinv, by decide, rfl, rfl, by decide, by decide, fun j tr htr => by cases htr⟩

/-- Without a target the move is undone by recovery. -/
theorem novaRename_atomic_move : ∃ b, RenameUndone lastPlaceEnv validState.mem (moveFile none) b := by
  obtain ⟨b, hb⟩ := moveFile_start none (Or.inl rfl)
  exact ⟨b, ((novaRename_atomic_iff hb).mpr ⟨⟨rfl, rfl⟩, fun _ hn => by cases hn⟩).1⟩

/-- The target is still valid when its last link is gone. -/
theorem novaRename_lastLink_valid :
    ∃ b, RenameStart lastPlaceEnv validState 0 (moveFile (some lastLink)) b ∧
      ¬ TargetInvalidated lastPlaceEnv validState.mem 0 (moveFile (some lastLink)) b := by
  obtain ⟨b, hb⟩ := moveFile_start (some lastLink) (Or.inr rfl)
  refine ⟨b, hb, fun htarget => ?_⟩
  obtain ⟨hvalid, -⟩ := hb.target_fields rfl
  obtain ⟨hzero, -⟩ := htarget lastLink rfl rfl
  rw [hvalid] at hzero
  revert hzero
  decide

end Parfs
