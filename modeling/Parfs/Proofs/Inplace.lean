/-
Updating a log entry in place, and a crash.

All stores of an update but one fall into words of the entry, and those are journaled.  The
one that does not is the count of invalid entries in the page's tail, which only the update
of a dentry stores.  So for the other types recovery finds the page as it was before or as it
is after, wherever the crash came, and for a dentry there is a moment when it does not.
-/
import Parfs.Inplace
import Parfs.Proofs.Journal

namespace Parfs

open Lib

/-- The page holds the same bytes. -/
def SamePage (page : Nat) (m m' : JournalMem) : Prop :=
  ∀ x, page ≤ x → x < page + 4096 → m.byteAt x = m'.byteAt x

/-- The memory after some of the stores. -/
abbrev inplaceMem (env : JournalEnv) (sts : List InplaceStore) (m : JournalMem) : JournalMem :=
  sts.foldl (InplaceStore.apply env) m

/-- Whatever part of the stores was done when the machine stopped, recovery finds the page as
it was before the update or as it is after it. -/
def CrashAtomic (env : JournalEnv) (page : Nat) (m : JournalMem) (sts : List InplaceStore) : Prop :=
  ∀ pre, pre <+: sts → ∃ m', novaLiteJournalSoftInit env true (inplaceMem env pre m) = some (.ok m') ∧
    (SamePage page m' m ∨ SamePage page m' (inplaceMem env sts m))

/-- Where a store goes: the word it changes, when it changes one. -/
def InplaceStore.word? : InplaceStore → Option Nat
  | .journal _ => none
  | .field a _ _ => some (a / 8 * 8)
  | .incInvalid page => some ((page + invalidEntriesAt) / 8 * 8)
  | .commit _ _ => none

section

variable {env : JournalEnv} {m m' : JournalMem} {page p a k v x cpu : Nat} {s s₀ : JournalState}
  {tr : JournalTrans} {u : InplaceUpdate} {b : Journaling} {sts pre : List InplaceStore}

/-! ### Bytes and fields -/

theorem SamePage.of_words (h : ∀ a, page ≤ a → a < page + 4096 → a % 8 = 0 → m.words a = m'.words a)
    (hpage : page % 4096 = 0) : SamePage page m m' := by
  intro x h1 h2
  unfold JournalMem.byteAt JournalMem.field
  rw [h (x / 8 * 8) (by omega) (by omega) (by omega)]

/-- A field that differs makes a page differ. -/
theorem SamePage.field (h : SamePage page m m') (h1 : page ≤ a) (h2 : a + k ≤ page + 4096)
    (hword : a % 8 + k ≤ 8) : m.field a k = m'.field a k := by
  refine getField_congr fun i hi => ?_
  have hbyte := h (a + i) (by omega) (by omega)
  unfold JournalMem.byteAt JournalMem.field at hbyte
  rwa [show (a + i) / 8 = a / 8 by omega, show (a + i) % 8 = a % 8 + i by omega] at hbyte

theorem JournalMem.setWord_self : (m.setWord a v).words a = v := Function.update_self ..

theorem JournalMem.setWord_other (h : x ≠ a) : (m.setWord a v).words x = m.words x :=
  Function.update_of_ne h ..

theorem field_setField : (m.setField a k v).field a k = v % 256 ^ k := by
  unfold JournalMem.field JournalMem.setField
  rw [JournalMem.setWord_self, getField_putField]

theorem field_setField_other {n : Nat} (h : x + n ≤ a ∨ a + k ≤ x) :
    (m.setField a k v).field x n = m.field x n := by
  unfold JournalMem.field JournalMem.setField
  by_cases hw : x / 8 * 8 = a / 8 * 8
  · rw [hw, JournalMem.setWord_self, getField_putField_other (by omega)]
  · rw [JournalMem.setWord_other hw]

/-! ### The stores as steps of the journal -/

theorem InplaceStore.apply_word {st : InplaceStore} (h : st.word? = some a) :
    ∃ v, ∀ env, st.apply env m = m.setWord a v := by
  cases st with
  | journal st => cases h
  | field a' k v =>
      obtain rfl := Option.some.inj h
      exact ⟨_, fun _ => rfl⟩
  | incInvalid page =>
      obtain rfl := Option.some.inj h
      exact ⟨_, fun _ => rfl⟩
  | commit cpu tail => cases h

/-- Stores into journaled words and into words nobody journals. -/
theorem JournalStep.runs_update (hopen : s.Open cpu tr) (us : List InplaceStore)
    (hus : ∀ st ∈ us, ∃ a, st.word? = some a ∧
      (a ∈ tr.words ∨ ∀ j trj, s.trans j = some trj → a ∉ trj.words)) :
    ∀ m, Runs (JournalStep env) { s with mem := m } { s with mem := inplaceMem env us m } := by
  induction us with
  | nil => exact fun m => Runs.refl _
  | cons st us ih =>
      intro m
      obtain ⟨a, hword, hfree⟩ := hus st List.mem_cons_self
      obtain ⟨v, hv⟩ := InplaceStore.apply_word (m := m) hword
      have hstep : ∃ call, JournalStep env { s with mem := m } call { s with mem := st.apply env m } := by
        rw [hv]
        rcases hfree with ha | ha
        · exact ⟨_, JournalStep.write (v := v) (s := { s with mem := m }) hopen.1 hopen.2 ha⟩
        · exact ⟨_, JournalStep.other (v := v) (s := { s with mem := m }) ha⟩
      exact Relation.ReflTransGen.head hstep (ih (fun st hst => hus st (List.mem_cons_of_mem _ hst)) _)

theorem words_foldl_stores (sts : List JournalStore) :
    ∀ m, (sts.foldl (JournalStore.apply env) m).words = m.words := by
  induction sts with
  | nil => exact fun m => rfl
  | cons st sts ih =>
      intro m
      rw [List.foldl_cons, ih]
      cases st <;> rfl

theorem inplaceMem_journal (sts : List JournalStore) :
    ∀ m, inplaceMem env (sts.map .journal) m = sts.foldl (JournalStore.apply env) m := by
  induction sts with
  | nil => exact fun m => rfl
  | cons st sts ih => exact fun m => ih (st.apply env m)

theorem inplaceMem_append (sts sts' : List InplaceStore) :
    inplaceMem env (sts ++ sts') m = inplaceMem env sts' (inplaceMem env sts m) := List.foldl_append

/-! ### Which words are journaled -/

theorem novaCreateLogentryTransaction_words {pair : JournalPtrPair} {type : NovaEntryType} (hp : p % 8 = 0)
    (h : novaCreateLogentryTransaction pair p type cpu = some b) :
    b.stores.filterMap JournalStore.word? =
      (List.range (novaGetLogEntrySize type / 8)).map fun i => p + i * 8 := by
  have hfold : ∀ (is : List Nat) (b : Journaling),
      (is.foldl (fun b i => novaAppendEntryJournal b (p + i * 8)) b).stores.filterMap JournalStore.word? =
        b.stores.filterMap JournalStore.word? ++ is.map fun i => p + i * 8 := by
    intro is
    induction is with
    | nil => exact fun b => (List.append_nil _).symm
    | cons i is ih =>
        intro b
        rw [List.foldl_cons, ih, List.map_cons]
        have halign : (p + i * 8) / 8 * 8 = p + i * 8 := by omega
        simp only [novaAppendEntryJournal, halign, List.filterMap_append, List.append_assoc]
        rfl
  unfold novaCreateLogentryTransaction createTransaction at h
  split at h
  · cases h
  · obtain rfl := Option.some.inj h
    rw [List.filterMap_append, hfold]
    simp [JournalStore.word?]

/-- The words of the entry's part that is journaled. -/
theorem mem_entryWords {type : NovaEntryType} (h1 : p ≤ a) (h2 : a + 8 ≤ p + novaGetLogEntrySize type)
    (hp : p % 8 = 0) (ha : a % 8 = 0) :
    a ∈ (List.range (novaGetLogEntrySize type / 8)).map fun i => p + i * 8 := by
  refine List.mem_map.mpr ⟨(a - p) / 8, List.mem_range.mpr ?_, ?_⟩
  · omega
  · omega

theorem novaGetLogEntrySize_aligned (type : NovaEntryType) : novaGetLogEntrySize type % 8 = 0 := by
  cases type <;> rfl

/-- Every field of an update is in the entry. -/
theorem fieldStores_word {fields : List (Nat × Nat × Nat)} {n : Nat} (hp : p % 8 = 0) (hn : n % 8 = 0)
    (h : ∀ f ∈ fields, f.1 < n) : ∀ st ∈ fieldStores p fields,
      ∃ a, st.word? = some a ∧ p ≤ a ∧ a + 8 ≤ p + n ∧ a % 8 = 0 := by
  intro st hst
  obtain ⟨f, hf, rfl⟩ := List.mem_map.mp hst
  have hlt := h f hf
  exact ⟨_, rfl, by omega, by omega, by omega⟩

/-- Every store of an update but the count goes to the entry. -/
theorem novaUpdateLogEntry_word (hp : p % 8 = 0) : ∀ st ∈ novaUpdateLogEntry p u,
    (∃ a, st.word? = some a ∧ p ≤ a ∧ a + 8 ≤ p + novaGetLogEntrySize u.type ∧ a % 8 = 0) ∨
      (u.type = .dirLog ∧ st = .incInvalid (p / 4096 * 4096)) := by
  intro st hst
  cases u with
  | fileWrite info => exact Or.inl (fieldStores_word hp (novaGetLogEntrySize_aligned _) (by simp [InplaceUpdate.type]; decide) st hst)
  | dirLog info =>
      rcases List.mem_append.mp hst with hst | hst
      · exact Or.inl (fieldStores_word hp (novaGetLogEntrySize_aligned _) (by simp [InplaceUpdate.type]; decide) st hst)
      · exact Or.inr ⟨rfl, List.mem_singleton.mp hst⟩
  | setAttr e => exact Or.inl (fieldStores_word hp (novaGetLogEntrySize_aligned _) (by simp [InplaceUpdate.type]; decide) st hst)
  | linkChange e => exact Or.inl (fieldStores_word hp (novaGetLogEntrySize_aligned _) (by simp [InplaceUpdate.type]; decide) st hst)

/-- Words that no store goes to are kept. -/
theorem inplaceMem_kept (us : List InplaceStore) (hus : ∀ st ∈ us, ∃ b, st.word? = some b ∧ b ≠ a) :
    ∀ m, (inplaceMem env us m).words a = m.words a := by
  induction us with
  | nil => exact fun m => rfl
  | cons st us ih =>
      intro m
      obtain ⟨b, hb, hne⟩ := hus st List.mem_cons_self
      obtain ⟨v, hv⟩ := InplaceStore.apply_word (m := m) hb
      have hrest := ih (fun st hst => hus st (List.mem_cons_of_mem _ hst)) (st.apply env m)
      rw [hv] at hrest
      rw [inplaceMem, List.foldl_cons, hv]
      exact hrest.trans (JournalMem.setWord_other hne.symm)

/-! ### The phases of an update -/

/-- How far an update can have come. -/
theorem prefix_cases {us : List InplaceStore} {last : InplaceStore}
    (h : pre <+: sts ++ us ++ [last]) : (∃ n, pre = sts.take n) ∨
      (∃ us', us' <+: us ∧ pre = sts ++ us') ∨ pre = sts ++ us ++ [last] := by
  rcases List.prefix_concat_iff.mp h with h | h
  · exact Or.inr (Or.inr h)
  · rcases Nat.le_total pre.length sts.length with hle | hle
    · have hpre := List.prefix_of_prefix_length_le h (List.prefix_append sts us) hle
      exact Or.inl ⟨pre.length, List.prefix_iff_eq_take.mp hpre⟩
    · obtain ⟨us', rfl⟩ := List.prefix_of_prefix_length_le (List.prefix_append sts us) h hle
      exact Or.inr (Or.inl ⟨us', (List.prefix_append_right_inj sts).mp h, rfl⟩)

/-- The transaction of an update, with the stores of the builder that are still to come. -/
def inplaceTrans (s : JournalState) (b : Journaling) (rest : List JournalStore) : JournalTrans :=
  ⟨rest, b.currP, b.stores.filterMap JournalStore.word?, s.mem.words⟩

/-- The page is in nobody's transaction. -/
def PageFree (s : JournalState) (page : Nat) : Prop :=
  ∀ j tr, s.trans j = some tr → ∀ a ∈ tr.words, a < page ∨ page + 4096 ≤ a

/-- What an update starts from. -/
structure InplaceStart (env : JournalEnv) (s : JournalState) (cpu page p : Nat) (u : InplaceUpdate)
    (b : Journaling) : Prop where
  csum : env.metadataCsum = false
  inv : JournalInv env s
  bound : cpu < env.cpus
  idle : s.trans cpu = none
  aligned : p % 8 = 0
  isPage : page % 4096 = 0
  inPage : page ≤ p ∧ p + novaGetLogEntrySize u.type ≤ page + invalidEntriesAt
  free : PageFree s page
  created : novaCreateLogentryTransaction (s.mem.pairs cpu) p u.type cpu = some b

namespace InplaceStart

theorem words (h : InplaceStart env s cpu page p u b) : b.stores.filterMap JournalStore.word? =
    (List.range (novaGetLogEntrySize u.type / 8)).map fun i => p + i * 8 :=
  novaCreateLogentryTransaction_words h.aligned h.created

/-- The journaled words are words of the entry. -/
theorem word_bounds (h : InplaceStart env s cpu page p u b)
    (ha : a ∈ b.stores.filterMap JournalStore.word?) : p ≤ a ∧ a < p + novaGetLogEntrySize u.type := by
  rw [h.words] at ha
  obtain ⟨i, hi, rfl⟩ := List.mem_map.mp ha
  rw [List.mem_range] at hi
  omega

/-- While the journal entries are being made. -/
theorem creating (h : InplaceStart env s cpu page p u b) (n : Nat) :
    Runs (JournalStep env) s (s.set ((b.stores.take n).foldl (JournalStore.apply env) s.mem) cpu
      (some (inplaceTrans s b (b.stores.drop n)))) := by
  have hcreate : JournalStep env s (.create cpu (.logentry p u.type))
      (s.set s.mem cpu (some (inplaceTrans s b b.stores))) := by
    refine JournalStep.create h.bound h.idle h.created fun j trj htrj a ha hmem => ?_
    have hout := h.free j trj htrj a ha
    have hin := h.word_bounds hmem
    have hpage := h.inPage
    unfold invalidEntriesAt at hpage
    omega
  have hstores := @JournalStep.runs_stores env _ (b.stores.take n) (b.stores.drop n) _ _
    (s.set_trans_self s.mem cpu (some (inplaceTrans s b b.stores))) (List.take_append_drop n b.stores).symm
  have hset : ∀ mem tr?, (s.set s.mem cpu (some (inplaceTrans s b b.stores))).set mem cpu tr? =
      s.set mem cpu tr? := by
    intro mem tr?
    unfold JournalState.set
    rw [Function.update_idem]
  rw [hset] at hstores
  exact (Runs.single hcreate).trans hstores

/-- While the entry is being stored. -/
theorem storing (h : InplaceStart env s cpu page p u b) {us : List InplaceStore}
    (hus : us <+: novaUpdateLogEntry p u) : Runs (JournalStep env) s
      (s.set (inplaceMem env us (b.stores.foldl (JournalStore.apply env) s.mem)) cpu
        (some (inplaceTrans s b []))) := by
  have hall := h.creating b.stores.length
  rw [List.take_length, List.drop_length] at hall
  have hself := s.set_trans_self (b.stores.foldl (JournalStore.apply env) s.mem) cpu
    (some (inplaceTrans s b []))
  refine hall.trans (JournalStep.runs_update ⟨hself, rfl⟩ us (fun st hst => ?_) _)
  rcases novaUpdateLogEntry_word h.aligned st (hus.subset hst) with ⟨a, hword, h1, h2, ha⟩ | ⟨hdir, rfl⟩
  · refine ⟨a, hword, Or.inl ?_⟩
    show a ∈ b.stores.filterMap JournalStore.word?
    rw [h.words]
    exact mem_entryWords h1 h2 h.aligned ha
  · -- the count is in the page's tail, which is in no transaction
    have hpage := h.inPage
    have halign := h.isPage
    have hsize : novaGetLogEntrySize u.type = 48 := by rw [hdir]; rfl
    unfold invalidEntriesAt at hpage
    refine ⟨_, rfl, Or.inr fun j trj htrj hmem => ?_⟩
    unfold invalidEntriesAt at hmem
    by_cases hj : j = cpu
    · rw [hj, hself] at htrj
      obtain rfl := Option.some.inj htrj
      have hin := h.word_bounds hmem
      omega
    · have hother : s.trans j = some trj := (Function.update_of_ne hj ..).symm.trans htrj
      have hout := h.free j trj hother _ hmem
      omega

/-- After the commit. -/
theorem committed (h : InplaceStart env s cpu page p u b) : Runs (JournalStep env) s
    (s.set (inplaceMem env [.commit cpu b.currP] (inplaceMem env (novaUpdateLogEntry p u)
      (b.stores.foldl (JournalStore.apply env) s.mem))) cpu none) := by
  have hrun := h.storing (List.prefix_refl _)
  have hself := s.set_trans_self (inplaceMem env (novaUpdateLogEntry p u)
    (b.stores.foldl (JournalStore.apply env) s.mem)) cpu (some (inplaceTrans s b []))
  have hinv : JournalInv env _ := hrun.invariant (fun _ _ _ hi hstep => hi.step h.csum hstep) h.inv
  have htail : ((inplaceMem env (novaUpdateLogEntry p u)
      (b.stores.foldl (JournalStore.apply env) s.mem)).pairs cpu).journalTail = b.currP := by
    rcases (hinv.ok cpu _ hself).phase with ⟨pre, hc⟩ | hp
    · have hrest := hc.rest
      simp [inplaceTrans] at hrest
    · exact hp.tail
  have hcommit := fun m hm => @JournalStep.commit env _ _ _ m hself rfl hm
  refine hrun.trans ?_
  have hset : ∀ mem, (s.set (inplaceMem env (novaUpdateLogEntry p u)
      (b.stores.foldl (JournalStore.apply env) s.mem)) cpu (some (inplaceTrans s b []))).set mem cpu none =
      s.set mem cpu none := by
    intro mem
    unfold JournalState.set
    rw [Function.update_idem]
  have hsome : novaCommitLiteTransaction (inplaceMem env (novaUpdateLogEntry p u)
      (b.stores.foldl (JournalStore.apply env) s.mem)) b.currP cpu =
      some (inplaceMem env [.commit cpu b.currP] (inplaceMem env (novaUpdateLogEntry p u)
        (b.stores.foldl (JournalStore.apply env) s.mem))) := by
    simp only [inplaceMem, List.foldl_cons, List.foldl_nil, InplaceStore.apply]
    unfold novaCommitLiteTransaction
    rw [if_neg (not_not.mpr htail)]
    rfl
  have hstep := Runs.single (hcommit _ hsome)
  rwa [hset] at hstep

end InplaceStart

/-! ### Recovery -/

/-- What recovery makes of the page's words: those of the open transaction are restored, the
others stay. -/
theorem Recovered.pageWord (hrec : Recovered env s m')
    (hothers : ∀ j tr, j ≠ cpu → s.trans j = some tr → ∀ a ∈ tr.words, a < page ∨ page + 4096 ≤ a)
    (h1 : page ≤ a) (h2 : a < page + 4096) :
    (∃ tr, s.Open cpu tr ∧ a ∈ tr.words ∧ m'.words a = tr.created a) ∨
      ((∀ tr, s.Open cpu tr → a ∉ tr.words) ∧ m'.words a = s.mem.words a) := by
  by_cases hmem : ∃ tr, s.Open cpu tr ∧ a ∈ tr.words
  · obtain ⟨tr, hopen, ha⟩ := hmem
    exact Or.inl ⟨tr, hopen, ha, hrec.restored cpu tr hopen a ha⟩
  · refine Or.inr ⟨fun tr hopen ha => hmem ⟨tr, hopen, ha⟩, hrec.kept a fun j tr hopen ha => ?_⟩
    by_cases hj : j = cpu
    · subst hj
      exact hmem ⟨tr, hopen, ha⟩
    · have := hothers j tr hj hopen.1 a ha
      omega

namespace InplaceStart

/-- The other CPUs' transactions are off the page. -/
theorem others (h : InplaceStart env s cpu page p u b) (mem : JournalMem) (tr? : Option JournalTrans) :
    ∀ j tr, j ≠ cpu → (s.set mem cpu tr?).trans j = some tr → ∀ a ∈ tr.words, a < page ∨ page + 4096 ≤ a :=
  fun j tr hj htr => h.free j tr ((Function.update_of_ne hj ..).symm.trans htr)

/-- Recovery at any moment of the update. -/
theorem recovered (h : InplaceStart env s cpu page p u b) {mem : JournalMem} {tr? : Option JournalTrans}
    (hrun : Runs (JournalStep env) s (s.set mem cpu tr?)) :
    ∃ m', novaLiteJournalSoftInit env true mem = some (.ok m') ∧ Recovered env (s.set mem cpu tr?) m' :=
  (hrun.invariant (fun _ _ _ hi hstep => hi.step h.csum hstep) h.inv : JournalInv env _).recovered

/-- Before the commit, the page comes back when only journaled words were stored to. -/
theorem before (h : InplaceStart env s cpu page p u b) {mem : JournalMem} {rest : List JournalStore}
    (hrun : Runs (JournalStep env) s (s.set mem cpu (some (inplaceTrans s b rest))))
    (hkept : ∀ a, page ≤ a → a < page + 4096 →
      (rest = [] → a ∉ b.stores.filterMap JournalStore.word?) → mem.words a = s.mem.words a) :
    ∃ m', novaLiteJournalSoftInit env true mem = some (.ok m') ∧ SamePage page m' s.mem := by
  obtain ⟨m', hm', hrec⟩ := h.recovered hrun
  have hself := s.set_trans_self mem cpu (some (inplaceTrans s b rest))
  refine ⟨m', hm', SamePage.of_words (fun a h1 h2 _ => ?_) h.isPage⟩
  rcases hrec.pageWord (h.others mem _) h1 h2 with ⟨tr, hopen, -, heq⟩ | ⟨hnot, heq⟩
  · obtain rfl := Option.some.inj (hself.symm.trans hopen.1)
    exact heq
  · exact heq.trans (hkept a h1 h2 fun hrest => hnot _ ⟨hself, hrest⟩)

/-- After the commit, it stays. -/
theorem after (h : InplaceStart env s cpu page p u b) {mem : JournalMem}
    (hrun : Runs (JournalStep env) s (s.set mem cpu none)) :
    ∃ m', novaLiteJournalSoftInit env true mem = some (.ok m') ∧ SamePage page m' mem := by
  obtain ⟨m', hm', hrec⟩ := h.recovered hrun
  have hself := s.set_trans_self mem cpu none
  refine ⟨m', hm', SamePage.of_words (fun a h1 h2 _ => ?_) h.isPage⟩
  rcases hrec.pageWord (h.others mem _) h1 h2 with ⟨tr, hopen, -, -⟩ | ⟨-, heq⟩
  · rw [JournalState.Open, hself] at hopen
    cases hopen.1
  · exact heq

/-- All the stores, as `nova_inplace_update_log_entry` does them. -/
theorem stores (h : InplaceStart env s cpu page p u b) :
    novaInplaceUpdateLogEntry s.mem cpu p u =
      some (b.stores.map .journal ++ novaUpdateLogEntry p u ++ [.commit cpu b.currP]) := by
  unfold novaInplaceUpdateLogEntry
  rw [h.created]
  rfl

/-- **An update that stores only to its entry is atomic.** -/
theorem atomic (h : InplaceStart env s cpu page p u b) (htype : u.type ≠ .dirLog) :
    CrashAtomic env page s.mem (b.stores.map .journal ++ novaUpdateLogEntry p u ++ [.commit cpu b.currP]) := by
  intro pre hpre
  rcases prefix_cases hpre with ⟨n, rfl⟩ | ⟨us', hus', rfl⟩ | rfl
  · obtain ⟨m', hm', hsame⟩ := h.before (h.creating n) fun a _ _ _ => by rw [words_foldl_stores]
    rw [← List.map_take, inplaceMem_journal]
    exact ⟨m', hm', Or.inl hsame⟩
  · obtain ⟨m', hm', hsame⟩ := h.before (h.storing hus') fun a _ _ hnot => by
      rw [inplaceMem_kept us' fun st hst => ?_, words_foldl_stores]
      rcases novaUpdateLogEntry_word h.aligned st (hus'.subset hst) with ⟨c, hword, h1, h2, hc⟩ | ⟨hdir, -⟩
      · refine ⟨c, hword, ?_⟩
        rintro rfl
        have hmem := mem_entryWords h1 h2 h.aligned hc
        rw [← h.words] at hmem
        exact hnot rfl hmem
      · exact absurd hdir htype
    rw [inplaceMem_append, inplaceMem_journal]
    exact ⟨m', hm', Or.inl hsame⟩
  · obtain ⟨m', hm', hsame⟩ := h.after h.committed
    rw [inplaceMem_append, inplaceMem_append, inplaceMem_journal]
    exact ⟨m', hm', Or.inr hsame⟩

/-- **The update of a dentry is not.**  Between its last store and the commit the dentry is
restored and the count is not. -/
theorem not_atomic {info : DentryUpdate} (h : InplaceStart env s cpu page p (.dirLog info) b)
    (hlive : s.mem.field (p + NovaDentry.invalidAt) 1 = 0) :
    ¬CrashAtomic env page s.mem
      (b.stores.map .journal ++ novaUpdateLogEntry p (.dirLog info) ++ [.commit cpu b.currP]) := by
  intro hall
  obtain ⟨m', hm', hsame⟩ := hall _ (List.prefix_append _ _)
  have halign := h.aligned
  have hisPage := h.isPage
  have hpage : page ≤ p ∧ p + 48 ≤ page + 4064 := h.inPage
  have hblock : p / 4096 * 4096 = page := by omega
  have hrun := h.storing (List.prefix_refl _)
  obtain ⟨m'', hm'', hrec⟩ := h.recovered hrun
  rw [inplaceMem_append, inplaceMem_journal, hm''] at hm'
  obtain rfl := Except.ok.inj (Option.some.inj hm')
  generalize hM : b.stores.foldl (JournalStore.apply env) s.mem = M at hrec hsame
  have hMwords : M.words = s.mem.words := by rw [← hM, words_foldl_stores]
  have hMfield : ∀ a k, M.field a k = s.mem.field a k := fun a k => by
    unfold JournalMem.field
    rw [hMwords]
  -- the count is not restored
  have hcount : m''.field (page + 4064) 4 = (s.mem.field (page + 4064) 4 + 1) % 256 ^ 4 := by
    have hword : m''.words (page + 4064) =
        (inplaceMem env (novaUpdateLogEntry p (.dirLog info)) M).words (page + 4064) := by
      rcases hrec.pageWord (h.others _ _) (a := page + 4064) (by omega) (by omega) with
        ⟨tr, hopen, ha, -⟩ | ⟨-, heq⟩
      · obtain rfl := Option.some.inj ((s.set_trans_self _ cpu _).symm.trans hopen.1)
        have hin : p ≤ page + 4064 ∧ page + 4064 < p + 48 := h.word_bounds ha
        omega
      · exact heq
    have hfield : m''.field (page + 4064) 4 =
        (inplaceMem env (novaUpdateLogEntry p (.dirLog info)) M).field (page + 4064) 4 := by
      unfold JournalMem.field
      rw [show (page + 4064) / 8 * 8 = page + 4064 by omega, hword]
    rw [hfield, ← hMfield]
    simp only [inplaceMem, novaUpdateLogEntry, novaUpdateOldDentry, fieldStores, List.map_cons, List.map_nil,
      List.cons_append, List.nil_append, List.foldl_cons, List.foldl_nil, InplaceStore.apply, hblock,
      invalidEntriesAt, NovaDentry.epochIdAt, NovaDentry.transIdAt, NovaDentry.inoAt, NovaDentry.invalidAt,
      NovaDentry.mtimeAt, NovaDentry.linksCountAt]
    rw [field_setField]
    simp (disch := omega) only [field_setField_other]
  have hlt : s.mem.field (page + 4064) 4 < 256 ^ 4 := getField_lt
  rcases hsame with hsame | hsame
  · have heq := hsame.field (a := page + 4064) (k := 4) (by omega) (by omega) (by omega)
    omega
  · -- the dentry is restored
    have hrestored : m''.field (p + 3) 1 = 0 := by
      rcases hrec.pageWord (h.others _ _) (a := p) (by omega) (by omega) with ⟨tr, hopen, -, heq⟩ | ⟨hnot, -⟩
      · obtain rfl := Option.some.inj ((s.set_trans_self _ cpu _).symm.trans hopen.1)
        have hheq : m''.words p = s.mem.words p := heq
        rw [← hlive]
        unfold JournalMem.field NovaDentry.invalidAt
        rw [show (p + 3) / 8 * 8 = p by omega, hheq]
      · refine absurd ?_ (hnot _ ⟨s.set_trans_self _ cpu _, rfl⟩)
        show p ∈ b.stores.filterMap JournalStore.word?
        rw [h.words]
        exact mem_entryWords (le_refl p) (by show p + 8 ≤ p + 48; omega) halign halign
    have hdone : (inplaceMem env (b.stores.map .journal ++ novaUpdateLogEntry p (.dirLog info) ++
        [.commit cpu b.currP]) s.mem).field (p + 3) 1 = 1 := by
      have hcommit : ∀ m : JournalMem, ((novaCommitLiteTransaction m b.currP cpu).getD m).field (p + 3) 1 =
          m.field (p + 3) 1 := by
        intro m
        unfold novaCommitLiteTransaction
        split <;> rfl
      rw [inplaceMem_append, inplaceMem_append, inplaceMem_journal, hM]
      simp only [inplaceMem, novaUpdateLogEntry, novaUpdateOldDentry, fieldStores, List.map_cons, List.map_nil,
        List.cons_append, List.nil_append, List.foldl_cons, List.foldl_nil, InplaceStore.apply, hblock,
        invalidEntriesAt, NovaDentry.epochIdAt, NovaDentry.transIdAt, NovaDentry.inoAt, NovaDentry.invalidAt,
        NovaDentry.mtimeAt, NovaDentry.linksCountAt, hcommit]
      rw [field_setField_other (by omega), field_setField_other (by omega), field_setField_other (by omega),
        field_setField]
      rfl
    have heq := hsame.field (a := p + 3) (k := 1) (by omega) (by omega) (by omega)
    omega

end InplaceStart

/-- **When an update in place is atomic.**  Other CPUs may be in transactions of their own, on
other pages; a dentry that is updated is a live one. -/
theorem novaInplaceUpdateLogEntry_atomic_iff (hcsum : env.metadataCsum = false) (hinit : JournalInit env s₀)
    (hrun : Runs (JournalStep env) s₀ s) (hcpu : cpu < env.cpus) (hidle : s.trans cpu = none)
    (haligned : p % 8 = 0) (hpage : page % 4096 = 0)
    (hin : page ≤ p ∧ p + novaGetLogEntrySize u.type ≤ page + invalidEntriesAt) (hfree : PageFree s page)
    (hlive : u.type = .dirLog → s.mem.field (p + NovaDentry.invalidAt) 1 = 0)
    (hsts : novaInplaceUpdateLogEntry s.mem cpu p u = some sts) :
    CrashAtomic env page s.mem sts ↔ u.type ≠ .dirLog := by
  have hinv := JournalInv.runs hcsum hinit hrun
  cases hb : novaCreateLogentryTransaction (s.mem.pairs cpu) p u.type cpu with
  | none =>
      unfold novaInplaceUpdateLogEntry at hsts
      rw [hb] at hsts
      cases hsts
  | some b =>
      have h : InplaceStart env s cpu page p u b :=
        ⟨hcsum, hinv, hcpu, hidle, haligned, hpage, hin, hfree, hb⟩
      obtain rfl := Option.some.inj (h.stores.symm.trans hsts)
      constructor
      · rintro hatomic htype
        cases u with
        | dirLog info => exact h.not_atomic (hlive rfl) hatomic
        | fileWrite info => cases htype
        | setAttr e => cases htype
        | linkChange e => cases htype
      · exact h.atomic

end

theorem lastPlaceState_init : JournalInit lastPlaceEnv lastPlaceState :=
  ⟨fun _ => rfl, fun _ _ => rfl, by decide, by decide⟩

theorem lastPlaceState_free (page : Nat) : PageFree lastPlaceState page := fun _ _ h => by cases h

theorem novaInplaceUpdateLogEntry_atomic_iff_links : ∃ sts,
    novaInplaceUpdateLogEntry lastPlaceState.mem 0 0x4000 (.linkChange ⟨1, 0, 0, 0, 0, 0⟩) = some sts ∧
      (CrashAtomic lastPlaceEnv 0x4000 lastPlaceState.mem sts ↔ NovaEntryType.linkChange ≠ .dirLog) :=
  ⟨_, rfl, novaInplaceUpdateLogEntry_atomic_iff (p := 0x4000) (u := .linkChange ⟨1, 0, 0, 0, 0, 0⟩) rfl
    lastPlaceState_init (Runs.refl _) (by decide) rfl (by decide) (by decide) (by decide)
    (lastPlaceState_free _) (fun h => by cases h) rfl⟩

/-- A dentry at the start of a page is removed, and the machine stops before the commit. -/
theorem novaInplaceUpdateLogEntry_dentry_torn :
    ¬∀ (env : JournalEnv) (s₀ s : JournalState) (cpu page p : Nat) (u : InplaceUpdate)
      (sts : List InplaceStore), env.metadataCsum = false → JournalInit env s₀ →
      Runs (JournalStep env) s₀ s → cpu < env.cpus → s.trans cpu = none → p % 8 = 0 → page % 4096 = 0 →
      page ≤ p ∧ p + novaGetLogEntrySize u.type ≤ page + invalidEntriesAt → PageFree s page →
      novaInplaceUpdateLogEntry s.mem cpu p u = some sts → CrashAtomic env page s.mem sts := by
  intro hall
  have hinv := JournalInv.init lastPlaceState_init
  have hstart : ∃ b, InplaceStart lastPlaceEnv lastPlaceState 0 0x4000 0x4000 (.dirLog ⟨1, 1, 0, 2, -1⟩) b :=
    ⟨_, rfl, hinv, by decide, rfl, by decide, by decide, by decide, lastPlaceState_free _, rfl⟩
  obtain ⟨b, h⟩ := hstart
  exact h.not_atomic (by decide) (hall _ _ _ _ _ _ _ _ rfl lastPlaceState_init (Runs.refl _) h.bound h.idle
    h.aligned h.isPage h.inPage h.free h.stores)

end Parfs
