/-
The journal is atomic.

Any number of CPUs create, use and commit transactions, one store at a time, and the
machine may stop after any of them.  `JournalInv` says what the memory looks like then: a
transaction that is being created has published nothing and the stores it still has to do
complete its entries, and one that is open has all its entries in place.  Recovery from
such a memory is computed once, by walking the entries, and the theorem reads it off.

A word may be journaled several times in one transaction and undo runs forwards; that is
harmless because all its entries hold the value from before the first store.
-/
import Parfs.Lib.Run
import Parfs.Lib.Undo
import Parfs.Journal

namespace Parfs

open Lib

/-! ### The system -/

/-- A call of one of the three builders. -/
inductive JournalRequest where
  | create (inode dir : JournalInode) (newInode invalidate : Bool)
  | rename (oldInode oldDir : JournalInode) (newInode newDir : Option JournalInode)
      (fatherEntry newDentry oldDentry : Option Nat) (invalidateNewInode : Bool)
  | logentry (entry : Nat) (type : NovaEntryType)

def JournalRequest.build (env : JournalEnv) (pair : JournalPtrPair) (cpu : Nat) :
    JournalRequest → Option Journaling
  | .create inode dir newInode invalidate =>
    novaCreateInodeTransaction env pair inode dir cpu newInode invalidate
  | .rename oldInode oldDir newInode newDir fatherEntry newDentry oldDentry invalidateNewInode =>
    novaCreateRenameTransaction env pair oldInode oldDir newInode newDir fatherEntry newDentry
      oldDentry invalidateNewInode cpu
  | .logentry entry type => novaCreateLogentryTransaction pair entry type cpu

/-- The word a store saves in the journal. -/
def JournalStore.word? : JournalStore → Option Nat
  | .data2Word _ addr => some addr
  | _ => none

/-- A transaction between its creation and its commit. -/
structure JournalTrans where
  /-- the stores of the builder that are still to come; none once the tail is published -/
  rest : List JournalStore
  /-- what the builder returns -/
  tail : Nat
  /-- the words it journals -/
  words : List Nat
  /-- all words as they were when it was created -/
  created : Nat → Nat

structure JournalState where
  mem : JournalMem
  /-- the transaction that holds the CPU's journal lock -/
  trans : Nat → Option JournalTrans

/-- The memory and one CPU's transaction, replaced. -/
def JournalState.set (s : JournalState) (mem : JournalMem) (cpu : Nat) (tr : Option JournalTrans) :
    JournalState where
  mem := mem
  trans := Function.update s.trans cpu tr

theorem JournalState.set_trans_self (s : JournalState) (mem : JournalMem) (cpu : Nat)
    (tr : Option JournalTrans) : (s.set mem cpu tr).trans cpu = tr := Function.update_self ..

inductive JournalCall where
  | create (cpu : Nat) (request : JournalRequest)
  | store (cpu : Nat)
  | write (cpu addr value : Nat)
  | other (addr value : Nat)
  | commit (cpu : Nat)

/-- One step of one CPU.  Transactions that are open at one time are on different words:
the inode locks of the callers see to that. -/
inductive JournalStep (env : JournalEnv) : JournalState → JournalCall → JournalState → Prop
  | create {s : JournalState} {cpu : Nat} {request : JournalRequest} {b : Journaling}
      (hcpu : cpu < env.cpus) (hidle : s.trans cpu = none)
      (hb : request.build env (s.mem.pairs cpu) cpu = some b)
      (hapart : ∀ j tr, s.trans j = some tr →
        ∀ a ∈ tr.words, a ∉ b.stores.filterMap JournalStore.word?) :
      JournalStep env s (.create cpu request)
        (s.set s.mem cpu
          (some ⟨b.stores, b.currP, b.stores.filterMap JournalStore.word?, s.mem.words⟩))
  | store {s : JournalState} {cpu : Nat} {tr : JournalTrans} {st : JournalStore}
      {rest : List JournalStore} (htr : s.trans cpu = some tr) (hrest : tr.rest = st :: rest) :
      JournalStep env s (.store cpu)
        (s.set (st.apply env s.mem) cpu (some { tr with rest := rest }))
  | write {s : JournalState} {cpu addr v : Nat} {tr : JournalTrans}
      (htr : s.trans cpu = some tr) (hopen : tr.rest = []) (haddr : addr ∈ tr.words) :
      JournalStep env s (.write cpu addr v) { s with mem := s.mem.setWord addr v }
  | other {s : JournalState} {addr v : Nat}
      (hfree : ∀ j tr, s.trans j = some tr → addr ∉ tr.words) :
      JournalStep env s (.other addr v) { s with mem := s.mem.setWord addr v }
  | commit {s : JournalState} {cpu : Nat} {tr : JournalTrans} {m : JournalMem}
      (htr : s.trans cpu = some tr) (hopen : tr.rest = [])
      (hm : novaCommitLiteTransaction s.mem tr.tail cpu = some m) :
      JournalStep env s (.commit cpu) (s.set m cpu none)

/-- Nobody is in a transaction; every CPU has a page of its own and its pointers meet at
some place in it. -/
structure JournalInit (env : JournalEnv) (s : JournalState) : Prop where
  idle : ∀ cpu, s.trans cpu = none
  meet : ∀ cpu < env.cpus, (s.mem.pairs cpu).journalHead = (s.mem.pairs cpu).journalTail
  aligned : ∀ cpu < env.cpus, (s.mem.pairs cpu).journalHead % 32 = 0
  pages : ∀ i < env.cpus, ∀ j < env.cpus, i ≠ j →
    (s.mem.pairs i).journalHead / 4096 ≠ (s.mem.pairs j).journalHead / 4096

/-- The tail is published and the head not yet moved. -/
def JournalState.Open (s : JournalState) (cpu : Nat) (tr : JournalTrans) : Prop :=
  s.trans cpu = some tr ∧ tr.rest = []

/-- What recovery makes of a memory. -/
structure Recovered (env : JournalEnv) (s : JournalState) (m : JournalMem) : Prop where
  meet : ∀ cpu < env.cpus, (m.pairs cpu).journalHead = (m.pairs cpu).journalTail
  /-- the words of an open transaction are back -/
  restored : ∀ cpu tr, s.Open cpu tr → ∀ a ∈ tr.words, m.words a = tr.created a
  /-- all others are untouched -/
  kept : ∀ a, (∀ cpu tr, s.Open cpu tr → a ∉ tr.words) → m.words a = s.mem.words a
  entries : m.entries = s.mem.entries
  pairs : ∀ cpu, (∀ tr, ¬ s.Open cpu tr) → m.pairs cpu = s.mem.pairs cpu
  heads : ∀ cpu, (m.pairs cpu).journalHead = (s.mem.pairs cpu).journalHead

section

variable {env : JournalEnv} {m m' : JournalMem} {p : Nat} {as : List Nat} {created : Nat → Nat}

/-! ### Places in a journal page -/

theorem nextLiteJournal_aligned (hp : p % 32 = 0) : nextLiteJournal p % 32 = 0 := by
  unfold nextLiteJournal
  split <;> omega

theorem nextLiteJournal_page (hp : p % 32 = 0) : nextLiteJournal p / 4096 = p / 4096 := by
  unfold nextLiteJournal
  split <;> omega

/-- The walk goes round the page, 32 bytes at a time. -/
theorem iterate_nextLiteJournal (hp : p % 32 = 0) (k : Nat) :
    nextLiteJournal^[k] p = p / 4096 * 4096 + (p % 4096 + 32 * k) % 4096 := by
  induction k with
  | zero =>
      rw [Function.iterate_zero_apply]
      omega
  | succ k ih =>
      rw [Function.iterate_succ_apply', ih]
      unfold nextLiteJournal
      split <;> omega

theorem iterate_nextLiteJournal_aligned (hp : p % 32 = 0) (k : Nat) :
    nextLiteJournal^[k] p % 32 = 0 := by
  rw [iterate_nextLiteJournal hp]
  omega

theorem iterate_nextLiteJournal_page (hp : p % 32 = 0) (k : Nat) :
    nextLiteJournal^[k] p / 4096 = p / 4096 := by
  rw [iterate_nextLiteJournal hp]
  omega

/-- Fewer than 128 steps do not lead back. -/
theorem iterate_nextLiteJournal_ne (hp : p % 32 = 0) {k : Nat} (hk : k < 127) :
    p ≠ nextLiteJournal^[k + 1] p := by
  rw [iterate_nextLiteJournal hp]
  omega

/-! ### Entries in place -/

/-- The entry that records the value `v` of word `a`. -/
def entryFor (env : JournalEnv) (a v : Nat) : LiteJournalEntry :=
  novaUpdateJournalEntryCsum env ⟨journalEntry, a, v, 0, 0⟩

/-- From `p` on the journal records the words with their values at creation. -/
def JournalHolds (env : JournalEnv) (m : JournalMem) (created : Nat → Nat) : Nat → List Nat → Prop
  | _, [] => True
  | p, a :: as => m.entries p = entryFor env a (created a) ∧
      JournalHolds env m created (nextLiteJournal p) as

theorem JournalHolds.congr (hp : p % 32 = 0) (h : JournalHolds env m created p as)
    (heq : ∀ q, q / 4096 = p / 4096 → m'.entries q = m.entries q) :
    JournalHolds env m' created p as := by
  induction as generalizing p with
  | nil => trivial
  | cons a as ih =>
      refine ⟨(heq p rfl).trans h.1, ih (nextLiteJournal_aligned hp) h.2 ?_⟩
      intro q hq
      exact heq q (hq.trans (nextLiteJournal_page hp))

/-- All the stores that journal the words, from place `p` on. -/
def storesFrom : Nat → List Nat → List JournalStore
  | _, [] => []
  | p, a :: as =>
    [.type p journalEntry, .padding p, .data1 p a, .data2Word p a, .csum p] ++
      storesFrom (nextLiteJournal p) as

/-- The stores go to this page and read these words. -/
def JournalStore.Within (page : Nat) (words : List Nat) : JournalStore → Prop
  | .type p _ => p / 4096 = page
  | .padding p => p / 4096 = page
  | .data1 p _ => p / 4096 = page
  | .data2 p _ => p / 4096 = page
  | .data2Word p a => p / 4096 = page ∧ a ∈ words
  | .csum p => p / 4096 = page
  | .tail _ _ => False

theorem storesFrom_within {words : List Nat} (hp : p % 32 = 0) (hsub : ∀ a ∈ as, a ∈ words) :
    ∀ st ∈ storesFrom p as, st.Within (p / 4096) words := by
  induction as generalizing p with
  | nil =>
      intro st hst
      cases hst
  | cons a as ih =>
      intro st hst
      rcases List.mem_append.mp hst with hst | hst
      · simp only [List.mem_cons, List.not_mem_nil, or_false] at hst
        rcases hst with rfl | rfl | rfl | rfl | rfl
        · rfl
        · rfl
        · rfl
        · exact ⟨rfl, hsub a List.mem_cons_self⟩
        · rfl
      · have := ih (nextLiteJournal_aligned hp) (fun b hb => hsub b (List.mem_cons_of_mem _ hb)) st hst
        rwa [nextLiteJournal_page hp] at this

theorem filterMap_storesFrom : (storesFrom p as).filterMap JournalStore.word? = as := by
  induction as generalizing p with
  | nil => rfl
  | cons a as ih =>
      show a :: (storesFrom (nextLiteJournal p) as).filterMap JournalStore.word? = a :: as
      rw [ih]

theorem JournalMem.setEntry_other {q : Nat} {f : LiteJournalEntry → LiteJournalEntry} (h : q ≠ p) :
    (m.setEntry p f).entries q = m.entries q := if_neg h

theorem JournalStore.Within.apply_eq {st : JournalStore} {page : Nat} {words : List Nat}
    (h : st.Within page words) :
    ∃ q f, q / 4096 = page ∧ st.apply env m = m.setEntry q f := by
  cases st with
  | type p v => exact ⟨p, fun e => { e with type := v }, h, rfl⟩
  | padding p => exact ⟨p, fun e => { e with padding := 0 }, h, rfl⟩
  | data1 p v => exact ⟨p, fun e => { e with data1 := v }, h, rfl⟩
  | data2 p v => exact ⟨p, fun e => { e with data2 := v }, h, rfl⟩
  | data2Word p a => exact ⟨p, fun e => { e with data2 := m.words a }, h.1, rfl⟩
  | csum p => exact ⟨p, _, h, rfl⟩
  | tail cpu v => exact h.elim

/-- A store inside a page changes nothing outside it. -/
theorem JournalStore.Within.frame {st : JournalStore} {page : Nat} {words : List Nat}
    (h : st.Within page words) : (st.apply env m).words = m.words ∧
      (st.apply env m).pairs = m.pairs ∧
      ∀ q, q / 4096 ≠ page → (st.apply env m).entries q = m.entries q := by
  obtain ⟨p, f, hp, heq⟩ : ∃ q f, q / 4096 = page ∧ st.apply env m = m.setEntry q f := h.apply_eq
  rw [heq]
  refine ⟨rfl, rfl, fun q hq => JournalMem.setEntry_other ?_⟩
  rintro rfl
  exact hq hp

/-- Two memories a transaction cannot tell apart. -/
structure Agrees (page : Nat) (words : List Nat) (m m' : JournalMem) : Prop where
  entries : ∀ q, q / 4096 = page → m'.entries q = m.entries q
  words : ∀ a ∈ words, m'.words a = m.words a

theorem Agrees.setEntry {page : Nat} {words : List Nat} (h : Agrees page words m m')
    (hp : p / 4096 = page) {f f' : LiteJournalEntry → LiteJournalEntry}
    (hf : f' (m.entries p) = f (m.entries p)) :
    Agrees page words (m.setEntry p f) (m'.setEntry p f') := by
  refine ⟨fun q hq => ?_, h.words⟩
  unfold JournalMem.setEntry
  dsimp only
  by_cases hqp : q = p
  · rw [if_pos hqp, if_pos hqp, h.entries p hp]
    exact hf
  · rw [if_neg hqp, if_neg hqp]
    exact h.entries q hq

theorem Agrees.apply {page : Nat} {words : List Nat} {st : JournalStore}
    (h : Agrees page words m m') (hst : st.Within page words) :
    Agrees page words (st.apply env m) (st.apply env m') := by
  cases st with
  | type p v =>
      unfold JournalStore.apply
      exact h.setEntry hst rfl
  | padding p =>
      unfold JournalStore.apply
      exact h.setEntry hst rfl
  | data1 p v =>
      unfold JournalStore.apply
      exact h.setEntry hst rfl
  | data2 p v =>
      unfold JournalStore.apply
      exact h.setEntry hst rfl
  | data2Word p a =>
      unfold JournalStore.apply
      refine h.setEntry hst.1 ?_
      rw [h.words a hst.2]
  | csum p =>
      unfold JournalStore.apply
      exact h.setEntry hst rfl
  | tail cpu v => exact hst.elim

theorem Agrees.foldl {page : Nat} {words : List Nat} {sts : List JournalStore}
    (h : Agrees page words m m') (hsts : ∀ st ∈ sts, st.Within page words) :
    Agrees page words (sts.foldl (JournalStore.apply env) m)
      (sts.foldl (JournalStore.apply env) m') := by
  induction sts generalizing m m' with
  | nil => exact h
  | cons st sts ih =>
      exact ih (h.apply (hsts st List.mem_cons_self))
        fun st' hst' => hsts st' (List.mem_cons_of_mem _ hst')

/-- The five stores of one entry. -/
theorem entryStores_apply (a : Nat) :
    [JournalStore.type p journalEntry, .padding p, .data1 p a, .data2Word p a, .csum p].foldl
      (JournalStore.apply env) m = m.setEntry p fun _ => entryFor env a (m.words a) := by
  simp only [List.foldl_cons, List.foldl_nil, JournalStore.apply, JournalMem.setEntry, if_pos]
  congr 1
  funext q
  by_cases hq : q = p
  · simp [hq, entryFor, novaUpdateJournalEntryCsum, entryCrc]
  · simp [hq]

theorem foldl_storesFrom_frame (hp : p % 32 = 0) {q : Nat}
    (hq : ∀ k < as.length, q ≠ nextLiteJournal^[k] p) :
    ((storesFrom p as).foldl (JournalStore.apply env) m).entries q = m.entries q := by
  induction as generalizing p m with
  | nil => rfl
  | cons a as ih =>
      have hqp : q ≠ p := hq 0 (Nat.succ_pos _)
      unfold storesFrom
      rw [List.foldl_append, entryStores_apply, ih (nextLiteJournal_aligned hp)]
      · exact JournalMem.setEntry_other hqp
      · intro k hk
        exact hq (k + 1) (Nat.succ_lt_succ hk)

/-- **Doing all the stores puts all the entries in place.** -/
theorem storesFrom_holds (hp : p % 32 = 0) (hlen : as.length < 128) (hold : ∀ a ∈ as, m.words a = created a) :
    JournalHolds env ((storesFrom p as).foldl (JournalStore.apply env) m) created p as := by
  induction as generalizing p m with
  | nil => trivial
  | cons a as ih =>
      have hlen' : as.length + 1 < 128 := hlen
      unfold storesFrom
      rw [List.foldl_append, entryStores_apply]
      refine ⟨?_, ih (nextLiteJournal_aligned hp) (by omega) ?_⟩
      · rw [foldl_storesFrom_frame (nextLiteJournal_aligned hp)]
        · simp [JournalMem.setEntry, hold a List.mem_cons_self]
        · intro k hk
          exact iterate_nextLiteJournal_ne hp (by omega)
      · intro b hb
        exact hold b (List.mem_cons_of_mem _ hb)

/-! ### What the builders journal -/

/-- The builder step appends the stores of at most `n` words. -/
def Journals (n : Nat) (append : Journaling → Journaling) : Prop :=
  ∀ b, ∃ as : List Nat, as.length ≤ n ∧ (append b).stores = b.stores ++ storesFrom b.currP as ∧
    (append b).currP = nextLiteJournal^[as.length] b.currP

theorem Journals.id : Journals 0 id := fun _ => ⟨[], le_refl _, (List.append_nil _).symm, rfl⟩

theorem storesFrom_append {bs : List Nat} :
    storesFrom p (as ++ bs) = storesFrom p as ++ storesFrom (nextLiteJournal^[as.length] p) bs := by
  induction as generalizing p with
  | nil => rfl
  | cons a as ih =>
      show _ ++ storesFrom (nextLiteJournal p) (as ++ bs) = _ ++ _ ++ _
      rw [ih, List.append_assoc]
      rfl

theorem Journals.comp {n k : Nat} {f g : Journaling → Journaling} (hf : Journals n f)
    (hg : Journals k g) : Journals (n + k) fun b => g (f b) := by
  intro b
  obtain ⟨as, hlen, hstores, hcurr⟩ := hf b
  obtain ⟨bs, hlen', hstores', hcurr'⟩ := hg (f b)
  refine ⟨as ++ bs, ?_, ?_, ?_⟩
  · rw [List.length_append]
    omega
  · rw [hstores', hstores, hcurr, storesFrom_append, List.append_assoc]
  · rw [hcurr', hcurr, List.length_append, Nat.add_comm, Function.iterate_add_apply]

theorem Journals.mono {n k : Nat} {f : Journaling → Journaling} (hf : Journals n f) (hnk : n ≤ k) :
    Journals k f := by
  intro b
  obtain ⟨as, hlen, hrest⟩ := hf b
  exact ⟨as, hlen.trans hnk, hrest⟩

theorem Journals.entry (field : Nat) : Journals 1 fun b => novaAppendEntryJournal b field :=
  fun _ => ⟨[field / 8 * 8], le_refl _, rfl, rfl⟩

theorem Journals.inodeTail (hcsum : env.metadataCsum = false) (pi : Nat) :
    Journals 1 fun b => novaJournalInodeTail env b pi := by
  have h := Journals.entry (pi + NovaInode.logTailAt)
  simpa [novaJournalInodeTail, hcsum] using h

theorem Journals.inode (hcsum : env.metadataCsum = false) (inode : JournalInode)
    (newInode invalidate isDir : Bool) :
    Journals 3 fun b => novaAppendInodeJournal env b inode newInode invalidate isDir := by
  unfold novaAppendInodeJournal
  simp only [hcsum, Bool.false_eq_true, if_false]
  cases inode.pi with
  | none => exact Journals.id.mono (by omega)
  | some pi =>
      have htail := Journals.inodeTail hcsum pi
      by_cases hdir : isDir = true
      · simpa [hdir] using htail.mono (by omega)
      by_cases hnew : newInode = true
      · simpa [hdir, hnew] using (Journals.entry (pi + NovaInode.validAt)).mono (by omega)
      by_cases hinv : invalidate = true
      · have hthree := (htail.comp (Journals.entry (pi + NovaInode.validAt))).comp
          (Journals.entry (pi + NovaInode.deleteEpochIdAt))
        simpa [hdir, hnew, hinv] using hthree
      · simpa [hdir, hnew, hinv] using htail.mono (by omega)

theorem Journals.dentry (dentry : Nat) : Journals 4 fun b => novaAppendDentryJournal b dentry :=
  (((Journals.entry _).comp (Journals.entry _)).comp (Journals.entry _)).comp (Journals.entry _)

theorem Journals.optional {α : Type} {n : Nat} {append : Journaling → α → Journaling}
    (h : ∀ x, Journals n fun b => append b x) (o : Option α) :
    Journals n fun b => journalOptional append b o := by
  cases o with
  | none => exact Journals.id.mono (Nat.zero_le n)
  | some x => exact h x

theorem Journals.foldl {fields : List Nat} (entry : Nat) : Journals fields.length fun b =>
    fields.foldl (fun b i => novaAppendEntryJournal b (entry + i * 8)) b := by
  induction fields with
  | nil => exact Journals.id
  | cons i fields ih =>
      have h := (Journals.entry (entry + i * 8)).comp ih
      rw [Nat.add_comm] at h
      exact h

/-- **Every builder journals fewer words than the page has places.** -/
theorem JournalRequest.build_spec (hcsum : env.metadataCsum = false) {request : JournalRequest}
    {pair : JournalPtrPair} {cpu : Nat} {b : Journaling}
    (h : request.build env pair cpu = some b) : pair.journalHead = pair.journalTail ∧
      ∃ as : List Nat, as.length < 128 ∧ b.currP = nextLiteJournal^[as.length] pair.journalHead ∧
        b.stores = storesFrom pair.journalHead as ++ [.tail cpu b.currP] := by
  have hshared : ∀ {n : Nat} {append : Journaling → Journaling}, Journals n append → n < 128 →
      createTransaction pair cpu append = some b → pair.journalHead = pair.journalTail ∧
      ∃ as : List Nat, as.length < 128 ∧ b.currP = nextLiteJournal^[as.length] pair.journalHead ∧
        b.stores = storesFrom pair.journalHead as ++ [.tail cpu b.currP] := by
    intro n append hap hn hcreate
    unfold createTransaction at hcreate
    split at hcreate
    · cases hcreate
    · rename_i hok
      obtain rfl := Option.some.inj hcreate
      obtain ⟨as, hlen, hstores, hcurr⟩ := hap ⟨[], pair.journalHead⟩
      refine ⟨by omega, as, by omega, hcurr, ?_⟩
      show (append ⟨[], pair.journalHead⟩).stores ++ _ = _
      rw [hstores, List.nil_append]
  cases request with
  | create inode dir newInode invalidate =>
      exact hshared ((Journals.inode hcsum inode newInode invalidate false).comp
        (Journals.inode hcsum dir newInode invalidate true)) (by omega) h
  | rename oldInode oldDir newInode newDir fatherEntry newDentry oldDentry invalidateNewInode =>
      have hinodes := (((Journals.inode hcsum oldInode false false false).comp
        (Journals.inode hcsum oldDir false false true)).comp
        (Journals.optional (fun i => Journals.inode hcsum i false invalidateNewInode false)
          newInode)).comp
        (Journals.optional (fun i => Journals.inode hcsum i false false true) newDir)
      have hdentries := ((hinodes.comp (Journals.optional Journals.dentry fatherEntry)).comp
        (Journals.optional Journals.dentry newDentry)).comp
        (Journals.optional Journals.dentry oldDentry)
      exact hshared hdentries (by omega) h
  | logentry entry type =>
      have hcount : (List.range (novaGetLogEntrySize type / 8)).length < 128 := by
        cases type <;> decide
      exact hshared (Journals.foldl entry) hcount h

/-! ### The invariant -/

variable {cpu : Nat} {tr : JournalTrans} {s s' : JournalState}

/-- Nothing is published yet, and the stores to come complete the entries. -/
structure Creating (env : JournalEnv) (m : JournalMem) (cpu : Nat) (tr : JournalTrans)
    (pre : List JournalStore) : Prop where
  rest : tr.rest = pre ++ [.tail cpu tr.tail]
  within : ∀ st ∈ pre, st.Within ((m.pairs cpu).journalHead / 4096) tr.words
  completes : JournalHolds env (pre.foldl (JournalStore.apply env) m) tr.created
    (m.pairs cpu).journalHead tr.words
  meet : (m.pairs cpu).journalHead = (m.pairs cpu).journalTail
  words : ∀ a ∈ tr.words, m.words a = tr.created a

/-- The entries are in place and published. -/
structure Published (env : JournalEnv) (m : JournalMem) (cpu : Nat) (tr : JournalTrans) : Prop where
  rest : tr.rest = []
  holds : JournalHolds env m tr.created (m.pairs cpu).journalHead tr.words
  tail : (m.pairs cpu).journalTail = tr.tail

structure TransOk (env : JournalEnv) (m : JournalMem) (cpu : Nat) (tr : JournalTrans) : Prop where
  len : tr.words.length < 128
  tail : tr.tail = nextLiteJournal^[tr.words.length] (m.pairs cpu).journalHead
  phase : (∃ pre, Creating env m cpu tr pre) ∨ Published env m cpu tr

structure JournalInv (env : JournalEnv) (s : JournalState) : Prop where
  aligned : ∀ cpu < env.cpus, (s.mem.pairs cpu).journalHead % 32 = 0
  pages : ∀ i < env.cpus, ∀ j < env.cpus, i ≠ j →
    (s.mem.pairs i).journalHead / 4096 ≠ (s.mem.pairs j).journalHead / 4096
  idle : ∀ cpu < env.cpus, s.trans cpu = none →
    (s.mem.pairs cpu).journalHead = (s.mem.pairs cpu).journalTail
  bound : ∀ cpu tr, s.trans cpu = some tr → cpu < env.cpus
  ok : ∀ cpu tr, s.trans cpu = some tr → TransOk env s.mem cpu tr
  apart : ∀ i j tri trj, i ≠ j → s.trans i = some tri → s.trans j = some trj →
    ∀ a ∈ tri.words, a ∉ trj.words

/-- A transaction is not disturbed by what happens outside its page, its pointers and its
words, nor by changes of its words once it is open. -/
theorem TransOk.frame (h : TransOk env m cpu tr)
    (halign : (m.pairs cpu).journalHead % 32 = 0)
    (hentries : ∀ q, q / 4096 = (m.pairs cpu).journalHead / 4096 → m'.entries q = m.entries q)
    (hwords : tr.rest ≠ [] → ∀ a ∈ tr.words, m'.words a = m.words a)
    (hpairs : m'.pairs cpu = m.pairs cpu) : TransOk env m' cpu tr := by
  refine ⟨h.len, by rw [hpairs]; exact h.tail, ?_⟩
  rcases h.phase with ⟨pre, hc⟩ | hp
  · have hrest : tr.rest ≠ [] := by
      rw [hc.rest]
      simp
    have hagree : Agrees ((m.pairs cpu).journalHead / 4096) tr.words m m' :=
      ⟨hentries, hwords hrest⟩
    refine Or.inl ⟨pre, hc.rest, by rw [hpairs]; exact hc.within, ?_, by rw [hpairs]; exact hc.meet, ?_⟩
    · rw [hpairs]
      exact hc.completes.congr halign (hagree.foldl hc.within).entries
    · intro a ha
      rw [hwords hrest a ha]
      exact hc.words a ha
  · refine Or.inr ⟨hp.rest, ?_, by rw [hpairs]; exact hp.tail⟩
    rw [hpairs]
    exact hp.holds.congr halign hentries

theorem JournalInv.init (h : JournalInit env s) : JournalInv env s where
  aligned := h.aligned
  pages := h.pages
  idle := fun cpu hcpu _ => h.meet cpu hcpu
  bound := fun cpu tr htr => by rw [h.idle cpu] at htr; cases htr
  ok := fun cpu tr htr => by rw [h.idle cpu] at htr; cases htr
  apart := fun i j tri trj _ hi _ => by rw [h.idle i] at hi; cases hi

/-- A builder does its stores one after another. -/
theorem JournalStep.runs_stores (sts post : List JournalStore) :
    ∀ {s : JournalState} {tr : JournalTrans}, s.trans cpu = some tr → tr.rest = sts ++ post →
      Runs (JournalStep env) s (s.set (sts.foldl (JournalStore.apply env) s.mem) cpu
        (some { tr with rest := post })) := by
  induction sts with
  | nil =>
      intro s tr htr hrest
      have hsame : s.set s.mem cpu (some { tr with rest := post }) = s := by
        rw [← List.nil_append post, ← hrest]
        unfold JournalState.set
        rw [← htr, Function.update_eq_self]
      rw [List.foldl_nil, hsame]
      exact Runs.refl s
  | cons st sts ih =>
      intro s tr htr hrest
      have hfirst : JournalStep env s (.store cpu) _ := JournalStep.store htr hrest
      have hlater := ih (s.set_trans_self (st.apply env s.mem) cpu
        (some { tr with rest := sts ++ post })) rfl
      have hset : ∀ mem tr?, (s.set (st.apply env s.mem) cpu (some { tr with rest := sts ++ post })).set
          mem cpu tr? = s.set mem cpu tr? := by
        intro mem tr?
        unfold JournalState.set
        rw [Function.update_idem]
      rw [hset] at hlater
      exact Relation.ReflTransGen.head ⟨_, hfirst⟩ hlater

/-- What one CPU has to show when only its own transaction and memory of its own changed. -/
theorem JournalInv.set (h : JournalInv env s) (hcpu : cpu < env.cpus) {tr? : Option JournalTrans}
    (hhead : (m.pairs cpu).journalHead % 32 = 0 ∧
      (m.pairs cpu).journalHead / 4096 = (s.mem.pairs cpu).journalHead / 4096)
    (hpairs : ∀ j, j ≠ cpu → m.pairs j = s.mem.pairs j)
    (hentries : ∀ q, q / 4096 ≠ (s.mem.pairs cpu).journalHead / 4096 →
      m.entries q = s.mem.entries q)
    (hwords : ∀ j trj, j ≠ cpu → s.trans j = some trj → ∀ a ∈ trj.words, m.words a = s.mem.words a)
    (hidle : tr? = none → (m.pairs cpu).journalHead = (m.pairs cpu).journalTail)
    (hok : ∀ tr, tr? = some tr → TransOk env m cpu tr)
    (hapart : ∀ tr, tr? = some tr → ∀ j trj, j ≠ cpu → s.trans j = some trj →
      ∀ a ∈ trj.words, a ∉ tr.words) : JournalInv env (s.set m cpu tr?) := by
  have hself := s.set_trans_self m cpu tr?
  have hother : ∀ j, j ≠ cpu → (s.set m cpu tr?).trans j = s.trans j :=
    fun j hj => Function.update_of_ne hj ..
  have hpage : ∀ j < env.cpus, (m.pairs j).journalHead / 4096 = (s.mem.pairs j).journalHead / 4096 := by
    intro j _
    by_cases hj : j = cpu
    · rw [hj]
      exact hhead.2
    · rw [hpairs j hj]
  constructor
  · intro j hjlt
    show (m.pairs j).journalHead % 32 = 0
    by_cases hj : j = cpu
    · rw [hj]
      exact hhead.1
    · rw [hpairs j hj]
      exact h.aligned j hjlt
  · intro i hi j hj hij
    show (m.pairs i).journalHead / 4096 ≠ (m.pairs j).journalHead / 4096
    rw [hpage i hi, hpage j hj]
    exact h.pages i hi j hj hij
  · intro j hjlt htr
    show (m.pairs j).journalHead = (m.pairs j).journalTail
    by_cases hj : j = cpu
    · rw [hj] at htr ⊢
      exact hidle (hself ▸ htr)
    · rw [hother j hj] at htr
      rw [hpairs j hj]
      exact h.idle j hjlt htr
  · intro j tr htr
    by_cases hj : j = cpu
    · rw [hj]
      exact hcpu
    · rw [hother j hj] at htr
      exact h.bound j tr htr
  · intro j tr htr
    show TransOk env m j tr
    by_cases hj : j = cpu
    · rw [hj] at htr ⊢
      exact hok tr (hself ▸ htr)
    · rw [hother j hj] at htr
      have hjlt := h.bound j tr htr
      refine (h.ok j tr htr).frame (h.aligned j hjlt) (fun q hq => hentries q ?_)
        (fun _ => hwords j tr hj htr) (hpairs j hj)
      rw [hq]
      exact h.pages j hjlt cpu hcpu hj
  · intro i j tri trj hij hi hj
    by_cases hic : i = cpu
    · have hjc : j ≠ cpu := fun hjc => hij (hic.trans hjc.symm)
      rw [hic, hself] at hi
      rw [hother j hjc] at hj
      exact fun a ha hb => hapart tri hi j trj hjc hj a hb ha
    · rw [hother i hic] at hi
      by_cases hjc : j = cpu
      · rw [hjc, hself] at hj
        exact hapart trj hj i tri hic hi
      · rw [hother j hjc] at hj
        exact h.apart i j tri trj hij hi hj

/-- A word no creating transaction journals may change. -/
theorem JournalInv.setWord (h : JournalInv env s) {addr value : Nat}
    (hfree : ∀ j tr, s.trans j = some tr → tr.rest ≠ [] → addr ∉ tr.words) :
    JournalInv env { s with mem := s.mem.setWord addr value } where
  aligned := h.aligned
  pages := h.pages
  idle := h.idle
  bound := h.bound
  ok := by
    intro j tr htr
    refine (h.ok j tr htr).frame (h.aligned j (h.bound j tr htr)) (fun _ _ => rfl) ?_ rfl
    intro hrest a ha
    refine Function.update_of_ne ?_ ..
    rintro rfl
    exact hfree j tr htr hrest ha
  apart := h.apart

/-- **One step.** -/
theorem JournalInv.step (hcsum : env.metadataCsum = false) (h : JournalInv env s) {call : JournalCall}
    (hstep : JournalStep env s call s') : JournalInv env s' := by
  cases hstep with
  | @create cpu request b hcpu hidle hb hapart =>
      have halign := h.aligned cpu hcpu
      obtain ⟨hmeet, as, hlen, hcurr, hstores⟩ := JournalRequest.build_spec hcsum hb
      have hwords : b.stores.filterMap JournalStore.word? = as := by
        rw [hstores, List.filterMap_append, filterMap_storesFrom]
        simp [JournalStore.word?]
      rw [hwords] at hapart ⊢
      refine h.set hcpu ⟨halign, rfl⟩ (fun _ _ => rfl) (fun _ _ => rfl) (fun _ _ _ _ _ _ => rfl)
        (fun hnone => by cases hnone) ?_ ?_
      · intro tr htr
        obtain rfl := Option.some.inj htr
        exact ⟨hlen, hcurr, Or.inl ⟨storesFrom (s.mem.pairs cpu).journalHead as, hstores,
          storesFrom_within halign fun a ha => ha, storesFrom_holds halign hlen fun _ _ => rfl,
          hmeet, fun _ _ => rfl⟩⟩
      · intro tr htr j trj _ hj
        obtain rfl := Option.some.inj htr
        exact hapart j trj hj
  | @store cpu tr st rest htr hrest =>
      have hcpu := h.bound cpu tr htr
      have halign := h.aligned cpu hcpu
      have hok := h.ok cpu tr htr
      have hdisj : ∀ tr', some { tr with rest := rest } = some tr' → ∀ j trj, j ≠ cpu →
          s.trans j = some trj → ∀ a ∈ trj.words, a ∉ tr'.words := by
        intro tr' htr' j trj hj htrj
        obtain rfl := Option.some.inj htr'
        exact h.apart j cpu trj tr hj htrj htr
      rcases hok.phase with ⟨pre, hc⟩ | hp
      · cases pre with
        | nil =>
            -- the last store publishes the tail
            have heq := hc.rest
            rw [hrest, List.nil_append] at heq
            obtain ⟨rfl, rfl⟩ := List.cons.inj heq
            refine h.set hcpu ?_ ?_ (fun _ _ => rfl) (fun _ _ _ _ _ _ => rfl)
              (fun hnone => by cases hnone) ?_ hdisj
            · simp [JournalStore.apply, JournalMem.setPair, halign]
            · intro j hj
              exact if_neg hj
            · intro tr' htr'
              obtain rfl := Option.some.inj htr'
              refine ⟨hok.len, ?_, Or.inr ⟨rfl, ?_, ?_⟩⟩
              · simpa [JournalStore.apply, JournalMem.setPair] using hok.tail
              · have hholds := hc.completes
                simp only [JournalStore.apply, JournalMem.setPair, if_pos]
                exact hholds.congr halign fun _ _ => rfl
              · simp [JournalStore.apply, JournalMem.setPair]
        | cons st' pre =>
            have heq := hc.rest
            rw [hrest, List.cons_append] at heq
            obtain ⟨rfl, rfl⟩ := List.cons.inj heq
            obtain ⟨hw, hp, he⟩ : (st.apply env s.mem).words = s.mem.words ∧
                (st.apply env s.mem).pairs = s.mem.pairs ∧
                ∀ q, q / 4096 ≠ (s.mem.pairs cpu).journalHead / 4096 →
                  (st.apply env s.mem).entries q = s.mem.entries q :=
              (hc.within st List.mem_cons_self).frame
            refine h.set hcpu (by rw [hp]; exact ⟨halign, rfl⟩) (fun j _ => by rw [hp]) he
              (fun _ _ _ _ _ _ => by rw [hw]) (fun hnone => by cases hnone) ?_ hdisj
            intro tr' htr'
            obtain rfl := Option.some.inj htr'
            refine ⟨hok.len, by rw [hp]; exact hok.tail, Or.inl ⟨pre, rfl, ?_, ?_, ?_, ?_⟩⟩
            · rw [hp]
              exact fun st' hst' => hc.within st' (List.mem_cons_of_mem _ hst')
            · rw [hp]
              exact hc.completes
            · rw [hp]
              exact hc.meet
            · rw [hw]
              exact hc.words
      · rw [hp.rest] at hrest
        cases hrest
  | @write cpu addr v tr htr hopen haddr =>
      refine h.setWord ?_
      intro j trj htrj hrest hmem
      by_cases hj : j = cpu
      · rw [hj, htr] at htrj
        obtain rfl := Option.some.inj htrj
        exact hrest hopen
      · exact h.apart cpu j tr trj (fun hc => hj hc.symm) htr htrj addr haddr hmem
  | other hfree =>
      exact h.setWord fun j tr htr _ => hfree j tr htr
  | @commit cpu tr m htr hopen hm =>
      have hcpu := h.bound cpu tr htr
      have halign := h.aligned cpu hcpu
      have hok := h.ok cpu tr htr
      unfold novaCommitLiteTransaction at hm
      split at hm
      · cases hm
      · rename_i htail
        obtain rfl := Option.some.inj hm
        have hself : (s.mem.setPair cpu { s.mem.pairs cpu with journalHead := tr.tail }).pairs cpu =
            { s.mem.pairs cpu with journalHead := tr.tail } := if_pos rfl
        refine h.set hcpu ?_ (fun j hj => if_neg hj) (fun _ _ => rfl) (fun _ _ _ _ _ _ => rfl) ?_
          (fun tr' htr' => by cases htr') (fun tr' htr' => by cases htr')
        · rw [hself]
          show tr.tail % 32 = 0 ∧ tr.tail / 4096 = _
          rw [hok.tail]
          exact ⟨iterate_nextLiteJournal_aligned halign _, iterate_nextLiteJournal_page halign _⟩
        · intro _
          rw [hself]
          exact (Decidable.not_not.mp htail).symm

/-! ### Recovery -/

theorem novaCheckEntryIntegrity_entryFor (a v : Nat) :
    novaCheckEntryIntegrity env (entryFor env a v) = 0 := if_pos rfl

/-- The walk over entries that are in place ends at the tail and finds them genuine. -/
theorem novaCheckJournalEntriesLoop_eq (hp : p % 32 = 0) (hlen : as.length < 128)
    (h : JournalHolds env m created p as) : ∀ fuel, as.length < fuel →
      novaCheckJournalEntriesLoop env m (nextLiteJournal^[as.length] p) fuel p = some 0 := by
  induction as generalizing p with
  | nil =>
      intro fuel hfuel
      cases fuel with
      | zero => omega
      | succ fuel => exact if_pos rfl
  | cons a as ih =>
      intro fuel hfuel
      have hlen' : as.length + 1 < 128 := hlen
      have hfuel' : as.length + 1 < fuel := hfuel
      cases fuel with
      | zero => omega
      | succ fuel =>
          have hne : p ≠ nextLiteJournal^[as.length + 1] p := iterate_nextLiteJournal_ne hp (by omega)
          unfold novaCheckJournalEntriesLoop
          rw [List.length_cons, if_neg hne, h.1, novaCheckEntryIntegrity_entryFor]
          exact ih (nextLiteJournal_aligned hp) (by omega) h.2 fuel (by omega)

theorem novaUndoLiteJournalEntry_entryFor (a v : Nat) :
    novaUndoLiteJournalEntry env m (entryFor env a v) = m.setWord a v := rfl

/-- What the undo walk does to the words. -/
theorem novaRecoverLiteJournalLoop_eq (hp : p % 32 = 0) (hlen : as.length < 128)
    (h : JournalHolds env m created p as) : ∀ fuel, as.length < fuel →
      novaRecoverLiteJournalLoop env (nextLiteJournal^[as.length] p) fuel p m =
        some { m with words := undo (as.map fun a => (a, created a)) m.words } := by
  induction as generalizing p m with
  | nil =>
      intro fuel hfuel
      cases fuel with
      | zero => omega
      | succ fuel => exact if_pos rfl
  | cons a as ih =>
      intro fuel hfuel
      have hlen' : as.length + 1 < 128 := hlen
      have hfuel' : as.length + 1 < fuel := hfuel
      cases fuel with
      | zero => omega
      | succ fuel =>
          have hne : p ≠ nextLiteJournal^[as.length + 1] p := iterate_nextLiteJournal_ne hp (by omega)
          have hholds : JournalHolds env (m.setWord a (created a)) created (nextLiteJournal p) as :=
            h.2.congr (nextLiteJournal_aligned hp) fun _ _ => rfl
          unfold novaRecoverLiteJournalLoop
          rw [List.length_cons, if_neg hne, h.1, novaUndoLiteJournalEntry_entryFor]
          exact ih (nextLiteJournal_aligned hp) (by omega) hholds fuel (by omega)

/-- What the recovery loop finds at a CPU: a published journal, or pointers that meet. -/
structure Ready (env : JournalEnv) (m : JournalMem) (cpu : Nat) (tr? : Option JournalTrans) : Prop where
  aligned : (m.pairs cpu).journalHead % 32 = 0
  published : ∀ tr, tr? = some tr → tr.rest = [] → tr.words.length < 128 ∧
    (m.pairs cpu).journalTail = nextLiteJournal^[tr.words.length] (m.pairs cpu).journalHead ∧
    JournalHolds env m tr.created (m.pairs cpu).journalHead tr.words
  meet : (∀ tr, tr? = some tr → tr.rest ≠ []) →
    (m.pairs cpu).journalHead = (m.pairs cpu).journalTail

theorem JournalInv.ready (h : JournalInv env s) (hcpu : cpu < env.cpus) :
    Ready env s.mem cpu (s.trans cpu) where
  aligned := h.aligned cpu hcpu
  published := by
    intro tr htr hopen
    have hok := h.ok cpu tr htr
    rcases hok.phase with ⟨pre, hc⟩ | hp
    · have hrest := hc.rest
      rw [hopen] at hrest
      simp at hrest
    · exact ⟨hok.len, hp.tail.trans hok.tail, hp.holds⟩
  meet := by
    intro hclosed
    cases htr : s.trans cpu with
    | none => exact h.idle cpu hcpu htr
    | some tr =>
        rcases (h.ok cpu tr htr).phase with ⟨pre, hc⟩ | hp
        · exact hc.meet
        · exact absurd hp.rest (hclosed tr htr)

/-- What recovering some of the CPUs does. -/
structure RecoveredOn (trans : Nat → Option JournalTrans) (cs : List Nat) (m m' : JournalMem) : Prop where
  entries : m'.entries = m.entries
  heads : ∀ cpu, (m'.pairs cpu).journalHead = (m.pairs cpu).journalHead
  meet : ∀ cpu ∈ cs, (m'.pairs cpu).journalHead = (m'.pairs cpu).journalTail
  pairs : ∀ cpu, (cpu ∉ cs ∨ ∀ tr, trans cpu = some tr → tr.rest ≠ []) → m'.pairs cpu = m.pairs cpu
  kept : ∀ a, (∀ cpu ∈ cs, ∀ tr, trans cpu = some tr → tr.rest = [] → a ∉ tr.words) →
    m'.words a = m.words a
  restored : ∀ cpu ∈ cs, ∀ tr, trans cpu = some tr → tr.rest = [] →
    ∀ a ∈ tr.words, m'.words a = tr.created a

/-- Recovering a CPU whose transaction is open. -/
theorem Ready.recover (h : Ready env m cpu (some tr)) (hopen : tr.rest = []) :
    novaCheckJournalEntries env m (m.pairs cpu) = some 0 ∧
      novaRecoverLiteJournal env m cpu = some
        { entries := m.entries
          words := undo (tr.words.map fun a => (a, tr.created a)) m.words
          pairs := fun c => if c = cpu then
            { m.pairs cpu with journalTail := (m.pairs cpu).journalHead } else m.pairs c } := by
  obtain ⟨hlen, htail, hholds⟩ := h.published tr rfl hopen
  constructor
  · unfold novaCheckJournalEntries
    rw [htail]
    exact novaCheckJournalEntriesLoop_eq h.aligned hlen hholds 128 hlen
  · unfold novaRecoverLiteJournal
    rw [htail, novaRecoverLiteJournalLoop_eq h.aligned hlen hholds 128 hlen]
    rfl

/-- **The loop over the CPUs.**  The transactions that are open are on different words, so
the order in which they are undone does not matter. -/
theorem softInitLoop_spec {trans : Nat → Option JournalTrans}
    (hapart : ∀ i j tri trj, i ≠ j → trans i = some tri → trans j = some trj →
      ∀ a ∈ tri.words, a ∉ trj.words) (cs : List Nat) (hnodup : cs.Nodup) :
    ∀ m, (∀ cpu ∈ cs, Ready env m cpu (trans cpu)) →
      ∃ m', softInitLoop env cs m = some (.ok m') ∧ RecoveredOn trans cs m m' := by
  induction cs with
  | nil =>
      intro m _
      refine ⟨m, rfl, rfl, fun _ => rfl, ?_, fun _ _ => rfl, fun _ _ => rfl, ?_⟩
      · intro cpu hcpu
        cases hcpu
      · intro cpu hcpu
        cases hcpu
  | cons c cs ih =>
      intro m hready
      obtain ⟨hc, hnodup⟩ := List.nodup_cons.mp hnodup
      have hrc := hready c List.mem_cons_self
      by_cases hmeet : (m.pairs c).journalHead = (m.pairs c).journalTail
      · -- nothing to undo here
        obtain ⟨m', hm', hrec⟩ := ih hnodup m fun cpu hcpu => hready cpu (List.mem_cons_of_mem _ hcpu)
        have hnowords : ∀ tr, trans c = some tr → tr.rest = [] → tr.words = [] := by
          intro tr htr hopen
          obtain ⟨hlen, htail, -⟩ := hrc.published tr htr hopen
          cases hw : tr.words with
          | nil => rfl
          | cons a as =>
              rw [hw] at hlen htail
              have hlen' : as.length + 1 < 128 := hlen
              exact absurd (hmeet.trans htail) (iterate_nextLiteJournal_ne hrc.aligned (by omega))
        refine ⟨m', ?_, hrec.entries, hrec.heads, ?_, ?_, ?_, ?_⟩
        · unfold softInitLoop
          rw [if_pos hmeet]
          exact hm'
        · intro cpu hcpu
          rcases List.mem_cons.mp hcpu with rfl | hcpu
          · rw [hrec.pairs cpu (Or.inl hc)]
            exact hmeet
          · exact hrec.meet cpu hcpu
        · rintro cpu (hcpu | hclosed)
          · exact hrec.pairs cpu (Or.inl fun h => hcpu (List.mem_cons_of_mem _ h))
          · exact hrec.pairs cpu (Or.inr hclosed)
        · intro a ha
          exact hrec.kept a fun cpu hcpu => ha cpu (List.mem_cons_of_mem _ hcpu)
        · intro cpu hcpu tr htr hopen a ha
          rcases List.mem_cons.mp hcpu with rfl | hcpu
          · rw [hnowords tr htr hopen] at ha
            cases ha
          · exact hrec.restored cpu hcpu tr htr hopen a ha
      · -- the CPU has an open transaction
        obtain ⟨tr, htr, hopen⟩ : ∃ tr, trans c = some tr ∧ tr.rest = [] := by
          by_contra hcon
          refine hmeet (hrc.meet ?_)
          intro tr htr hopen
          exact hcon ⟨tr, htr, hopen⟩
        rw [htr] at hrc
        obtain ⟨hcheck, hrecover⟩ := hrc.recover hopen
        generalize hm₁ : ({ entries := m.entries
                            words := undo (tr.words.map fun a => (a, tr.created a)) m.words
                            pairs := fun c' => if c' = c then
                              { m.pairs c with journalTail := (m.pairs c).journalHead }
                              else m.pairs c' } : JournalMem) = m₁ at hrecover
        have hentries₁ : m₁.entries = m.entries := by rw [← hm₁]
        have hwords₁ : m₁.words = undo (tr.words.map fun a => (a, tr.created a)) m.words := by
          rw [← hm₁]
        have hself₁ : m₁.pairs c = { m.pairs c with journalTail := (m.pairs c).journalHead } := by
          rw [← hm₁]
          exact if_pos rfl
        have hother₁ : ∀ j, j ≠ c → m₁.pairs j = m.pairs j := by
          intro j hj
          rw [← hm₁]
          exact if_neg hj
        have hready₁ : ∀ cpu ∈ cs, Ready env m₁ cpu (trans cpu) := by
          intro cpu hcpu
          have hne : cpu ≠ c := by
            rintro rfl
            exact hc hcpu
          have hr := hready cpu (List.mem_cons_of_mem _ hcpu)
          refine ⟨by rw [hother₁ cpu hne]; exact hr.aligned, ?_, by rw [hother₁ cpu hne]; exact hr.meet⟩
          intro tr' htr' hopen'
          obtain ⟨hlen, htail, hholds⟩ := hr.published tr' htr' hopen'
          rw [hother₁ cpu hne]
          exact ⟨hlen, htail, hholds.congr hr.aligned fun q _ => by rw [hentries₁]⟩
        obtain ⟨m', hm', hrec⟩ := ih hnodup m₁ hready₁
        have hfst : ∀ a, a ∈ tr.words ↔ a ∈ (tr.words.map fun a => (a, tr.created a)).map Prod.fst := by
          intro a
          simp
        refine ⟨m', ?_, hrec.entries.trans hentries₁, ?_, ?_, ?_, ?_, ?_⟩
        · unfold softInitLoop
          rw [if_neg hmeet, hcheck, hrecover]
          exact hm'
        · intro cpu
          rw [hrec.heads cpu]
          by_cases hcpu : cpu = c
          · rw [hcpu, hself₁]
          · rw [hother₁ cpu hcpu]
        · intro cpu hcpu
          rcases List.mem_cons.mp hcpu with rfl | hcpu
          · rw [hrec.pairs cpu (Or.inl hc), hself₁]
          · exact hrec.meet cpu hcpu
        · intro cpu hquiet
          have hne : cpu ≠ c := by
            rintro rfl
            rcases hquiet with hcpu | hclosed
            · exact hcpu List.mem_cons_self
            · exact hclosed tr htr hopen
          rw [← hother₁ cpu hne]
          refine hrec.pairs cpu (hquiet.imp_left ?_)
          intro hcpu h
          exact hcpu (List.mem_cons_of_mem _ h)
        · intro a ha
          rw [hrec.kept a fun cpu hcpu => ha cpu (List.mem_cons_of_mem _ hcpu), hwords₁]
          refine undo_of_notMem ?_
          rw [← hfst]
          exact ha c List.mem_cons_self tr htr hopen
        · intro cpu hcpu tr' htr' hopen' a ha
          rcases List.mem_cons.mp hcpu with rfl | hcpu
          · rw [htr] at htr'
            obtain rfl := Option.some.inj htr'
            rw [hrec.kept a ?_, hwords₁]
            · refine undo_of_mem ?_ ((hfst a).mp ha)
              intro r hr
              obtain ⟨b, -, rfl⟩ := List.mem_map.mp hr
              rfl
            · intro j hj trj htrj _
              refine hapart cpu j tr trj ?_ htr htrj a ha
              rintro rfl
              exact hc hj
          · exact hrec.restored cpu hcpu tr' htr' hopen' a ha

/-- Recovery from a memory that is in order. -/
theorem JournalInv.recovered (hinv : JournalInv env s) :
    ∃ m, novaLiteJournalSoftInit env true s.mem = some (.ok m) ∧ Recovered env s m := by
  obtain ⟨m, hm, hrec⟩ := softInitLoop_spec hinv.apart (List.range env.cpus) List.nodup_range s.mem
    fun cpu hcpu => hinv.ready (List.mem_range.mp hcpu)
  have hrange : ∀ cpu tr, s.Open cpu tr → cpu ∈ List.range env.cpus :=
    fun cpu tr hopen => List.mem_range.mpr (hinv.bound cpu tr hopen.1)
  refine ⟨m, hm, ?_, ?_, ?_, hrec.entries, ?_, hrec.heads⟩
  · intro cpu hcpu
    exact hrec.meet cpu (List.mem_range.mpr hcpu)
  · intro cpu tr hopen
    exact hrec.restored cpu (hrange cpu tr hopen) tr hopen.1 hopen.2
  · intro a ha
    exact hrec.kept a fun cpu _ tr htr hopen => ha cpu tr ⟨htr, hopen⟩
  · intro cpu hclosed
    exact hrec.pairs cpu (Or.inr fun tr htr hopen => hclosed tr ⟨htr, hopen⟩)

/-- The invariant holds in every state of a run. -/
theorem JournalInv.runs {s₀ : JournalState} (hcsum : env.metadataCsum = false)
    (hinit : JournalInit env s₀) (hrun : Runs (JournalStep env) s₀ s) : JournalInv env s :=
  hrun.invariant (fun _ _ _ h hstep => h.step hcsum hstep) (JournalInv.init hinit)

/--
**Undo journal atomicity.**  Whatever the CPUs have done, store by store, when the machine
stops: recovery ends well, gives every word of an open transaction the value it had when
the transaction was created, touches nothing else, and leaves all pointers meeting.
-/
theorem novaLiteJournalSoftInit_atomic {s₀ : JournalState} (hcsum : env.metadataCsum = false)
    (hinit : JournalInit env s₀) (hrun : Runs (JournalStep env) s₀ s) :
    ∃ m, novaLiteJournalSoftInit env true s.mem = some (.ok m) ∧ Recovered env s m :=
  (JournalInv.runs hcsum hinit hrun).recovered

end

/-- One CPU whose pointers meet at the last place of its page. -/
def lastPlaceEnv : JournalEnv where
  metadataCsum := false
  cpus := 1
  novaCrc32c := fun type data1 data2 padding => type + data1 + data2 + padding

def lastPlaceState : JournalState where
  mem := ⟨fun _ => ⟨0, 0, 0, 0, 0⟩, fun a => a, fun _ => ⟨0x2fe0, 0x2fe0⟩⟩
  trans := fun _ => none

/-- What creating an inode at 0x4000 in a directory at 0x5000 journals: two entries, the
second one at the start of the page. -/
def wrapStores : List JournalStore := storesFrom 0x2fe0 [0x4000, 0x5048] ++ [.tail 0 0x2020]

/-- The inode is made valid, the machine stops, and the word is restored. -/
theorem novaLiteJournalSoftInit_atomic_wrap : ∃ s m, Runs (JournalStep lastPlaceEnv) lastPlaceState s ∧
    s.mem.words 0x4000 = 1 ∧ novaLiteJournalSoftInit lastPlaceEnv true s.mem = some (.ok m) ∧
    m.words 0x4000 = 0x4000 := by
  let tr : JournalTrans := ⟨wrapStores, 0x2020, [0x4000, 0x5048], fun a => a⟩
  have hcreate : JournalStep lastPlaceEnv lastPlaceState
      (.create 0 (.create ⟨some 0x4000, 0x4000, 0⟩ ⟨some 0x5000, 0x5000, 0⟩ true false))
      (lastPlaceState.set lastPlaceState.mem 0 (some tr)) :=
    JournalStep.create (b := ⟨wrapStores, 0x2020⟩) (by decide) rfl rfl (fun _ _ h => by cases h)
  have hstores : Runs (JournalStep lastPlaceEnv) _ _ := JournalStep.runs_stores wrapStores []
    (lastPlaceState.set_trans_self lastPlaceState.mem 0 (some tr)) (List.append_nil _).symm
  have hopen := JournalState.set_trans_self (lastPlaceState.set lastPlaceState.mem 0 (some tr))
    (wrapStores.foldl (JournalStore.apply lastPlaceEnv)
      (lastPlaceState.set lastPlaceState.mem 0 (some tr)).mem) 0 (some { tr with rest := [] })
  have hrun := Runs.tail ((Runs.single hcreate).trans hstores)
    (JournalStep.write (v := 1) hopen rfl (by decide : 0x4000 ∈ [0x4000, 0x5048]))
  obtain ⟨m, hm, hrec⟩ := novaLiteJournalSoftInit_atomic rfl
    ⟨fun _ => rfl, fun _ _ => rfl, by decide, by decide⟩ hrun
  exact ⟨_, m, hrun, rfl, hm, hrec.restored 0 _ ⟨hopen, rfl⟩ 0x4000 (by decide)⟩

end Parfs
