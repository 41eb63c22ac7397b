/-
Scans of a log find what was appended.

`LogRun` is a log together with the entries appended to it: those whose tail was committed
and those of the operation that is going on.  `LogInv` says how the bytes follow that list:
every entry stands where it was put, and a page that was left is marked as left.  From it
the rebuild loop is computed entry by entry.  It never looks at the tail, so the bytes there
do not matter to it.

The recovery loop does look at the tail.  It ends there exactly when the tail does not send
it on to the next page and the byte at the tail is no type of an entry.
-/
import Mathlib.Data.List.Induction
import Parfs.LogScan
import Parfs.Proofs.LogAppend

namespace Parfs

open Lib ByteMem

structure LogRun where
  log : LogState
  /-- of the operation that is going on, all zero at its start -/
  update : LogUpdate
  /-- the addresses of the appends that were committed, and what they appended -/
  entries : List (Nat × NovaLogEntryInfo)
  /-- those since -/
  pending : List (Nat × NovaLogEntryInfo)

/-- `nova_inode_update` at the start of an operation -/
def LogUpdate.init : LogUpdate := ⟨0, 0, 0, 0⟩

inductive LogAct where
  | append (e : NovaLogEntryInfo)
  | commit
  /-- the operation gives up -/
  | abort

/-- The steps of operations on a log. -/
inductive LogStep (env : LogEnv) (kind : LogKind) : LogRun → LogAct → LogRun → Prop
  | append {r : LogRun} {e : NovaLogEntryInfo} {s : LogState} {u : LogUpdate} (he : e.Ok)
      (hkind : kind.handles e.type = true)
      (h : novaAppendLogEntry env r.log e r.update = .ok (s, .ok u)) :
      LogStep env kind r (.append e) ⟨s, u, r.entries, r.pending ++ [(u.currEntry, e)]⟩
  | refuse {r : LogRun} {e : NovaLogEntryInfo} {s : LogState} {err : Errno} (he : e.Ok)
      (hkind : kind.handles e.type = true)
      (h : novaAppendLogEntry env r.log e r.update = .ok (s, .error err)) :
      LogStep env kind r (.append e) ⟨s, LogUpdate.init, r.entries, []⟩
  | commit {r : LogRun} (h : r.pending ≠ []) :
      LogStep env kind r .commit
        ⟨novaUpdateInode r.log r.update, LogUpdate.init, r.entries ++ r.pending, []⟩
  | abort {r : LogRun} : LogStep env kind r .abort ⟨r.log, LogUpdate.init, r.entries, []⟩

/-- No log yet; the memory is arbitrary, and so is what the allocator is going to grant. -/
structure LogInit (r : LogRun) : Prop where
  entries : r.entries = []
  pending : r.pending = []
  update : r.update = LogUpdate.init
  head : r.log.sih.logHead = 0
  tail : r.log.sih.logTail = 0
  alterHead : r.log.sih.alterLogHead = 0
  alterTail : r.log.sih.alterLogTail = 0
  fresh : Fresh [] r.log.grants

/-- Where the next append starts. -/
def LogRun.tail (r : LogRun) : Nat := if r.update.tail ≠ 0 then r.update.tail else r.log.sih.logTail

/-- Where the next append to the replica's log starts. -/
def LogRun.alterTail (r : LogRun) : Nat :=
  if r.update.alterTail ≠ 0 then r.update.alterTail else r.log.sih.alterLogTail

/-- The entry's bytes. -/
def EntryAt (m : ByteMem) (p : Nat) (e : NovaLogEntryInfo) : Prop := m.read p e.size = e.padded

/-- The entries stand in their places, and the pages that were left are marked. -/
abbrev Written (m : ByteMem) (pages : List Nat) (es : List (Nat × NovaLogEntryInfo)) (k l : Nat) :
    Prop := Laid (EntryAt m) (fun t => gotoNextPage m t = true) pages es k l

/-- The tail is at place `l` of page number `k`, the committed tail at place `l₀` of page
number `k₀`. -/
structure LogInv (env : LogEnv) (kind : LogKind) (r : LogRun) (pages apages : List Nat)
    (k l k₀ l₀ : Nat) : Prop where
  chains : Chains env r.log pages apages
  tail : TailAt pages r.tail k l
  committed : TailAt pages r.log.sih.logTail k₀ l₀
  alterTail : env.metadataCsum = true → TailAt apages r.alterTail k l
  alterCommitted : env.metadataCsum = true → TailAt apages r.log.sih.alterLogTail k₀ l₀
  order : k₀ < k ∨ (k₀ = k ∧ l₀ ≤ l)
  written : Written r.log.mem pages (r.entries ++ r.pending) k l
  writtenCommitted : Written r.log.mem pages r.entries k₀ l₀
  ok : ∀ e ∈ r.entries ++ r.pending, e.2.Ok ∧ kind.handles e.2.type = true
  carry : r.pending ≠ [] → r.update.tail ≠ 0 ∧ (env.metadataCsum = true → r.update.alterTail ≠ 0)
  empty : pages = [] → r.entries ++ r.pending = []

section

variable {env : LogEnv} {kind : LogKind} {r r' : LogRun} {act : LogAct} {pages apages : List Nat}
  {k l k₀ l₀ : Nat} {m m' : ByteMem} {e : NovaLogEntryInfo}

theorem LogInv.init (h : LogInit r) : LogInv env kind r [] [] 0 0 0 0 := by
  have hat : TailAt [] 0 0 0 := ⟨rfl, by omega, fun hne => absurd rfl hne, fun _ => ⟨rfl, rfl⟩⟩
  have htail : r.tail = 0 := by simp [LogRun.tail, h.update, LogUpdate.init, h.tail]
  have halter : r.alterTail = 0 := by simp [LogRun.alterTail, h.update, LogUpdate.init, h.alterTail]
  refine ⟨⟨h.fresh, by simp, trivial, h.head, fun _ => ⟨trivial, h.alterHead⟩, fun _ => rfl, le_refl _⟩,
    htail ▸ hat, h.tail ▸ hat, fun _ => halter ▸ hat, fun _ => h.alterTail ▸ hat,
    Or.inr ⟨rfl, le_refl 0⟩, ?_, ?_, ?_, fun hne => absurd h.pending hne, fun _ => ?_⟩ <;>
  rw [h.entries]
  · rw [h.pending]
    exact Laid.nil
  · exact Laid.nil
  · rw [h.pending]
    simp
  · rw [h.pending]
    rfl

/-- What was laid out stays as long as the bytes in front of place `l` of page `k` do. -/
theorem Written.frame {es : List (Nat × NovaLogEntryInfo)} (h : Written m pages es k l)
    (hsame : ∀ i o, i ≤ k → o < 4064 → (i = k → o < l) →
      m' (pages.getD i 0 + o) = m (pages.getD i 0 + o))
    (hpages : ∀ i ≤ k, pages.getD i 0 % 4096 = 0) : Written m' pages es k l := by
  refine h.imp ?_ ?_
  · intro i o e hi ho hik hent
    have hread : m'.read (pages.getD i 0 + o) e.size = m.read (pages.getD i 0 + o) e.size := by
      refine read_congr fun x h1 h2 => ?_
      obtain ⟨j, rfl⟩ : ∃ j, x = pages.getD i 0 + (o + j) := ⟨x - (pages.getD i 0 + o), by omega⟩
      refine hsame i (o + j) hi (by omega) fun hk => ?_
      have := hik hk
      omega
    exact hread.trans hent
  · intro i o hi ho hleft
    have halign := hpages i (Nat.le_of_lt hi)
    rw [gotoNextPage_congr fun hlt => ?_]
    · exact hleft
    · refine hsame i o (Nat.le_of_lt hi) (by omega) fun hk => ?_
      omega

/-- The bytes in front of the tail, after an append that found its head at `curr`. -/
theorem Appended.kept {s s₁ s' : LogState} {curr ta t : Nat} {qs as : List Nat} {u : LogUpdate}
    {res : Except Errno LogUpdate} (ht : TailAt pages t k l)
    (hok : HeadOk env s s₁ curr pages qs apages as t k l e.size)
    (hta : env.metadataCsum = true → TailAt (apages ++ as) ta k l) (he : e.Ok)
    (happ : Appended env s₁ curr e u (apages ++ as) ta k l s' res) (hne : pages ≠ []) {i o : Nat}
    (hi : i ≤ k) (ho : o < 4064) (hik : i = k → o < l) :
    s'.mem (pages.getD i 0 + o) = s.mem (pages.getD i 0 + o) := by
  have hlt := ht.page hne
  have hilt : i < pages.length := by omega
  have hpages : ∀ p ∈ pages ++ qs, p % 4096 = 0 :=
    fun p hp => (hok.chains.isPage p (List.mem_append_left _ hp)).1
  have hmem : pages.getD i 0 ∈ pages := getD_mem hilt
  have halign := hpages _ (List.mem_append_left _ hmem)
  have hnodup : (pages ++ qs).Nodup :=
    (List.nodup_append.mp (List.nodup_append.mp hok.chains.fresh.nodup).1).1
  -- finding the head leaves them alone
  have hhead : s₁.mem (pages.getD i 0 + o) = s.mem (pages.getD i 0 + o) := by
    refine hok.frame.body _ (by omega) ?_
    have htail := ht.tail
    rw [if_neg hne] at htail
    rw [htail]
    have hplace := ht.place
    by_cases hk : i = k
    · have := hik hk
      rw [hk]
      omega
    · exact page_sep (List.nodup_append.mp hnodup).1 (fun p hp => hpages p (List.mem_append_left _ hp))
        hilt hlt hk (by omega) (by omega)
  by_cases h0 : curr = 0
  · have hs : s' = s₁ := by
      cases happ with
      | full => rfl
      | half hz => exact absurd h0 hz
      | single hz => exact absurd h0 hz
      | twin hz => exact absurd h0 hz
    rw [hs]
    exact hhead
  · obtain ⟨⟨k', l', hat⟩, -⟩ := hok.found h0
    rw [happ.onMain he h0 hok.chains hta (List.mem_append_left _ hmem) (by omega) (by omega), ← hhead]
    exact appendMem_body he (by omega)
      (hat.apart hnodup hpages hilt (by omega) (hat.before hne hi hik))

/-- The pages up to the tail's are pages. -/
theorem Chains.alignedUpTo {s : LogState} {t : Nat} (hc : Chains env s pages apages)
    (ht : TailAt pages t k l) (hne : pages ≠ []) : ∀ i ≤ k, pages.getD i 0 % 4096 = 0 := by
  intro i hi
  have := ht.page hne
  exact (hc.isPage _ (List.mem_append_left _ (getD_mem (by omega)))).1

/-- Where the pages of the replica's log stand when the log needs another one. -/
theorem LogInv.twinPages (h : LogInv env kind r pages apages k l k₀ l₀) {size : Nat} (hsize : size ≤ 4064)
    (hcsum : env.metadataCsum = true) (hlast : l + size > 4064) (hk : k + 1 = pages.length) :
    k + 1 = apages.length ∧ k₀ < apages.length ∧ blockOff r.log.sih.alterLogTail = apages.getD k₀ 0 := by
  have hne : apages ≠ [] := by
    intro hnil
    obtain ⟨-, hl⟩ := (h.alterTail hcsum).start hnil
    omega
  have hlt := (h.alterTail hcsum).page hne
  have hshort := h.chains.short
  obtain ⟨-, -, hblock, -⟩ := (h.alterCommitted hcsum).facts hne fun p hp =>
    h.chains.isPage p (List.mem_append_right _ hp)
  exact ⟨by omega, (h.alterCommitted hcsum).page hne, hblock⟩

/-- What one append does to a log that is in order, fault or not. -/
theorem LogInv.appendRan (h : LogInv env kind r pages apages k l k₀ l₀) (he : e.Ok) :
    AppendRan env r.log e r.update pages apages r.tail k l
      (novaAppendLogEntry env r.log e r.update) := by
  have hsize := he.size_bounds
  exact novaAppendLogEntry_ran h.chains rfl h.tail h.alterTail
    (fun hcsum hlast hk => h.twinPages (by omega) hcsum hlast hk) he

theorem LogInv.appendOutcome (h : LogInv env kind r pages apages k l k₀ l₀) (he : e.Ok) :
    AppendOutcome env r.log e r.update pages apages r.tail k l
      (novaAppendLogEntry env r.log e r.update) := by
  have hsize := he.size_bounds
  exact novaAppendLogEntry_spec h.chains rfl h.tail h.alterTail
    (fun hcsum hlast hk => h.twinPages (by omega) hcsum hlast hk) he

/-- What one append does to a log that is in order. -/
theorem LogInv.appendSpec (h : LogInv env kind r pages apages k l k₀ l₀) (he : e.Ok) {s' : LogState}
    {res : Except Errno LogUpdate} (happ : novaAppendLogEntry env r.log e r.update = .ok (s', res)) :
    ∃ s₁ curr qs as ta, HeadOk env r.log s₁ curr pages qs apages as r.tail k l e.size ∧
      (env.metadataCsum = true → TailAt (apages ++ as) ta k l) ∧
      Appended env s₁ curr e r.update (apages ++ as) ta k l s' res := by
  have hout := h.appendOutcome he
  rw [happ] at hout
  exact hout

section Append

variable {s₁ s' : LogState} {curr ta k' l' : Nat} {qs as : List Nat} {u u' : LogUpdate}
  {res : Except Errno LogUpdate}

/-- An append finds room in its page. -/
theorem HeadOk.fit {s : LogState} {t : Nat} (hok : HeadOk env s s₁ curr pages qs apages as t k l e.size)
    (he : e.Ok) (h0 : curr ≠ 0) : curr % 4096 + e.size ≤ 4064 := by
  have hsize := he.size_bounds
  obtain ⟨⟨k', l', hat⟩, -⟩ := hok.found h0
  rw [(hat.loc (fun p hp => (hok.chains.isPage p (List.mem_append_left _ hp)).1) (by omega)).1]
  exact hat.fit

/-- Entries in front of the tail stay where they are. -/
theorem LogInv.kept (h : LogInv env kind r pages apages k l k₀ l₀) (he : e.Ok)
    (hok : HeadOk env r.log s₁ curr pages qs apages as r.tail k l e.size)
    (hta : env.metadataCsum = true → TailAt (apages ++ as) ta k l)
    (hres : Appended env s₁ curr e u (apages ++ as) ta k l s' res) {es : List (Nat × NovaLogEntryInfo)}
    {k₁ l₁ : Nat} (hle : k₁ < k ∨ (k₁ = k ∧ l₁ ≤ l)) (hempty : pages = [] → es = [])
    (hes : Written r.log.mem pages es k₁ l₁) : Written s'.mem pages es k₁ l₁ := by
  by_cases hne : pages = []
  · have hnil := hempty hne
    obtain ⟨rfl, rfl⟩ := hes.nil_pages hnil
    rw [hnil]
    exact Laid.nil
  · refine hes.frame (fun i o hi ho hik => ?_) fun i hi =>
      h.chains.alignedUpTo h.tail hne i (by omega)
    refine hres.kept h.tail hok hta he hne (by omega) ho fun hk => ?_
    rcases hle with hlt | ⟨rfl, hle⟩
    · omega
    · have := hik hk
      omega

/-- So do the committed ones, in the longer chain. -/
theorem LogInv.keptCommitted (h : LogInv env kind r pages apages k l k₀ l₀) (he : e.Ok)
    (hok : HeadOk env r.log s₁ curr pages qs apages as r.tail k l e.size)
    (hta : env.metadataCsum = true → TailAt (apages ++ as) ta k l)
    (hres : Appended env s₁ curr e u (apages ++ as) ta k l s' res) :
    Written s'.mem (pages ++ qs) r.entries k₀ l₀ := by
  have hentries : pages = [] → r.entries = [] := fun hnil => (List.append_eq_nil_iff.mp (h.empty hnil)).1
  have hold := h.kept he hok hta hres h.order hentries h.writtenCommitted
  by_cases hne : pages = []
  · have hnil := hentries hne
    obtain ⟨rfl, rfl⟩ := h.writtenCommitted.nil_pages hnil
    rw [hnil]
    exact Laid.nil
  · exact hold.extend hne

/-- The update a successful append leaves. -/
theorem Appended.update (hres : Appended env s₁ curr e u (apages ++ as) ta k l s' (.ok u'))
    (hat : HeadAt s₁.mem curr pages qs k l e.size k' l') (hstart : pages = [] → k = 0 ∧ l = 0) (he : e.Ok) :
    u'.currEntry = curr ∧ u'.tail = curr + e.size ∧ (env.metadataCsum = true →
      u'.alterTail ≠ 0 ∧ TailAt (apages ++ as) u'.alterTail k' (l' + e.size)) := by
  have hsize := he.size_bounds
  cases hres with
  | single _ hcsum => exact ⟨rfl, rfl, fun hne => absurd hne (by simp [hcsum])⟩
  | twin _ _ _ hat' =>
      obtain ⟨rfl, rfl⟩ := hat.same hat' hstart (by omega)
      have htail := hat'.tailAt
      rw [List.append_nil] at htail
      refine ⟨rfl, rfl, fun _ => ⟨?_, htail⟩⟩
      show _ + e.size ≠ 0
      omega

/-- An append that succeeds found a place. -/
theorem Appended.ne_zero (hres : Appended env s₁ curr e u (apages ++ as) ta k l s' (.ok u')) : curr ≠ 0 := by
  intro h0
  cases hres with
  | single hz => exact hz h0
  | twin hz => exact hz h0

/-- **A successful append keeps the invariant.** -/
theorem LogInv.append (h : LogInv env kind r pages apages k l k₀ l₀) (he : e.Ok)
    (hkind : kind.handles e.type = true)
    (hok : HeadOk env r.log s₁ curr pages qs apages as r.tail k l e.size)
    (hta : env.metadataCsum = true → TailAt (apages ++ as) ta k l)
    (hres : Appended env s₁ curr e u (apages ++ as) ta k l s' (.ok u'))
    (hat : HeadAt s₁.mem curr pages qs k l e.size k' l') :
    LogInv env kind ⟨s', u', r.entries, r.pending ++ [(u'.currEntry, e)]⟩ (pages ++ qs) (apages ++ as)
      k' (l' + e.size) k₀ l₀ := by
  have hsize := he.size_bounds
  have h0 := hres.ne_zero
  have halign : ∀ p ∈ pages ++ qs, p % 4096 = 0 :=
    fun p hp => (hok.chains.isPage p (List.mem_append_left _ hp)).1
  have hfit := hok.fit he h0
  have hpage : pages ++ qs ≠ [] := by
    intro hnil
    have := hat.page
    rw [hnil] at this
    cases this
  obtain ⟨hsih, -⟩ := hres.sih
  obtain ⟨hcurr, hutail, halter⟩ := hres.update hat h.tail.start he
  refine ⟨hok.chains.appended hres he fun _ => hfit, ?_, ?_, ?_, ?_, ?_, ?_,
    h.keptCommitted he hok hta hres, ?_, ?_, fun hnil => absurd hnil hpage⟩
  · have htail : (LogRun.tail ⟨s', u', r.entries, r.pending ++ [(u'.currEntry, e)]⟩) = curr + e.size := by
      unfold LogRun.tail
      rw [if_pos (by rw [hutail]; omega)]
      exact hutail
    rw [htail]
    exact hat.tailAt
  · show TailAt _ s'.sih.logTail k₀ l₀
    rw [hsih]
    exact hok.tail _ _ h.committed
  · intro hcsum
    obtain ⟨hne, htail⟩ := halter hcsum
    have heq : (LogRun.alterTail ⟨s', u', r.entries, r.pending ++ [(u'.currEntry, e)]⟩) = u'.alterTail :=
      if_pos hne
    rw [heq]
    exact htail
  · intro hcsum
    show TailAt _ s'.sih.alterLogTail k₀ l₀
    rw [hsih]
    exact hok.alterTail hcsum _ _ (h.alterCommitted hcsum)
  · have horder := h.order
    rcases hat.move with ⟨-, rfl, rfl⟩ | ⟨hnil, rfl, rfl⟩ | ⟨-, rfl, rfl, -⟩
    · omega
    · obtain ⟨rfl, rfl⟩ := h.tail.start hnil
      omega
    · omega
  · show Written s'.mem (pages ++ qs) (r.entries ++ (r.pending ++ [(u'.currEntry, e)])) k' (l' + e.size)
    rw [← List.append_assoc, hcurr]
    refine Laid.append (h.kept he hok hta hres (Or.inr ⟨rfl, le_refl l⟩) h.empty h.written) hat
      h.empty h.tail.page ?_ ?_
    · -- the marker is not overwritten
      intro hne hk hgoto
      have hmem := getD_mem (h.tail.page hne)
      have hka := halign _ (List.mem_append_left _ hmem)
      have hplace := h.tail.place
      rw [gotoNextPage_congr fun hmod => ?_]
      · exact hgoto
      · rw [hres.onMain he h0 hok.chains hta (List.mem_append_left _ hmem) (by omega) (by omega)]
        refine appendMem_body he hmod (hat.apart ?_ halign (h.tail.page hne) hplace (by omega))
        exact (List.nodup_append.mp (List.nodup_append.mp hok.chains.fresh.nodup).1).1
    · have hread : s'.mem.read curr e.size = (appendMem s₁.mem curr e).read curr e.size := by
        have hc := hat.curr
        have hl := hat.fit
        have hka := halign _ (getD_mem hat.page)
        exact read_congr fun x h1 h2 =>
          hres.onMain he h0 hok.chains hta (getD_mem hat.page) (by omega) (by omega)
      exact hread.trans (read_appendMem he hfit)
  · intro x hx
    have hx' : x ∈ r.entries ++ r.pending ++ [(u'.currEntry, e)] := by
      rw [List.append_assoc]
      exact hx
    rcases List.mem_append.mp hx' with hx | hx
    · exact h.ok x hx
    · rw [List.mem_singleton.mp hx]
      exact ⟨he, hkind⟩
  · intro _
    refine ⟨?_, fun hcsum => (halter hcsum).1⟩
    show u'.tail ≠ 0
    rw [hutail]
    omega

/-- **A refused append keeps the invariant**, and the operation starts over. -/
theorem LogInv.refuse (h : LogInv env kind r pages apages k l k₀ l₀) (he : e.Ok)
    (hok : HeadOk env r.log s₁ curr pages qs apages as r.tail k l e.size)
    (hta : env.metadataCsum = true → TailAt (apages ++ as) ta k l)
    (hres : Appended env s₁ curr e u (apages ++ as) ta k l s' res) :
    LogInv env kind ⟨s', LogUpdate.init, r.entries, []⟩ (pages ++ qs) (apages ++ as) k₀ l₀ k₀ l₀ := by
  obtain ⟨hsih, -⟩ := hres.sih
  have hcommitted := h.keptCommitted he hok hta hres
  have htail : TailAt (pages ++ qs) s'.sih.logTail k₀ l₀ := by
    rw [hsih]
    exact hok.tail _ _ h.committed
  have halter : env.metadataCsum = true → TailAt (apages ++ as) s'.sih.alterLogTail k₀ l₀ := by
    intro hcsum
    rw [hsih]
    exact hok.alterTail hcsum _ _ (h.alterCommitted hcsum)
  refine ⟨hok.chains.appended hres he fun h0 => hok.fit he h0, htail, htail, halter, halter,
    Or.inr ⟨rfl, le_refl l₀⟩, ?_, hcommitted, ?_, fun hne => absurd rfl hne, ?_⟩
  · rw [List.append_nil]
    exact hcommitted
  · intro x hx
    rw [List.append_nil] at hx
    exact h.ok x (List.mem_append_left _ hx)
  · intro hnil
    rw [List.append_nil]
    exact (List.append_eq_nil_iff.mp (h.empty (List.append_eq_nil_iff.mp hnil).1)).1

end Append

theorem LogInv.commit (h : LogInv env kind r pages apages k l k₀ l₀) (hne : r.pending ≠ []) :
    LogInv env kind ⟨novaUpdateInode r.log r.update, LogUpdate.init, r.entries ++ r.pending, []⟩
      pages apages k l k l := by
  obtain ⟨hu, hua⟩ := h.carry hne
  have htail : TailAt pages r.update.tail k l := by
    have := h.tail
    rwa [LogRun.tail, if_pos hu] at this
  have halter : env.metadataCsum = true → TailAt apages r.update.alterTail k l := by
    intro hcsum
    have := h.alterTail hcsum
    rwa [LogRun.alterTail, if_pos (hua hcsum)] at this
  refine ⟨⟨h.chains.fresh, h.chains.isPage, h.chains.linked, h.chains.head, h.chains.twin, h.chains.noTwin,
    h.chains.short⟩, htail, htail, halter, halter, Or.inr ⟨rfl, le_refl l⟩, ?_, h.written, ?_,
    fun hne => absurd rfl hne, ?_⟩
  · rw [List.append_nil]
    exact h.written
  · rw [List.append_nil]
    exact h.ok
  · rw [List.append_nil]
    exact h.empty

theorem LogInv.abort (h : LogInv env kind r pages apages k l k₀ l₀) :
    LogInv env kind ⟨r.log, LogUpdate.init, r.entries, []⟩ pages apages k₀ l₀ k₀ l₀ := by
  refine ⟨h.chains, h.committed, h.committed, h.alterCommitted, h.alterCommitted,
    Or.inr ⟨rfl, le_refl l₀⟩, ?_, h.writtenCommitted, ?_, fun hne => absurd rfl hne, fun hnil => ?_⟩
  · rw [List.append_nil]
    exact h.writtenCommitted
  · intro x hx
    rw [List.append_nil] at hx
    exact h.ok x (List.mem_append_left _ hx)
  · rw [List.append_nil]
    exact (List.append_eq_nil_iff.mp (h.empty hnil)).1

/-- **The invariant is kept by every step.** -/
theorem LogInv.step (h : LogInv env kind r pages apages k l k₀ l₀) (hstep : LogStep env kind r act r') :
    ∃ pages' apages' k' l' k₀' l₀', LogInv env kind r' pages' apages' k' l' k₀' l₀' := by
  cases hstep with
  | append he hkind happ =>
      obtain ⟨s₁, curr, qs, as, ta, hok, hta, hres⟩ := h.appendSpec he happ
      obtain ⟨⟨k', l', hat⟩, -⟩ := hok.found hres.ne_zero
      exact ⟨_, _, _, _, _, _, h.append he hkind hok hta hres hat⟩
  | refuse he hkind happ =>
      obtain ⟨s₁, curr, qs, as, ta, hok, hta, hres⟩ := h.appendSpec he happ
      exact ⟨_, _, _, _, _, _, h.refuse he hok hta hres⟩
  | commit hne => exact ⟨_, _, _, _, _, _, h.commit hne⟩
  | abort => exact ⟨_, _, _, _, _, _, h.abort⟩

/-- **It holds in every state of a run.** -/
theorem LogInv.runs {r₀ : LogRun} (h0 : LogInit r₀) (hrun : Runs (LogStep env kind) r₀ r) :
    ∃ pages apages k l k₀ l₀, LogInv env kind r pages apages k l k₀ l₀ := by
  have hkeep : ∀ s a t, (∃ pages apages k l k₀ l₀, LogInv env kind s pages apages k l k₀ l₀) →
      LogStep env kind s a t → ∃ pages apages k l k₀ l₀, LogInv env kind t pages apages k l k₀ l₀ := by
    rintro s a t ⟨pages, apages, k, l, k₀, l₀, h⟩ hstep
    exact h.step hstep
  exact hrun.invariant hkeep ⟨[], [], 0, 0, 0, 0, LogInv.init h0⟩

/-! ### Entry by entry -/

/-- The first byte of an entry is its type. -/
theorem EntryAt.type {p : Nat} (h : EntryAt m p e) (he : e.Ok) : novaGetEntryType m p = e.type.code := by
  have hsize := he.size_bounds
  obtain ⟨bs, hbs⟩ := padded_head (e := e)
  have hword := word_of_read (k := 1) (o := 0) (by omega) (h.trans hbs)
  rw [Nat.add_zero, List.drop_zero, List.take_append_of_le_length (by rw [leBytes_length]),
    List.take_of_length_le (by rw [leBytes_length]), leValue_leBytes] at hword
  have hcode : e.type.code % 256 ^ 1 = e.type.code := by cases e <;> rfl
  rw [hcode] at hword
  simpa [ByteMem.word, ByteMem.read, leValue, novaGetEntryType] using hword

/-- A dentry's length stands in it. -/
theorem EntryAt.deLen {p : Nat} {d : NovaDentry} (h : EntryAt m p (.dirLog d)) (he : (NovaLogEntryInfo.dirLog d).Ok) :
    m.word (p + NovaDentry.deLenAt) 2 = d.deLen := by
  have hsize : 40 ≤ d.deLen ∧ d.deLen ≤ 304 := he.size_bounds
  have hsplit : (NovaLogEntryInfo.dirLog d).padded =
      (leBytes 1 NovaEntryType.dirLog.code ++ leBytes 1 d.name.length ++ leBytes 1 0 ++ leBytes 1 0) ++
        (leBytes 2 d.deLen ++ (leBytes 2 d.linksCount ++ leBytes 4 d.mtime ++ leBytes 4 0 ++
          leBytes 8 d.ino ++ leBytes 8 0 ++ leBytes 8 d.epochId ++ leBytes 8 d.transId ++ d.name ++
          leBytes 1 0 ++ List.replicate (d.deLen - d.bytes.length) 0)) := by
    simp only [NovaLogEntryInfo.padded, NovaLogEntryInfo.bytes, NovaLogEntryInfo.size, NovaDentry.bytes,
      List.append_assoc]
  have hword := word_field (h.trans hsplit)
  rw [Nat.mod_eq_of_lt (by omega)] at hword
  exact hword

/-- An entry sends no loop on to the next page. -/
theorem EntryAt.stays {p : Nat} (h : EntryAt m p e) (he : e.Ok) (hfit : p % 4096 + e.size ≤ 4064) :
    gotoNextPage m p = false := by
  have hsize := he.size_bounds
  have hloc : ¬entryLoc p + 32 > logBlockTail := by
    unfold entryLoc logBlockTail
    omega
  have hne : e.type.code ≠ NovaEntryType.nextPage.code := by
    cases e <;> simp [NovaLogEntryInfo.type, NovaEntryType.code]
  unfold gotoNextPage
  simp [hloc, h.type he, hne]

/-- At an entry the loops take it and go on behind it. -/
theorem EntryAt.scan {p : Nat} (h : EntryAt m p e) (he : e.Ok) (hkind : kind.handles e.type = true)
    (hfit : p % 4096 + e.size ≤ 4064) : scanFrom m p = p ∧ scanEntrySize m p kind = some e.size := by
  have hsize := he.size_bounds
  have htype := h.type he
  refine ⟨by simp [scanFrom, h.stays he hfit], ?_⟩
  cases e with
  | dirLog d =>
      cases kind with
      | file => cases hkind
      | dir =>
          have hlen := h.deLen he
          simp only [scanEntrySize, htype, NovaLogEntryInfo.type, NovaEntryType.code, hlen]
          rfl
  | snapshotInfo => cases kind <;> cases hkind
  | fileWrite =>
      cases kind with
      | file =>
          simp only [scanEntrySize, htype, NovaLogEntryInfo.type, NovaEntryType.code]
          rfl
      | dir => cases hkind
  | mmapWrite =>
      cases kind with
      | file =>
          simp only [scanEntrySize, htype, NovaLogEntryInfo.type, NovaEntryType.code]
          rfl
      | dir => cases hkind
  | setAttr =>
      cases kind <;>
      · simp only [scanEntrySize, htype, NovaLogEntryInfo.type, NovaEntryType.code]
        rfl
  | linkChange =>
      cases kind <;>
      · simp only [scanEntrySize, htype, NovaLogEntryInfo.type, NovaEntryType.code]
        rfl

/-- From a place that was left the loops go to the next page. -/
theorem scanFrom_left (hlink : LinkedTo m 0 pages) (hpages : ∀ p ∈ pages, IsPage p) {o : Nat}
    (hk : k + 1 < pages.length) (ho : o ≤ 4064) (hleft : gotoNextPage m (pages.getD k 0 + o) = true) :
    scanFrom m (pages.getD k 0 + o) = pages.getD (k + 1) 0 := by
  have hka := (hpages _ (getD_mem (by omega : k < pages.length))).1
  have hblock : blockOff (pages.getD k 0 + o) = pages.getD k 0 := by
    unfold blockOff
    omega
  rw [scanFrom, if_pos hleft]
  exact hlink.nextOfTail (by omega) hblock

/-- One step of a scan that stands in front of the last entry of what was laid out. -/
theorem Written.last {es : List (Nat × NovaLogEntryInfo)} {p k' l' : Nat} {P : Prop}
    (hlink : LinkedTo m 0 pages) (hpages : ∀ p ∈ pages, IsPage p)
    (h : Written m pages (es ++ [(p, e)]) k' l') (hk' : k' < pages.length)
    (he : e.Ok) (hkind : kind.handles e.type = true)
    (hstep : ∀ k l, Written m pages es k l → (k < k' ∨ (k = k' ∧ l < l')) →
      scanFrom m (pages.getD k 0 + l) = p → p ≠ 0 → scanEntrySize m p kind = some e.size →
      p + e.size = pages.getD k' 0 + l' → P) : P := by
  have hsize := he.size_bounds
  generalize hes : es ++ [(p, e)] = es' at h
  cases h with
  | nil => simp at hes
  | @here es₁ k l e₁ h hfit hent =>
      obtain ⟨rfl, heq⟩ := List.append_inj' hes rfl
      obtain ⟨rfl, rfl⟩ := Prod.mk.inj (List.singleton_inj.mp heq)
      obtain ⟨hka, hk0, -⟩ := hpages _ (getD_mem hk')
      obtain ⟨hfrom, hscan⟩ := hent.scan he hkind (by omega)
      exact hstep _ _ h (Or.inr ⟨rfl, by omega⟩) hfrom (by omega) hscan (by omega)
  | @next es₁ k l e₁ h hleft hk hfit hent =>
      obtain ⟨rfl, heq⟩ := List.append_inj' hes rfl
      obtain ⟨rfl, rfl⟩ := Prod.mk.inj (List.singleton_inj.mp heq)
      obtain ⟨hka, hk0, -⟩ := hpages _ (getD_mem hk')
      obtain ⟨-, hscan⟩ := hent.scan he hkind (by omega)
      exact hstep _ _ h (Or.inl (by omega)) (scanFrom_left hlink hpages hk h.place_le hleft) hk0 hscan rfl

/-- **The rebuild loop, up to any place behind the entries.** -/
theorem Written.rebuildLoop (hlink : LinkedTo m 0 pages) (hpages : ∀ p ∈ pages, IsPage p) {t : Nat}
    (es : List (Nat × NovaLogEntryInfo)) :
    ∀ {k l : Nat}, Written m pages es k l → (∀ e ∈ es, e.2.Ok ∧ kind.handles e.2.type = true) →
      (pages ≠ [] → k < pages.length) → pages ≠ [] →
      (∀ i o, o ≤ 4064 → (i < k ∨ (i = k ∧ o < l)) → pages.getD i 0 + o ≠ t) → ∀ fuel,
      novaRebuildInodeTreeLoop kind m t (es.length + fuel) (pages.getD 0 0) =
        (novaRebuildInodeTreeLoop kind m t fuel (pages.getD k 0 + l)).map fun visited =>
          es.map Prod.fst ++ visited := by
  induction es using List.reverseRecOn with
  | nil =>
      intro k l h _ _ _ _ fuel
      obtain ⟨rfl, rfl⟩ := h.nil_pages rfl
      rw [List.length_nil, Nat.zero_add, Nat.add_zero]
      cases novaRebuildInodeTreeLoop kind m t fuel (pages.getD 0 0) <;> rfl
  | append_singleton es x ih =>
      obtain ⟨p, e⟩ := x
      intro k' l' h hok hk hne ht fuel
      obtain ⟨he, hkind⟩ := hok (p, e) (by simp)
      refine h.last hlink hpages (hk hne) he hkind fun k l h' hlt hfrom hp0 hscan hend => ?_
      have hih := ih h' (fun x hx => hok x (List.mem_append_left _ hx)) h'.page_lt hne
        (fun i o ho hio => ht i o ho (by omega)) (fuel + 1)
      have hnot : pages.getD k 0 + l ≠ t := ht k l h'.place_le hlt
      rw [List.length_append, List.length_singleton, Nat.add_assoc, Nat.add_comm 1 fuel, hih,
        novaRebuildInodeTreeLoop, if_neg hnot]
      simp only [hfrom, hp0, if_false, hscan, hend]
      cases novaRebuildInodeTreeLoop kind m t fuel (pages.getD k' 0 + l') <;> simp [Except.map]

/-- **The recovery loop, up to the place behind the entries.** -/
theorem Written.traverseLoop (hlink : LinkedTo m 0 pages) (hpages : ∀ p ∈ pages, IsPage p)
    (es : List (Nat × NovaLogEntryInfo)) :
    ∀ {k l : Nat}, Written m pages es k l → (∀ e ∈ es, e.2.Ok ∧ LogKind.file.handles e.2.type = true) →
      (pages ≠ [] → k < pages.length) → pages ≠ [] → ∀ fuel,
      novaTraverseFileInodeLogLoop m (es.length + fuel) (pages.getD 0 0) =
        (novaTraverseFileInodeLogLoop m fuel (pages.getD k 0 + l)).map fun r =>
          (es.map Prod.fst ++ r.1, r.2) := by
  induction es using List.reverseRecOn with
  | nil =>
      intro k l h _ _ _ fuel
      obtain ⟨rfl, rfl⟩ := h.nil_pages rfl
      rw [List.length_nil, Nat.zero_add, Nat.add_zero]
      cases novaTraverseFileInodeLogLoop m fuel (pages.getD 0 0) <;> rfl
  | append_singleton es x ih =>
      obtain ⟨p, e⟩ := x
      intro k' l' h hok hk hne fuel
      obtain ⟨he, hkind⟩ := hok (p, e) (by simp)
      refine h.last hlink hpages (hk hne) he hkind fun k l h' hlt hfrom hp0 hscan hend => ?_
      have hih := ih h' (fun x hx => hok x (List.mem_append_left _ hx)) h'.page_lt hne (fuel + 1)
      rw [List.length_append, List.length_singleton, Nat.add_assoc, Nat.add_comm 1 fuel, hih,
        novaTraverseFileInodeLogLoop]
      simp only [hfrom, hp0, if_false, hscan, hend]
      cases novaTraverseFileInodeLogLoop m fuel (pages.getD k' 0 + l') <;> simp [Except.map]

/-- More steps do not change where the recovery loop ends. -/
theorem novaTraverseFileInodeLogLoop_mono :
    ∀ (fuel n p : Nat) (v : List Nat × Nat), novaTraverseFileInodeLogLoop m fuel p = .ok v →
      novaTraverseFileInodeLogLoop m (fuel + n) p = .ok v := by
  intro fuel
  induction fuel with
  | zero =>
      intro n p v h
      cases h
  | succ fuel ih =>
      intro n p v h
      rw [Nat.add_right_comm, novaTraverseFileInodeLogLoop]
      rw [novaTraverseFileInodeLogLoop] at h
      by_cases h0 : scanFrom m p = 0
      · simp [h0] at h
      · simp only [h0, if_false] at h ⊢
        cases hscan : scanEntrySize m (scanFrom m p) .file with
        | none =>
            rw [hscan] at h
            exact h
        | some size =>
            rw [hscan] at h
            simp only at h ⊢
            cases hrest : novaTraverseFileInodeLogLoop m fuel (scanFrom m p + size) with
            | error =>
                rw [hrest] at h
                cases h
            | ok w =>
                rw [hrest] at h
                rw [ih n _ w hrest]
                exact h

/-- The recovery loop takes no entry from here on, and stops here, exactly when neither the
place nor its byte sends it on. -/
theorem novaTraverseFileInodeLogLoop_stop {t : Nat} (ht : t ≠ 0) (hnext : nextLogPage m t ≠ t) :
    (∃ fuel, novaTraverseFileInodeLogLoop m fuel t = .ok ([], t)) ↔
      gotoNextPage m t = false ∧ scanEntrySize m t .file = none := by
  constructor
  · rintro ⟨fuel, h⟩
    cases fuel with
    | zero => cases h
    | succ fuel =>
        rw [novaTraverseFileInodeLogLoop] at h
        by_cases h0 : scanFrom m t = 0
        · simp [h0] at h
        simp only [h0, if_false] at h
        cases hscan : scanEntrySize m (scanFrom m t) .file with
        | some size =>
            rw [hscan] at h
            simp only at h
            cases hrest : novaTraverseFileInodeLogLoop m fuel (scanFrom m t + size) with
            | error =>
                rw [hrest] at h
                cases h
            | ok w =>
                rw [hrest] at h
                cases Except.ok.inj h
        | none =>
            rw [hscan] at h
            have hfrom : scanFrom m t = t := (Prod.mk.inj (Except.ok.inj h)).2
            have hgoto : gotoNextPage m t = false := by
              by_contra hgo
              rw [Bool.not_eq_false] at hgo
              rw [scanFrom, if_pos hgo] at hfrom
              exact hnext hfrom
            rw [hfrom] at hscan
            exact ⟨hgoto, hscan⟩
  · rintro ⟨hgoto, hscan⟩
    have hfrom : scanFrom m t = t := by simp [scanFrom, hgoto]
    refine ⟨1, ?_⟩
    rw [novaTraverseFileInodeLogLoop]
    simp [hfrom, ht, hscan]

/-- The recovery loop finds the end of a log exactly when the tail stops it. -/
theorem LogInv.traverse_iff (h : LogInv env .file r pages apages k l k₀ l₀)
    (hhead : r.log.sih.logHead ≠ 0) :
    (∃ fuel, novaTraverseFileInodeLogLoop r.log.mem fuel r.log.sih.logHead =
        .ok ((r.entries ++ r.pending).map Prod.fst, r.tail)) ↔
      gotoNextPage r.log.mem r.tail = false ∧ scanEntrySize r.log.mem r.tail .file = none := by
  have hne : pages ≠ [] := by
    rintro rfl
    exact hhead h.chains.head
  have hpages : ∀ p ∈ pages, IsPage p := fun p hp => h.chains.isPage p (List.mem_append_left _ hp)
  have hheadD : r.log.sih.logHead = pages.getD 0 0 := by
    rw [h.chains.head]
    cases pages <;> rfl
  obtain ⟨htail, ht0, hblock, -⟩ := h.tail.facts hne hpages
  have hk := h.tail.page hne
  have hplace := h.tail.place
  have hnodup : pages.Nodup := (List.nodup_append.mp (List.nodup_append.mp h.chains.fresh.nodup).1).1
  have hnext : nextLogPage r.log.mem r.tail ≠ r.tail := by
    rw [h.chains.linked.nextOfTail hk hblock]
    by_cases hmore : k + 1 < pages.length
    · have hsep := page_sep hnodup (fun p hp => (hpages p hp).1) hmore hk (by omega : k + 1 ≠ k)
        (by omega : 0 < 4096) (by omega : l < 4096)
      omega
    · rw [List.getD_eq_default _ _ (by omega)]
      exact ht0.symm
  have hloop := h.written.traverseLoop h.chains.linked hpages _ h.ok h.tail.page hne
  rw [← hheadD, ← htail] at hloop
  rw [← novaTraverseFileInodeLogLoop_stop ht0 hnext]
  constructor
  · rintro ⟨fuel, hrun⟩
    have hmore := novaTraverseFileInodeLogLoop_mono fuel (r.entries ++ r.pending).length _ _ hrun
    rw [Nat.add_comm, hloop fuel] at hmore
    refine ⟨fuel, ?_⟩
    cases hrest : novaTraverseFileInodeLogLoop r.log.mem fuel r.tail with
    | error =>
        rw [hrest] at hmore
        cases hmore
    | ok v =>
        rw [hrest] at hmore
        obtain ⟨hv1, hv2⟩ := Prod.mk.inj (Except.ok.inj hmore)
        have hv1' : v.1 = [] := List.append_right_eq_self.mp hv1
        have hv2' : v.2 = r.tail := hv2
        rw [← hv1', ← hv2']
  · rintro ⟨fuel, hrun⟩
    refine ⟨(r.entries ++ r.pending).length + fuel, ?_⟩
    rw [hloop fuel, hrun]
    simp [Except.map]

end

/-! ### Logs of one page -/

section

variable {env : LogEnv} {kind : LogKind} {r r₀ : LogRun} {e : NovaLogEntryInfo}

/-- Without a replica an append ends without a fault. -/
theorem novaAppendLogEntry_single (hcsum : env.metadataCsum = false) (s : LogState) (u : LogUpdate) :
    ∃ v, novaAppendLogEntry env s e u = .ok v := by
  have hext : ∀ (s : LogState) (p : Nat), ∃ v, novaExtendInodeLog env s p = .ok v := by
    intro s p
    unfold novaExtendInodeLog
    by_cases hp : p = 0
    · simp only [hp, if_true, hcsum, Bool.false_eq_true, if_false]
      split <;> exact ⟨_, rfl⟩
    · simp only [hp, hcsum, Bool.false_eq_true, if_false]
      generalize (if s.sih.logPages ≥ extendThreshold then extendThreshold else s.sih.logPages) = num
      split <;> exact ⟨_, rfl⟩
  have hhead : ∃ v, novaGetAppendHead env s u.tail e.size .main = .ok v := by
    unfold novaGetAppendHead
    simp only [ne_eq, not_true_eq_false, if_false]
    generalize (if ¬u.tail = 0 then u.tail else s.sih.logTail) = p
    by_cases hcond : p = 0 ∨ isLastEntry p e.size = true ∧ nextLogPage s.mem p = 0
    · obtain ⟨v, hv⟩ := hext (if isLastEntry p e.size = true then
        { s with mem := novaSetNextPageFlag s.mem p } else s) p
      rw [if_pos hcond, hv]
      exact ⟨_, rfl⟩
    · rw [if_neg hcond]
      exact ⟨_, rfl⟩
  obtain ⟨v, hv⟩ := hhead
  unfold novaAppendLogEntry
  simp only [hv, Except.bind, hcsum, Bool.false_eq_true, if_false]
  split <;> exact ⟨_, rfl⟩

/-- An entry that fits behind the last one is put there. -/
theorem LogInv.append_fits {pages apages : List Nat} {k l k₀ l₀ : Nat} (hcsum : env.metadataCsum = false)
    (h : LogInv env kind r pages apages k l k₀ l₀) (ht : r.tail ≠ 0)
    (hfit : r.tail % 4096 + e.size ≤ 4064) (he : e.Ok) (hkind : kind.handles e.type = true) :
    ∃ r', LogStep env kind r (.append e) r' ∧ r'.tail = r.tail + e.size ∧ r'.log.sih = r.log.sih ∧
      r'.log.grants = r.log.grants := by
  have hne : pages ≠ [] := by
    intro hnil
    have htail := h.tail.tail
    rw [if_pos hnil] at htail
    exact ht htail
  have hloc : r.tail % 4096 = l := by
    have htail := h.tail.tail
    have hplace := h.tail.place
    have halign := h.chains.alignedUpTo h.tail hne k (le_refl k)
    rw [if_neg hne] at htail
    omega
  obtain ⟨⟨s', res⟩, happ⟩ := novaAppendLogEntry_single (e := e) hcsum r.log r.update
  obtain ⟨s₁, curr, qs, as, ta, hok, -, hres⟩ := h.appendSpec he happ
  obtain ⟨rfl, hsame, -, -⟩ := hok.fits hne (by omega)
  cases hres with
  | full h0 => exact absurd h0 ht
  | half _ hc => exact absurd hc (by simp [hcsum])
  | single =>
      have hsih : s₁.sih = r.log.sih := congrArg LogState.sih hsame
      have hgrants : s₁.grants = r.log.grants := congrArg LogState.grants hsame
      exact ⟨_, LogStep.append he hkind happ, if_pos (by show r.tail + e.size ≠ 0; omega), hsih, hgrants⟩
  | twin _ hc => exact absurd hc (by simp [hcsum])

/-- So are entries that all fit. -/
theorem LogInit.runs_fits (h0 : LogInit r₀) (hcsum : env.metadataCsum = false)
    (es : List NovaLogEntryInfo) : ∀ {r : LogRun}, Runs (LogStep env kind) r₀ r → r.tail ≠ 0 →
      r.tail % 4096 + (es.map NovaLogEntryInfo.size).sum ≤ 4064 →
      (∀ e ∈ es, e.Ok ∧ kind.handles e.type = true) →
      ∃ r', Runs (LogStep env kind) r₀ r' ∧ r'.tail = r.tail + (es.map NovaLogEntryInfo.size).sum ∧
        r'.log.sih = r.log.sih ∧ r'.log.grants = r.log.grants := by
  induction es with
  | nil =>
      intro r hrun _ _ _
      exact ⟨r, hrun, by simp, rfl, rfl⟩
  | cons e es ih =>
      intro r hrun ht hfit hok
      obtain ⟨he, hkind⟩ := hok e List.mem_cons_self
      rw [List.map_cons, List.sum_cons] at hfit ⊢
      obtain ⟨pages, apages, k, l, k₀, l₀, h⟩ := LogInv.runs h0 hrun
      obtain ⟨r₁, hstep, htail, hsih, hgrants⟩ := h.append_fits hcsum ht (by omega) he hkind
      obtain ⟨r', hrun', htail', hsih', hgrants'⟩ := ih (hrun.tail hstep) (by omega) (by omega)
        fun e he => hok e (List.mem_cons_of_mem _ he)
      exact ⟨r', hrun', by omega, hsih'.trans hsih, hgrants'.trans hgrants⟩

/-- A log that has no page yet, with one page to be had. -/
def LogRun.new (m : ByteMem) : LogRun := ⟨⟨m, ⟨0, 0, 0, 0, 0⟩, [some (1, 1)]⟩, LogUpdate.init, [], []⟩

theorem LogRun.new_init (m : ByteMem) : LogInit (LogRun.new m) := by
  refine ⟨rfl, rfl, rfl, rfl, rfl, rfl, rfl, ?_, ?_, ?_⟩
  · intro p hp
    obtain rfl : p = 4096 := by simpa [LogRun.new, grantPages, pagesFrom, logBlockOff] using hp
    exact ⟨by decide, by decide, by decide⟩
  · simp [LogRun.new, grantPages, pagesFrom]
  · intro g hg
    obtain rfl : g = (1, 1) := by simpa [LogRun.new] using hg
    decide

/-- The first entry gets the page. -/
theorem LogRun.first_append (env : LogEnv) (kind : LogKind) (e : NovaLogEntryInfo)
    (hcsum : env.metadataCsum = false) (m : ByteMem) (gs : Grants) (he : e.Ok)
    (hkind : kind.handles e.type = true) :
    ∃ s, LogStep env kind ⟨⟨m, ⟨0, 0, 0, 0, 0⟩, some (1, 1) :: gs⟩, LogUpdate.init, [], []⟩ (.append e)
        ⟨s, ⟨4096 + e.size, 0, 4096, 0⟩, [], [(4096, e)]⟩ ∧
      s.sih = ⟨4096, 4096, 0, 0, 1⟩ ∧ s.grants = gs := by
  have hsize := he.size_bounds
  have hlast : isLastEntry 0 e.size = false := by
    unfold isLastEntry entryLoc logBlockTail
    simp only [decide_eq_false_iff_not]
    omega
  have hext : novaExtendInodeLog env ⟨m, ⟨0, 0, 0, 0, 0⟩, some (1, 1) :: gs⟩ 0 =
      .ok (⟨novaCoalesceLogPages m 0 1 1, ⟨4096, 4096, 0, 0, 1⟩, gs⟩, 4096) := by
    cases gs with
    | nil => simp [novaExtendInodeLog, novaInitializeInodeLog, novaAllocateInodeLogPages,
        allocateRemaining, novaInitPiLog, logBlockOff, hcsum]
    | cons g gs => cases g <;> simp [novaExtendInodeLog, novaInitializeInodeLog,
        novaAllocateInodeLogPages, allocateRemaining, novaInitPiLog, logBlockOff, hcsum]
  have hhead : novaGetAppendHead env ⟨m, ⟨0, 0, 0, 0, 0⟩, some (1, 1) :: gs⟩ 0 e.size .main =
      .ok (⟨novaCoalesceLogPages m 0 1 1, ⟨4096, 4096, 0, 0, 1⟩, gs⟩, 4096) := by
    unfold novaGetAppendHead
    simp only [ne_eq, not_true_eq_false, if_false, hlast, Bool.false_eq_true, false_and, or_false,
      if_true, hext, Except.map]
    rw [if_neg (by omega), appendHeadInPage_start (by decide) (by omega)]
  have happ : novaAppendLogEntry env ⟨m, ⟨0, 0, 0, 0, 0⟩, some (1, 1) :: gs⟩ e LogUpdate.init =
      .ok (⟨appendMem (novaCoalesceLogPages m 0 1 1) 4096 e, ⟨4096, 4096, 0, 0, 1⟩, gs⟩,
        .ok ⟨4096 + e.size, 0, 4096, 0⟩) := by
    have hinit : LogUpdate.init.tail = 0 := rfl
    unfold novaAppendLogEntry
    simp only [hinit, hhead, Except.bind, hcsum, Bool.false_eq_true, if_false]
    rw [if_neg (by omega)]
    rfl
  exact ⟨_, LogStep.append he hkind happ, rfl, rfl⟩

theorem LogRun.new_append (env : LogEnv) (kind : LogKind) (e : NovaLogEntryInfo)
    (hcsum : env.metadataCsum = false) (m : ByteMem) (he : e.Ok) (hkind : kind.handles e.type = true) :
    ∃ s, LogStep env kind (LogRun.new m) (.append e) ⟨s, ⟨4096 + e.size, 0, 4096, 0⟩, [], [(4096, e)]⟩ ∧
      s.sih.logHead = 4096 := by
  obtain ⟨s, hstep, hsih, -⟩ := LogRun.first_append env kind e hcsum m [] he hkind
  exact ⟨s, hstep, by rw [hsih]⟩

end

/-! ### The scans of a run -/

section

variable {env : LogEnv} {kind : LogKind} {r₀ r : LogRun}

/-- **The rebuild loops visit what was appended.**  They end at the committed tail, and every
address they take for an entry holds that entry, in front of its page's tail. -/
theorem novaRebuildInodeTreeLoop_visits (h0 : LogInit r₀) (hrun : Runs (LogStep env kind) r₀ r)
    (fuel : Nat) (hfuel : r.entries.length < fuel) :
    novaRebuildInodeTreeLoop kind r.log.mem r.log.sih.logTail fuel r.log.sih.logHead =
        .ok (r.entries.map Prod.fst) ∧
      ∀ e ∈ r.entries, EntryAt r.log.mem e.1 e.2 ∧ e.1 % 4096 + e.2.size ≤ 4064 := by
  obtain ⟨pages, apages, k, l, k₀, l₀, h⟩ := LogInv.runs h0 hrun
  have hpages : ∀ p ∈ pages, IsPage p := fun p hp => h.chains.isPage p (List.mem_append_left _ hp)
  have hok : ∀ e ∈ r.entries, e.2.Ok ∧ kind.handles e.2.type = true :=
    fun e he => h.ok e (List.mem_append_left _ he)
  constructor
  · obtain ⟨n, rfl⟩ : ∃ n, fuel = r.entries.length + (n + 1) := ⟨fuel - r.entries.length - 1, by omega⟩
    by_cases hne : pages = []
    · -- no log yet
      have hnil : r.entries = [] := (List.append_eq_nil_iff.mp (h.empty hne)).1
      have htail := h.committed.tail
      have hhead := h.chains.head
      rw [if_pos hne] at htail
      rw [hne] at hhead
      rw [hnil, htail, hhead, List.length_nil, Nat.zero_add, List.headD_nil, novaRebuildInodeTreeLoop,
        if_pos rfl]
      rfl
    · have hheadD : r.log.sih.logHead = pages.getD 0 0 := by
        rw [h.chains.head]
        cases pages <;> rfl
      have hnodup : pages.Nodup := (List.nodup_append.mp (List.nodup_append.mp h.chains.fresh.nodup).1).1
      obtain ⟨htail, -, -, -⟩ := h.committed.facts hne hpages
      have hk := h.committed.page hne
      have hplace := h.committed.place
      rw [hheadD, h.writtenCommitted.rebuildLoop h.chains.linked hpages _ hok h.committed.page hne, ← htail,
        novaRebuildInodeTreeLoop, if_pos rfl]
      · simp [Except.map]
      · intro i o ho hio
        rw [htail]
        rcases hio with hlt | ⟨rfl, hlt⟩
        · exact page_sep hnodup (fun p hp => (hpages p hp).1) (by omega) hk (by omega) (by omega) (by omega)
        · omega
  · intro e he
    obtain ⟨p, e⟩ := e
    have hne : pages ≠ [] := fun hnil => by
      have hem : r.entries = [] := (List.append_eq_nil_iff.mp (h.empty hnil)).1
      rw [hem] at he
      cases he
    obtain ⟨i, o, rfl, hi, ho, -, -, hent⟩ := h.writtenCommitted.mem he
    have halign := h.chains.alignedUpTo h.committed hne i hi
    refine ⟨hent, ?_⟩
    show (pages.getD i 0 + o) % 4096 + e.size ≤ 4064
    omega

theorem novaRebuildInodeTreeLoop_visits_one : ∃ r : LogRun,
    r.entries = [(4096, .linkChange ⟨1, 0, 0, 0, 0, 0⟩)] ∧
      novaRebuildInodeTreeLoop .dir r.log.mem r.log.sih.logTail 2 r.log.sih.logHead = .ok [4096] := by
  obtain ⟨s, hstep, -⟩ := LogRun.new_append ⟨false, 0⟩ .dir (.linkChange ⟨1, 0, 0, 0, 0, 0⟩) rfl (fun _ => 7) trivial rfl
  have hrun := (Runs.single hstep).tail (LogStep.commit (by simp))
  exact ⟨_, rfl, (novaRebuildInodeTreeLoop_visits (LogRun.new_init _) hrun 2 (Nat.lt_succ_self 1)).1⟩

/-- **The recovery loop finds the end of a log** of a file exactly when the tail stops it.  This
is the loop without `metadata_csum`, which takes every entry as it is. -/
theorem novaTraverseFileInodeLogLoop_ends_iff (_hcsum : env.metadataCsum = false) (h0 : LogInit r₀)
    (hrun : Runs (LogStep env .file) r₀ r) (hhead : r.log.sih.logHead ≠ 0) :
    (∃ fuel, novaTraverseFileInodeLogLoop r.log.mem fuel r.log.sih.logHead =
        .ok ((r.entries ++ r.pending).map Prod.fst, r.tail)) ↔
      gotoNextPage r.log.mem r.tail = false ∧ scanEntrySize r.log.mem r.tail .file = none := by
  obtain ⟨pages, apages, k, l, k₀, l₀, h⟩ := LogInv.runs h0 hrun
  exact h.traverse_iff hhead

theorem novaTraverseFileInodeLogLoop_ends_iff_one : ∃ r : LogRun,
    r.pending = [(4096, .linkChange ⟨1, 0, 0, 0, 0, 0⟩)] ∧
      ((∃ fuel, novaTraverseFileInodeLogLoop r.log.mem fuel r.log.sih.logHead =
          .ok ((r.entries ++ r.pending).map Prod.fst, r.tail)) ↔
        gotoNextPage r.log.mem r.tail = false ∧ scanEntrySize r.log.mem r.tail .file = none) := by
  obtain ⟨s, hstep, hhead⟩ := LogRun.new_append ⟨false, 0⟩ .file (.linkChange ⟨1, 0, 0, 0, 0, 0⟩) rfl (fun _ => 7) trivial rfl
  have hrun := Runs.single hstep
  refine ⟨_, rfl, novaTraverseFileInodeLogLoop_ends_iff rfl (LogRun.new_init _) hrun ?_⟩
  rw [hhead]
  decide

/-- A link change, an attribute change and 62 writes fill a page to its tail, and nothing
stops the recovery loop there. -/
theorem novaTraverseFileInodeLogLoop_misses_full_page :
    ¬∀ (env : LogEnv) (r₀ r : LogRun), env.metadataCsum = false → LogInit r₀ →
      Runs (LogStep env .file) r₀ r → r.log.sih.logHead ≠ 0 →
      ∃ fuel, novaTraverseFileInodeLogLoop r.log.mem fuel r.log.sih.logHead =
        .ok ((r.entries ++ r.pending).map Prod.fst, r.tail) := by
  intro hall
  obtain ⟨s, hstep, -⟩ := LogRun.new_append ⟨false, 0⟩ .file (.linkChange ⟨1, 0, 0, 0, 0, 0⟩) rfl (fun _ => 7) trivial rfl
  have hinit := LogRun.new_init fun _ => 7
  obtain ⟨r₁, hrun₁, htail₁⟩ : ∃ r₁, Runs (LogStep ⟨false, 0⟩ .file) (LogRun.new fun _ => 7) r₁ ∧
      r₁.tail = 4136 := ⟨_, Runs.single hstep, rfl⟩
  obtain ⟨r, hrun, htail, -⟩ := hinit.runs_fits rfl
    (.setAttr ⟨0, 0, 0, 0, 0, 0, 0, 0, 0, 0⟩ ::
      List.replicate 62 (.fileWrite ⟨0, 0, 1, 1, 0, 0, 0, 4096, 0, 0, 0⟩))
    hrun₁ (by omega) (by rw [htail₁]; decide) (by
      intro e he
      rcases List.mem_cons.mp he with rfl | he
      · exact ⟨trivial, rfl⟩
      · rw [List.eq_of_mem_replicate he]
        exact ⟨trivial, rfl⟩)
  have htail' : r.tail = 8160 := by
    rw [htail, htail₁]
    decide
  obtain ⟨pages, apages, k, l, k₀, l₀, h⟩ := LogInv.runs hinit hrun
  have hne : pages ≠ [] := by
    intro hnil
    have ht := h.tail.tail
    rw [if_pos hnil] at ht
    omega
  have hhead : r.log.sih.logHead ≠ 0 := by
    rw [h.chains.head]
    exact (h.chains.isPage _ (List.mem_append_left _ (headD_mem hne))).2.1
  obtain ⟨hgoto, -⟩ := (h.traverse_iff hhead).mp (hall ⟨false, 0⟩ _ r rfl hinit hrun hhead)
  rw [htail'] at hgoto
  simp [gotoNextPage, entryLoc, logBlockTail] at hgoto

end

end Parfs
