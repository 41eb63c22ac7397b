/-
Whether the page counter counts the pages.

The first extension of a log sets the counter, to the pages it got.  The extensions that follow
link new pages and leave the counter alone, so it is right just until one of them is granted.
A rebuild counts the chain of the log from end to end and doubles the result for the replica:
right where the replica has the same length, and where there is a log at all.
-/
import Parfs.LogPages
import Parfs.Proofs.LogMirror

namespace Parfs

open Lib ByteMem

/-! ### The pages of a log -/

/-- The pages of a log, from its head on. -/
structure LogChain (m : ByteMem) (head : Nat) (pages : List Nat) : Prop where
  linked : LinkedTo m 0 pages
  head : head = pages.headD 0
  isPage : ∀ p ∈ pages, IsPage p

/-- `log_pages` is the number of the log's pages and its replica's. -/
def LogPagesExact (s : LogState) : Prop :=
  ∃ pages apages, LogChain s.mem s.sih.logHead pages ∧ LogChain s.mem s.sih.alterLogHead apages ∧
    s.sih.logPages = pages.length + apages.length

section

variable {env : LogEnv} {kind : LogKind} {s s₁ : LogState} {m : ByteMem} {pages apages qs as : List Nat}
  {r r' : LogRun} {t tail curr size k l k₀ l₀ n fuel : Nat} {e : NovaLogEntryInfo}

theorem LogChain.unique {pages' : List Nat} : ∀ {pages : List Nat} {head : Nat}, LogChain m head pages →
    LogChain m head pages' → pages = pages' := by
  induction pages' with
  | nil =>
      intro pages head h h'
      cases pages with
      | nil => rfl
      | cons p ps =>
          have hp : p = 0 := h.head.symm.trans h'.head
          exact absurd hp (h.isPage p (by simp)).2.1
  | cons p' ps' ih =>
      intro pages head h h'
      cases pages with
      | nil =>
          have hp : p' = 0 := h'.head.symm.trans h.head
          exact absurd hp (h'.isPage p' (by simp)).2.1
      | cons p ps =>
          have hp : p = p' := h.head.symm.trans h'.head
          subst hp
          have hrest : LogChain m (nextPage m p) ps :=
            ⟨h.linked.2, h.linked.1, fun q hq => h.isPage q (by simp [hq])⟩
          have hrest' : LogChain m (nextPage m p) ps' :=
            ⟨h'.linked.2, h'.linked.1, fun q hq => h'.isPage q (by simp [hq])⟩
          rw [ih hrest hrest']

theorem Chains.logChain (hc : Chains env s pages apages) : LogChain s.mem s.sih.logHead pages :=
  ⟨hc.linked, hc.head, fun p hp => hc.isPage p (List.mem_append_left _ hp)⟩

/-- Without `metadata_csum` nothing is at the head of the replica's log. -/
theorem Chains.alterChain (hc : Chains env s pages apages)
    (halter : env.metadataCsum = false → s.sih.alterLogHead = 0) :
    LogChain s.mem s.sih.alterLogHead apages := by
  cases hcsum : env.metadataCsum with
  | true =>
      obtain ⟨hlink, hhead⟩ := hc.twin hcsum
      exact ⟨hlink, hhead, fun p hp => hc.isPage p (List.mem_append_right _ hp)⟩
  | false =>
      rw [hc.noTwin hcsum, halter hcsum]
      exact ⟨trivial, rfl, by simp⟩

/-- A log has one chain of pages, and its replica has one. -/
theorem Chains.unique {pages' apages' : List Nat} (hc : Chains env s pages apages)
    (hc' : Chains env s pages' apages') : pages = pages' ∧ apages = apages' := by
  refine ⟨hc.logChain.unique hc'.logChain, ?_⟩
  cases hcsum : env.metadataCsum with
  | true =>
      have hno : ¬ env.metadataCsum = false := by simp [hcsum]
      exact (hc.alterChain fun h => absurd h hno).unique (hc'.alterChain fun h => absurd h hno)
  | false => rw [hc.noTwin hcsum, hc'.noTwin hcsum]

theorem Chains.exact_iff (hc : Chains env s pages apages)
    (halter : env.metadataCsum = false → s.sih.alterLogHead = 0) :
    LogPagesExact s ↔ s.sih.logPages = pages.length + apages.length := by
  constructor
  · rintro ⟨pages', apages', hp, ha, hcount⟩
    rw [hc.logChain.unique hp, (hc.alterChain halter).unique ha]
    exact hcount
  · intro hcount
    exact ⟨pages, apages, hc.logChain, hc.alterChain halter, hcount⟩

/-! ### Appending -/

/-- No extension of a log that has pages is granted any. -/
def NotExtended (s : LogState) (t size : Nat) : Prop :=
  t ≠ 0 → Extends s t size → (takeGrants s.grants (extensionPages s.sih t)).1 = []

/-- Looking for an append head without getting a page changes neither chains nor header. -/
theorem novaGetAppendHead_kept (hc : Chains env s pages apages) (ht : t ≠ 0)
    (hcurr : t = if tail ≠ 0 then tail else s.sih.logTail) (hno : NotExtended s t size)
    (hrun : novaGetAppendHead env s tail size .main = .ok (s₁, curr)) :
    Chains env s₁ pages apages ∧ s₁.sih = s.sih := by
  unfold novaGetAppendHead at hrun
  simp only [← hcurr, ht, false_or, ne_eq, not_true_eq_false, if_false] at hrun
  by_cases hext : isLastEntry t size = true ∧ nextLogPage s.mem t = 0
  · -- the allocation is refused
    have hnone := hno ht (Or.inr hext)
    obtain ⟨-, hret⟩ := novaAllocateInodeLogPages_take (novaSetNextPageFlag s.mem t) s.grants
      (extensionPages s.sih t)
    have hok := novaAllocateInodeLogPages_spec (m := novaSetNextPageFlag s.mem t) (extensionPages s.sih t)
      hc.fresh
    rw [hnone] at hret hok
    rw [if_pos hext, if_pos hext.1] at hrun
    have hnum : extensionPages s.sih t =
        if s.sih.logPages ≥ extendThreshold then extendThreshold else s.sih.logPages := if_neg ht
    unfold novaExtendInodeLog at hrun
    simp only [ht, if_false, ← hnum, hret, List.length_nil, if_true, Except.map, Except.ok.injEq,
      Prod.mk.injEq] at hrun
    obtain ⟨rfl, -⟩ := hrun
    exact ⟨(hc.flag (t := t)).refuse hok.granted hok.suffix rfl hok.frame, rfl⟩
  · rw [if_neg hext] at hrun
    have hrun := Except.ok.inj hrun
    unfold appendHeadInPage at hrun
    by_cases hlast : isLastEntry t size = true
    · rw [if_pos hlast, Prod.mk.injEq] at hrun
      obtain ⟨rfl, -⟩ := hrun
      exact ⟨hc.flag, rfl⟩
    · rw [if_neg hlast, Prod.mk.injEq] at hrun
      obtain ⟨rfl, -⟩ := hrun
      exact ⟨hc, rfl⟩

/-- Where there is no log yet, the header counts the pages it gets. -/
theorem novaGetAppendHead_counted (hc : Chains env s [] [])
    (hcurr : 0 = if tail ≠ 0 then tail else s.sih.logTail) (hsize : size ≤ 4064)
    (hrun : novaGetAppendHead env s tail size .main = .ok (s₁, curr)) :
    ∃ qs as, Chains env s₁ qs as ∧ CountedFirst s.sih s₁.sih qs as := by
  have hlast : isLastEntry 0 size = false := by
    unfold isLastEntry entryLoc logBlockTail
    simp only [decide_eq_false_iff_not]
    omega
  unfold novaGetAppendHead at hrun
  simp only [← hcurr, hlast, Bool.false_eq_true, false_and, or_false, if_true, if_false, ne_eq,
    not_true_eq_false] at hrun
  have hout := novaExtendInodeLog_counted hc
  cases hext : novaExtendInodeLog env s 0 with
  | error f =>
      rw [hext] at hrun
      cases hrun
  | ok v =>
      rw [hext] at hrun hout
      obtain ⟨qs, as, hg, hcount⟩ := hout
      refine ⟨qs, as, ?_⟩
      have hsame : s₁ = v.1 := by
        simp only [Except.map] at hrun
        by_cases h0 : v.2 = 0
        · rw [if_pos h0] at hrun
          exact (congrArg Prod.fst (Except.ok.inj hrun)).symm
        · obtain ⟨hqs, hhead, -⟩ := hg.grown h0
          have hpage := hg.chains.isPage v.2
            (List.mem_append_left _ (List.mem_append_right _ (hhead ▸ headD_mem hqs)))
          rw [if_neg h0, appendHeadInPage_start hpage.1 hsize] at hrun
          exact (congrArg Prod.fst (Except.ok.inj hrun)).symm
      rw [hsame]
      exact ⟨hg.chains, hcount⟩

/-! ### The rebuild's count -/

theorem rebuildPagesLoop_mono {logTail : Nat} (steps : Nat) : ∀ (fuel p c v : Nat),
    rebuildPagesLoop kind m logTail fuel p c = .ok v →
      rebuildPagesLoop kind m logTail (fuel + steps) p c = .ok v := by
  intro fuel
  induction fuel with
  | zero =>
      intro p c v h
      cases h
  | succ fuel ih =>
      intro p c v h
      rw [Nat.add_right_comm, rebuildPagesLoop]
      rw [rebuildPagesLoop] at h
      by_cases hend : p = logTail
      · rwa [if_pos hend] at h ⊢
      · rw [if_neg hend] at h ⊢
        by_cases h0 : scanFrom m p = 0
        · simp [h0] at h
        · simp only [h0, if_false] at h ⊢
          cases hscan : scanEntrySize m (scanFrom m p) kind with
          | some size =>
              rw [hscan] at h
              exact ih _ _ v h
          | none =>
              rw [hscan] at h
              cases kind with
              | file => exact ih _ _ v h
              | dir => exact ih _ _ v h

theorem rebuildFinishPagesLoop_mono (steps : Nat) : ∀ (fuel p c v : Nat),
    rebuildFinishPagesLoop m fuel p c = .ok v → rebuildFinishPagesLoop m (fuel + steps) p c = .ok v := by
  intro fuel
  induction fuel with
  | zero =>
      intro p c v h
      cases h
  | succ fuel ih =>
      intro p c v h
      rw [Nat.add_right_comm, rebuildFinishPagesLoop]
      rw [rebuildFinishPagesLoop] at h
      by_cases hmore : nextLogPage m p > 0
      · rw [if_pos hmore] at h ⊢
        exact ih _ _ v h
      · rwa [if_neg hmore] at h ⊢

/-- **The loop counts the pages up to the one it stands in.** -/
theorem Written.pagesLoop (hlink : LinkedTo m 0 pages) (hpages : ∀ p ∈ pages, IsPage p) {t c : Nat}
    (es : List (Nat × NovaLogEntryInfo)) :
    ∀ {k l : Nat}, Written m pages es k l → (∀ e ∈ es, e.2.Ok ∧ kind.handles e.2.type = true) →
      (pages ≠ [] → k < pages.length) → pages ≠ [] →
      (∀ i o, o ≤ 4064 → (i < k ∨ (i = k ∧ o < l)) → pages.getD i 0 + o ≠ t) → ∀ fuel,
      rebuildPagesLoop kind m t (es.length + fuel) (pages.getD 0 0) c =
        rebuildPagesLoop kind m t fuel (pages.getD k 0 + l) (c + k) := by
  induction es using List.reverseRecOn with
  | nil =>
      intro k l h _ _ _ _ fuel
      obtain ⟨rfl, rfl⟩ := h.nil_pages rfl
      rw [List.length_nil, Nat.zero_add, Nat.add_zero, Nat.add_zero]
  | append_singleton es x ih =>
      obtain ⟨p, e⟩ := x
      intro k' l' h hok hk hne ht fuel
      obtain ⟨he, hkind⟩ := hok (p, e) (by simp)
      have hk' := hk hne
      have hstep : ∀ k l, Written m pages es k l → (k < k' ∨ (k = k' ∧ l < l')) →
          rebuildPagesLoop kind m t (es.length + (fuel + 1)) (pages.getD 0 0) c =
            rebuildPagesLoop kind m t (fuel + 1) (pages.getD k 0 + l) (c + k) :=
        fun k l h' hlt => ih h' (fun x hx => hok x (List.mem_append_left _ hx)) h'.page_lt hne
          (fun i o ho hio => ht i o ho (by omega)) (fuel + 1)
      rw [List.length_append, List.length_singleton, Nat.add_assoc, Nat.add_comm 1 fuel]
      generalize hes : es ++ [(p, e)] = es' at h
      have hsize : 40 ≤ e.size ∧ e.size ≤ 304 := he.size_bounds
      cases h with
      | nil => simp at hes
      | @here es₁ k l e₁ h hfit hent =>
          obtain ⟨rfl, heq⟩ := List.append_inj' hes rfl
          obtain ⟨rfl, rfl⟩ := Prod.mk.inj (List.singleton_inj.mp heq)
          obtain ⟨hka, hk0, -⟩ := hpages _ (getD_mem hk')
          obtain ⟨hfrom, hscan⟩ := hent.scan he hkind (by omega)
          have hstay := hent.stays he (by omega)
          have hgrow : l < l + e.size := by omega
          have hnot := ht k' l h.place_le (Or.inr ⟨rfl, hgrow⟩)
          rw [hstep k' l h (Or.inr ⟨rfl, hgrow⟩), rebuildPagesLoop, if_neg hnot]
          simp only [hfrom, hscan, hstay, Bool.false_eq_true, if_false, Nat.add_assoc]
          rw [if_neg (by omega)]
      | @next es₁ k l e₁ h hleft hin hfit hent =>
          obtain ⟨rfl, heq⟩ := List.append_inj' hes rfl
          obtain ⟨rfl, rfl⟩ := Prod.mk.inj (List.singleton_inj.mp heq)
          obtain ⟨hka, hk0, -⟩ := hpages _ (getD_mem hk')
          obtain ⟨-, hscan⟩ := hent.scan he hkind (by omega)
          have hfrom := scanFrom_left hlink hpages hin h.place_le hleft
          have hnot := ht k l h.place_le (Or.inl (by omega))
          rw [hstep k l h (Or.inl (by omega)), rebuildPagesLoop, if_neg hnot]
          simp only [hfrom, hscan, hleft, if_true, Nat.add_assoc]
          rw [if_neg hk0]

/-- **What follows counts the pages behind.** -/
theorem rebuildFinishPagesLoop_spec (hlink : LinkedTo m 0 pages) (hpages : ∀ p ∈ pages, IsPage p) :
    ∀ (behind k l c : Nat), k + behind + 1 = pages.length → l ≤ 4064 →
      rebuildFinishPagesLoop m (behind + 1) (pages.getD k 0 + l) c = .ok (c + behind) := by
  intro behind
  induction behind with
  | zero =>
      intro k l c hk hl
      have hblock : blockOff (pages.getD k 0 + l) = pages.getD k 0 := by
        have := (hpages _ (getD_mem (by omega : k < pages.length))).1
        unfold blockOff
        omega
      have hnone : pages.getD (k + 1) 0 = 0 := List.getD_eq_default _ _ (by omega)
      rw [rebuildFinishPagesLoop, hlink.nextOfTail (by omega) hblock, hnone, if_neg (by omega), Nat.add_zero]
  | succ behind ih =>
      intro k l c hk hl
      have hblock : blockOff (pages.getD k 0 + l) = pages.getD k 0 := by
        have := (hpages _ (getD_mem (by omega : k < pages.length))).1
        unfold blockOff
        omega
      have hnext := (hpages _ (getD_mem (by omega : k + 1 < pages.length))).2.1
      have hrest : rebuildFinishPagesLoop m (behind + 1) (pages.getD (k + 1) 0) (c + 1) =
          .ok (c + 1 + behind) := ih (k + 1) 0 (c + 1) (by omega) (by omega)
      rw [rebuildFinishPagesLoop, hlink.nextOfTail (by omega) hblock, if_pos (by omega), hrest,
        Nat.add_assoc, Nat.add_comm 1 behind]

/-- **A rebuild counts the log's pages**, once or twice. -/
theorem LogInv.rebuildPages (h : LogInv env kind r pages apages k l k₀ l₀) (hhead : r.log.sih.logHead ≠ 0)
    (hrun : novaRebuildLogPages env kind fuel r.log.mem r.log.sih = .ok n) :
    n = if env.metadataCsum then pages.length * 2 else pages.length := by
  have hpages : ∀ p ∈ pages, IsPage p := fun p hp => h.chains.isPage p (List.mem_append_left _ hp)
  have hok : ∀ e ∈ r.entries, e.2.Ok ∧ kind.handles e.2.type = true :=
    fun e he => h.ok e (List.mem_append_left _ he)
  have hne : pages ≠ [] := by
    intro hnil
    have := h.chains.head
    rw [hnil] at this
    exact hhead this
  have hheadD : r.log.sih.logHead = pages.getD 0 0 := by
    rw [h.chains.head]
    cases pages <;> rfl
  have hnodup : pages.Nodup := (List.nodup_append.mp (List.nodup_append.mp h.chains.fresh.nodup).1).1
  obtain ⟨htail, htail0, -, -⟩ := h.committed.facts hne hpages
  have hk := h.committed.page hne
  have hplace := h.committed.place
  have hcounted : ∀ fuel, rebuildPagesLoop kind r.log.mem r.log.sih.logTail (r.entries.length + (fuel + 1))
      r.log.sih.logHead 1 = .ok (1 + k₀) := by
    intro fuel
    rw [hheadD, h.writtenCommitted.pagesLoop h.chains.linked hpages _ hok h.committed.page hne, ← htail,
      rebuildPagesLoop, if_pos rfl]
    intro i o ho hio
    rw [htail]
    rcases hio with hlt | ⟨rfl, hlt⟩
    · exact page_sep hnodup (fun p hp => (hpages p hp).1) (by omega) hk (by omega) (by omega) (by omega)
    · omega
  unfold novaRebuildLogPages at hrun
  dsimp only at hrun
  rw [if_neg (by rintro (h0 | ⟨-, h0⟩) <;> contradiction)] at hrun
  cases hloop : rebuildPagesLoop kind r.log.mem r.log.sih.logTail fuel r.log.sih.logHead 1 with
  | error f =>
      rw [hloop] at hrun
      cases hrun
  | ok v =>
      have hv : v = 1 + k₀ := by
        have h1 := rebuildPagesLoop_mono (r.entries.length + 1) _ _ _ _ hloop
        rw [show fuel + (r.entries.length + 1) = r.entries.length + (fuel + 1) by omega, hcounted] at h1
        exact (Except.ok.inj h1).symm
      rw [hloop] at hrun
      simp only [Except.bind] at hrun
      cases hfin : rebuildFinishPagesLoop r.log.mem fuel r.log.sih.logTail v with
      | error f =>
          rw [hfin] at hrun
          cases hrun
      | ok w =>
          have hw : w = pages.length := by
            obtain ⟨behind, hbehind⟩ : ∃ behind, k₀ + behind + 1 = pages.length :=
              ⟨pages.length - k₀ - 1, by omega⟩
            have h1 := rebuildFinishPagesLoop_mono (behind + 1) _ _ _ _ hfin
            have h2 := rebuildFinishPagesLoop_mono fuel _ _ _ _
              (rebuildFinishPagesLoop_spec h.chains.linked hpages behind k₀ l₀ v hbehind hplace)
            rw [htail, Nat.add_comm fuel, h2] at h1
            have := Except.ok.inj h1
            omega
          rw [hfin] at hrun
          simp only [Except.map] at hrun
          rw [← Except.ok.inj hrun, hw]

/-! ### Runs -/

inductive PagesAct where
  | log (a : LogAct)
  | rebuild

/-- The steps of operations on a log, and rebuilds of its header after a restart.  What had not
been committed then is forgotten. -/
inductive PagesStep (env : LogEnv) (kind : LogKind) : LogRun → PagesAct → LogRun → Prop
  | log {r r' : LogRun} {a : LogAct} (h : LogStep env kind r a r') : PagesStep env kind r (.log a) r'
  | rebuild {r : LogRun} {fuel n : Nat} (h : novaRebuildLogPages env kind fuel r.log.mem r.log.sih = .ok n) :
      PagesStep env kind r .rebuild
        ⟨{ r.log with sih := { r.log.sih with logPages := n } }, LogUpdate.init, r.entries, []⟩

/-- The replica's log has as many pages as the log. -/
def TwinLength (s : LogState) : Prop :=
  ∃ pages apages, LogChain s.mem s.sih.logHead pages ∧ LogChain s.mem s.sih.alterLogHead apages ∧
    pages.length = apages.length

/-- An append gets no page for a log that has some; a rebuild finds a log, and its replica is
as long. -/
def PagesAct.KeepsCount (env : LogEnv) (r : LogRun) : PagesAct → Prop
  | .log (.append e) => NotExtended r.log r.tail e.size
  | .log .commit => True
  | .log .abort => True
  | .rebuild => r.log.sih.logHead ≠ 0 ∧ (env.metadataCsum = true → TwinLength r.log)

/-- The log is in order and its pages are counted. -/
def Counted (env : LogEnv) (kind : LogKind) (r : LogRun) : Prop :=
  ∃ pages apages k l k₀ l₀, LogInv env kind r pages apages k l k₀ l₀ ∧
    (env.metadataCsum = false → r.log.sih.alterLogHead = 0) ∧
    r.log.sih.logPages = pages.length + apages.length

/-- An append that extends no log leaves the chains alone, and the first one counts them. -/
theorem LogInv.countedHead {qs as : List Nat} {s₁ : LogState} {curr : Nat}
    (h : LogInv env kind r pages apages k l k₀ l₀) (he : e.Ok)
    (halter : env.metadataCsum = false → r.log.sih.alterLogHead = 0)
    (hcount : r.log.sih.logPages = pages.length + apages.length) (hno : NotExtended r.log r.tail e.size)
    (hhead : novaGetAppendHead env r.log r.update.tail e.size .main = .ok (s₁, curr))
    (hc : Chains env s₁ (pages ++ qs) (apages ++ as)) :
    (env.metadataCsum = false → s₁.sih.alterLogHead = 0) ∧
      s₁.sih.logPages = (pages ++ qs).length + (apages ++ as).length := by
  have hsize := he.size_bounds
  have htail : r.tail = if r.update.tail ≠ 0 then r.update.tail else r.log.sih.logTail := rfl
  by_cases ht : r.tail = 0
  · have hnil : pages = [] := by
      by_contra hne
      exact (h.tail.facts hne fun p hp => h.chains.isPage p (List.mem_append_left _ hp)).2.1 ht
    have hanil : apages = [] := by
      have hshort := h.chains.short
      rw [hnil] at hshort
      exact List.eq_nil_of_length_eq_zero (Nat.le_zero.mp hshort)
    subst hnil hanil
    obtain ⟨qs', as', hc', hfirst⟩ := novaGetAppendHead_counted h.chains (ht ▸ htail) (by omega) hhead
    obtain ⟨rfl, rfl⟩ := hc'.unique hc
    refine ⟨fun hcsum => ?_, ?_⟩
    · rw [hfirst.alter (hc'.noTwin hcsum), halter hcsum]
    · by_cases hqs : qs' = []
      · have has : as' = [] := by
          have hshort := hc'.short
          rw [hqs] at hshort
          exact List.eq_nil_of_length_eq_zero (Nat.le_zero.mp hshort)
        rw [hfirst.refused hqs, hcount, hqs, has]
        rfl
      · exact hfirst.granted hqs
  · obtain ⟨hc', hsih⟩ := novaGetAppendHead_kept h.chains ht htail hno hhead
    obtain ⟨hpages, hapages⟩ := hc'.unique hc
    rw [hsih, ← hpages, ← hapages]
    exact ⟨halter, hcount⟩

/-- **A step that meets the condition keeps the count.** -/
theorem Counted.step {a : PagesAct} (h : Counted env kind r)
    (hstep : Guarded (PagesAct.KeepsCount env) (PagesStep env kind) r a r') : Counted env kind r' := by
  obtain ⟨pages, apages, k, l, k₀, l₀, h, halter, hcount⟩ := h
  obtain ⟨hkeep, hstep⟩ := hstep
  cases hstep with
  | log hstep =>
      cases hstep with
      | @append e s u he hkind happ =>
          have hran := h.appendRan he
          rw [happ] at hran
          obtain ⟨s₁, curr, qs, as, ta, hhead, hok, hta, hres⟩ := hran
          obtain ⟨⟨k', l', hat⟩, -⟩ := hok.found hres.ne_zero
          obtain ⟨halter', hcount'⟩ := h.countedHead he halter hcount hkeep hhead hok.chains
          obtain ⟨hsih, -⟩ := hres.sih
          refine ⟨_, _, _, _, _, _, h.append he hkind hok hta hres hat, ?_, ?_⟩
          · exact fun hcsum => (congrArg LogSih.alterLogHead hsih).trans (halter' hcsum)
          · exact (congrArg LogSih.logPages hsih).trans hcount'
      | @refuse e s err he hkind happ =>
          have hran := h.appendRan he
          rw [happ] at hran
          obtain ⟨s₁, curr, qs, as, ta, hhead, hok, hta, hres⟩ := hran
          obtain ⟨halter', hcount'⟩ := h.countedHead he halter hcount hkeep hhead hok.chains
          obtain ⟨hsih, -⟩ := hres.sih
          refine ⟨_, _, _, _, _, _, h.refuse he hok hta hres, ?_, ?_⟩
          · exact fun hcsum => (congrArg LogSih.alterLogHead hsih).trans (halter' hcsum)
          · exact (congrArg LogSih.logPages hsih).trans hcount'
      | commit hne => exact ⟨_, _, _, _, _, _, h.commit hne, halter, hcount⟩
      | abort => exact ⟨_, _, _, _, _, _, h.abort, halter, hcount⟩
  | @rebuild fuel n hrun =>
      obtain ⟨hhead, htwin⟩ := hkeep
      have hn := h.rebuildPages hhead hrun
      have h' := h.abort
      refine ⟨pages, apages, k₀, l₀, k₀, l₀, ⟨⟨h'.chains.fresh, h'.chains.isPage, h'.chains.linked,
        h'.chains.head, h'.chains.twin, h'.chains.noTwin, h'.chains.short⟩, h'.tail, h'.committed,
        h'.alterTail, h'.alterCommitted, h'.order, h'.written, h'.writtenCommitted, h'.ok, h'.carry,
        h'.empty⟩, halter, ?_⟩
      show n = pages.length + apages.length
      cases hcsum : env.metadataCsum with
      | false => simp [hn, hcsum, h.chains.noTwin hcsum]
      | true =>
          obtain ⟨pages', apages', hp, ha, hlen⟩ := htwin hcsum
          have hno : ¬ env.metadataCsum = false := by simp [hcsum]
          rw [h.chains.logChain.unique hp, (h.chains.alterChain fun h => absurd h hno).unique ha, hn, hcsum,
            if_pos rfl, ← hlen, h.chains.logChain.unique hp, Nat.mul_two]

theorem Counted.exact (h : Counted env kind r) : LogPagesExact r.log := by
  obtain ⟨pages, apages, k, l, k₀, l₀, h, halter, hcount⟩ := h
  exact (h.chains.exact_iff halter).mpr hcount

theorem Counted.init {r₀ : LogRun} (h0 : LogInit r₀) (hzero : r₀.log.sih.logPages = 0) :
    Counted env kind r₀ :=
  ⟨[], [], 0, 0, 0, 0, LogInv.init h0, fun _ => h0.alterHead, hzero⟩

/-- Without a replica, a log that is granted pages gets them, and its header stays. -/
theorem novaGetAppendHead_extended (hcsum : env.metadataCsum = false) (hc : Chains env s pages apages)
    (hcurr : t = if tail ≠ 0 then tail else s.sih.logTail) (hsize : size ≤ 4064)
    (hno : ¬ NotExtended s t size) : ∃ s₁ curr, novaGetAppendHead env s tail size .main = .ok (s₁, curr) ∧
      curr ≠ 0 ∧ s₁.sih = s.sih := by
  unfold NotExtended at hno
  push Not at hno
  obtain ⟨ht, hext, hgranted⟩ := hno
  obtain hext := hext.resolve_left ht
  obtain ⟨-, hret⟩ := novaAllocateInodeLogPages_take (novaSetNextPageFlag s.mem t) s.grants
    (extensionPages s.sih t)
  have hok := novaAllocateInodeLogPages_spec (m := novaSetNextPageFlag s.mem t) (extensionPages s.sih t)
    hc.fresh
  have hhead := hok.head (by rwa [List.nil_append])
  obtain ⟨hpage, -⟩ := hc.fresh.granted hok.granted
  rw [List.nil_append] at hhead
  have hnum : extensionPages s.sih t =
      if s.sih.logPages ≥ extendThreshold then extendThreshold else s.sih.logPages := if_neg ht
  have hret0 := List.length_pos_of_ne_nil hgranted
  have hnew := hpage _ (headD_mem hgranted)
  rw [← hret] at hret0
  rw [← hhead] at hnew
  have hrun : novaExtendInodeLog env { s with mem := novaSetNextPageFlag s.mem t } t = .ok
      (⟨novaSetNextPageAddress (novaAllocateInodeLogPages (novaSetNextPageFlag s.mem t) s.grants
          (extensionPages s.sih t)).mem (blockOff t)
        (novaAllocateInodeLogPages (novaSetNextPageFlag s.mem t) s.grants (extensionPages s.sih t)).newBlock,
        s.sih, (novaAllocateInodeLogPages (novaSetNextPageFlag s.mem t) s.grants
          (extensionPages s.sih t)).grants⟩,
        (novaAllocateInodeLogPages (novaSetNextPageFlag s.mem t) s.grants (extensionPages s.sih t)).newBlock) := by
    unfold novaExtendInodeLog
    simp only [if_neg ht, ← hnum, hcsum, Bool.false_eq_true, if_false]
    rw [if_neg (by omega)]
  unfold novaGetAppendHead
  simp only [← hcurr, hext, and_self, or_true, if_true, ne_eq, not_true_eq_false, if_false, hrun, Except.map,
    hnew.2.1]
  rw [appendHeadInPage_start hnew.1 hsize]
  exact ⟨_, _, rfl, hnew.2.1, rfl⟩

/-- **An extension spoils the count.** -/
theorem Counted.spoiled (hcsum : env.metadataCsum = false) (h : Counted env kind r) (he : e.Ok)
    (hkind : kind.handles e.type = true) (hno : ¬ NotExtended r.log r.tail e.size) :
    ∃ r', LogStep env kind r (.append e) r' ∧ ¬ LogPagesExact r'.log := by
  obtain ⟨pages, apages, k, l, k₀, l₀, h, halter, hcount⟩ := h
  have hsize := he.size_bounds
  have htail : r.tail = if r.update.tail ≠ 0 then r.update.tail else r.log.sih.logTail := rfl
  obtain ⟨s₁, curr, hhead, hcurr, hsame⟩ := novaGetAppendHead_extended hcsum h.chains htail (by omega) hno
  obtain ⟨⟨s', res⟩, happ⟩ := novaAppendLogEntry_single (e := e) hcsum r.log r.update
  have hran := h.appendRan he
  rw [happ] at hran
  obtain ⟨s₂, curr₂, qs, as, ta, hhead₂, hok, hta, hres⟩ := hran
  obtain ⟨rfl, rfl⟩ := Prod.mk.inj (Except.ok.inj (hhead.symm.trans hhead₂))
  obtain ⟨⟨k', l', hat⟩, -⟩ := hok.found hcurr
  obtain ⟨hsih, -⟩ := hres.sih
  have hqs : 0 < qs.length := by
    unfold NotExtended at hno
    push Not at hno
    obtain ⟨ht, hext, -⟩ := hno
    obtain ⟨hlast, hnone⟩ := hext.resolve_left ht
    have hpages : ∀ p ∈ pages, IsPage p := fun p hp => h.chains.isPage p (List.mem_append_left _ hp)
    have hne : pages ≠ [] := by
      intro hnil
      have htail := h.tail.tail
      rw [if_pos hnil] at htail
      exact ht htail
    obtain ⟨-, -, hblock, hfull⟩ := h.tail.facts hne hpages
    rw [hfull, decide_eq_true_eq] at hlast
    rw [h.chains.linked.nextOfTail (h.tail.page hne) hblock] at hnone
    have hend : ¬ k + 1 < pages.length := fun hk => (hpages _ (getD_mem hk)).2.1 hnone
    have hin := hat.page
    rw [List.length_append] at hin
    rcases hat.move with ⟨-, -, rfl⟩ | ⟨hnil, -⟩ | ⟨-, rfl, -⟩
    · have := hat.fit
      omega
    · exact absurd hnil hne
    · omega
  cases res with
  | error err =>
      cases hres with
      | full h0 => exact absurd h0 hcurr
      | half _ hc => exact absurd hc (by simp [hcsum])
  | ok u =>
      refine ⟨_, LogStep.append he hkind happ, fun hexact => ?_⟩
      have hinv := h.append he hkind hok hta hres hat
      have hcount' := (hinv.chains.exact_iff fun hc => ?_).mp hexact
      · have hsum : s'.sih.logPages = (pages ++ qs).length + (apages ++ as).length := hcount'
        rw [hsih, hsame, hcount, List.length_append, List.length_append] at hsum
        omega
      · show s'.sih.alterLogHead = 0
        rw [hsih, hsame]
        exact halter hc

/-- **The counter is right as long as no log is extended.** -/
theorem novaExtendInodeLog_counts {r₀ : LogRun} (h0 : LogInit r₀) (hzero : r₀.log.sih.logPages = 0)
    (hrun : Runs (Guarded (PagesAct.KeepsCount env) (PagesStep env kind)) r₀ r) :
    ∃ pages apages, LogChain r.log.mem r.log.sih.logHead pages ∧
      LogChain r.log.mem r.log.sih.alterLogHead apages ∧
      r.log.sih.logPages = pages.length + apages.length ∧
      ∀ currP, currP ≠ 0 → extensionPages r.log.sih currP =
        min (pages.length + apages.length) extendThreshold := by
  have hcounted : Counted env kind r :=
    hrun.invariant (fun _ _ _ h hstep => h.step hstep) (Counted.init h0 hzero)
  obtain ⟨pages, apages, hp, ha, hcount⟩ := hcounted.exact
  refine ⟨pages, apages, hp, ha, hcount, fun currP hcurr => ?_⟩
  unfold extensionPages
  rw [if_neg hcurr, hcount]
  split <;> omega

theorem novaExtendInodeLog_counts_one : ∃ r : LogRun, r.pending ≠ [] ∧
    ∃ pages apages, LogChain r.log.mem r.log.sih.logHead pages ∧
      LogChain r.log.mem r.log.sih.alterLogHead apages ∧
      r.log.sih.logPages = pages.length + apages.length ∧
      ∀ currP, currP ≠ 0 → extensionPages r.log.sih currP =
        min (pages.length + apages.length) extendThreshold := by
  obtain ⟨s, hstep, -⟩ := LogRun.new_append ⟨false, 0⟩ .file (.linkChange ⟨1, 0, 0, 0, 0, 0⟩) rfl
    (fun _ => 7) trivial rfl
  have hkeep : PagesAct.KeepsCount ⟨false, 0⟩ (LogRun.new fun _ => 7)
      (.log (.append (.linkChange ⟨1, 0, 0, 0, 0, 0⟩))) := fun ht => absurd rfl ht
  exact ⟨_, by simp, novaExtendInodeLog_counts (LogRun.new_init fun _ => 7) rfl
    (Runs.single ⟨hkeep, PagesStep.log hstep⟩)⟩

/-- A page filled to its tail, and one more link change: the log has two pages, the counter says
one. -/
theorem novaExtendInodeLog_second_extension :
    ¬∀ (env : LogEnv) (kind : LogKind) (r₀ r : LogRun), LogInit r₀ → r₀.log.sih.logPages = 0 →
      Runs (PagesStep env kind) r₀ r → LogPagesExact r.log := by
  intro hall
  have hinit : LogInit (LogRun.newTwin (fun _ => 7) [some (1, 1), some (2, 1)]) := LogRun.newTwin_init _
  obtain ⟨s, hstep, hsih, hgrants⟩ := LogRun.first_append ⟨false, 0⟩ .file (.linkChange ⟨1, 0, 0, 0, 0, 0⟩)
    rfl (fun _ => 7) [some (2, 1)] trivial rfl
  obtain ⟨r₁, hrun₁, htail₁, hsih₁, hgrants₁⟩ : ∃ r₁, Runs (LogStep ⟨false, 0⟩ .file)
      (LogRun.newTwin (fun _ => 7) [some (1, 1), some (2, 1)]) r₁ ∧ r₁.tail = 4136 ∧
        r₁.log.sih = ⟨4096, 4096, 0, 0, 1⟩ ∧ r₁.log.grants = [some (2, 1)] :=
    ⟨_, Runs.single hstep, rfl, hsih, hgrants⟩
  obtain ⟨r, hrun, htail, hsih, hgrants⟩ := hinit.runs_fits rfl
    (.setAttr ⟨0, 0, 0, 0, 0, 0, 0, 0, 0, 0⟩ ::
      List.replicate 62 (.fileWrite ⟨0, 0, 1, 1, 0, 0, 0, 4096, 0, 0, 0⟩))
    hrun₁ (by omega) (by rw [htail₁]; decide) (by
      intro e he
      rcases List.mem_cons.mp he with rfl | he
      · exact ⟨trivial, rfl⟩
      · rw [List.eq_of_mem_replicate he]
        exact ⟨trivial, rfl⟩)
  replace htail : r.tail = 8160 := by
    rw [htail, htail₁]
    decide
  rw [hsih₁] at hsih
  rw [hgrants₁] at hgrants
  have hexact : ∀ {r : LogRun}, Runs (LogStep ⟨false, 0⟩ .file)
      (LogRun.newTwin (fun _ => 7) [some (1, 1), some (2, 1)]) r → LogPagesExact r.log := by
    intro r hrun
    exact hall ⟨false, 0⟩ .file _ r hinit rfl (hrun.map fun _ a _ h => ⟨.log a, .log h⟩)
  obtain ⟨pages, apages, k, l, k₀, l₀, h⟩ := LogInv.runs hinit hrun
  have halter : r.log.sih.alterLogHead = 0 := by rw [hsih]
  have hcount := (h.chains.exact_iff fun _ => halter).mp (hexact hrun)
  -- the log has one page
  have hone : pages.length = 1 := by
    rw [hsih, h.chains.noTwin rfl] at hcount
    exact hcount.symm
  have hne : pages ≠ [] := List.ne_nil_of_length_eq_add_one hone
  have hpages : ∀ p ∈ pages, IsPage p := fun p hp => h.chains.isPage p (List.mem_append_left _ hp)
  obtain ⟨-, -, hblock, -⟩ := h.tail.facts hne hpages
  have hk := h.tail.page hne
  have hnone : nextLogPage r.log.mem r.tail = 0 := by
    rw [h.chains.linked.nextOfTail hk hblock]
    exact List.getD_eq_default _ _ (by omega)
  have hspoiled : ¬ NotExtended r.log r.tail 40 := by
    intro hno
    have hlast : isLastEntry r.tail 40 = true := by
      rw [htail]
      decide
    have hnil := hno (by omega) (Or.inr ⟨hlast, hnone⟩)
    rw [hgrants, hsih, htail] at hnil
    revert hnil
    decide
  obtain ⟨r', hstep', hwrong⟩ := Counted.spoiled (e := .linkChange ⟨1, 0, 0, 0, 0, 0⟩) rfl
    ⟨pages, apages, k, l, k₀, l₀, h, fun _ => halter, hcount⟩ trivial rfl hspoiled
  exact hwrong (hexact (hrun.tail hstep'))

end

end Parfs
