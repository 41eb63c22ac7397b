/-
Appending to a log.

`novaGetAppendHead_spec` says once where the next entry goes: behind the last one, at the
start of the page that follows, or nowhere because there is no page; and what that does to
the memory.  The replica's log is followed by `novaGetAppendHead_alter`, which never extends
it.  `novaAppendLogEntry_spec` adds the entry itself.  Everything about runs of appends (the
scans, the page counters, the replica) is an invariant kept by it.
-/
import Parfs.Lib.Run
import Parfs.Proofs.LogExtend

namespace Parfs

open Lib ByteMem

/-- What finding the append head may do to the memory: the bytes in front of the page tails
stay, but for the one at the old tail `t`, which may get the marker, and so do the counters
and the replica addresses. -/
structure HeadFrame (m m' : ByteMem) (old : List Nat) (t : Nat) : Prop where
  body : ∀ x, x % 4096 < 4064 → x ≠ t → m' x = m x
  tails : ∀ p ∈ old, numEntries m' p = numEntries m p ∧ invalidEntries m' p = invalidEntries m p ∧
    alterPage m' p = alterPage m p

/-- The append head is at place `l'` of page number `k'`. -/
structure HeadAt (m : ByteMem) (curr : Nat) (pages qs : List Nat) (k l size k' l' : Nat) : Prop where
  curr : curr = (pages ++ qs).getD k' 0 + l'
  fit : l' + size ≤ 4064
  page : k' < (pages ++ qs).length
  /-- in the page of the tail, in the first page of all, or in the next page -/
  move : (pages ≠ [] ∧ k' = k ∧ l' = l) ∨ (pages = [] ∧ k' = 0 ∧ l' = 0) ∨
    (pages ≠ [] ∧ k' = k + 1 ∧ l' = 0 ∧ l + size > 4064 ∧ gotoNextPage m (pages.getD k 0 + l) = true)

/-- Whether an append head needs new pages, and how many are requested. -/
def Extends (s : LogState) (t size : Nat) : Prop :=
  t = 0 ∨ (isLastEntry t size = true ∧ nextLogPage s.mem t = 0)

/-- What `nova_get_append_head` does on the main log, whose tail is `t`. -/
structure HeadOk (env : LogEnv) (s s' : LogState) (curr : Nat) (pages qs apages as : List Nat)
    (t k l size : Nat) : Prop where
  chains : Chains env s' (pages ++ qs) (apages ++ as)
  frame : HeadFrame s.mem s'.mem (pages ++ apages) t
  clear : Clear s'.mem (qs ++ as)
  tail : ∀ k l, TailAt pages s.sih.logTail k l → TailAt (pages ++ qs) s'.sih.logTail k l
  alterTail : env.metadataCsum = true → ∀ k l, TailAt apages s.sih.alterLogTail k l →
    TailAt (apages ++ as) s'.sih.alterLogTail k l
  refused : curr = 0 → as = [] ∧
    (env.metadataCsum = true → (Extends s t size → Balanced s.grants (extensionPages s.sih t)) → qs = []) ∧
    (env.metadataCsum = false → qs = [])
  found : curr ≠ 0 → (∃ k' l', HeadAt s'.mem curr pages qs k l size k' l') ∧
    (env.metadataCsum = true → Paired s'.mem qs as)
  count : qs.length + (grantPages s'.grants).length ≤ (grantPages s.grants).length
  /-- an entry that fits needs no page -/
  fits : pages ≠ [] → l + size ≤ 4064 → curr = t ∧ s' = s ∧ qs = [] ∧ as = []

/-- What looking for an append head does, fault or not. -/
def HeadOutcome (env : LogEnv) (s : LogState) (pages apages : List Nat) (t k l size : Nat) :
    Except Fault (LogState × Nat) → Prop
  | .ok v => ∃ qs as, HeadOk env s v.1 v.2 pages qs apages as t k l size
  | .error f => env.metadataCsum = true ∧ Extends s t size ∧
      (Balanced s.grants (extensionPages s.sih t) →
        f = .loops ∧ env.fuel ≤ pages.length + (grantPages s.grants).length)

section Head

variable {env : LogEnv} {s s' : LogState} {m m' m'' : ByteMem} {pages apages qs as : List Nat}
  {k l t size tail curr : Nat}

theorem HeadFrame.refl : HeadFrame m m pages t := ⟨fun _ _ _ => rfl, fun _ _ => ⟨rfl, rfl, rfl⟩⟩

/-- Setting the marker. -/
theorem HeadFrame.flag (hpages : ∀ p ∈ pages, p % 4096 = 0) :
    HeadFrame m (novaSetNextPageFlag m t) pages t := by
  have htail : ∀ p ∈ pages, ∀ x, p + 4064 ≤ x → x < p + 4096 → novaSetNextPageFlag m t x = m x := by
    intro p hp x h1 h2
    have := hpages p hp
    exact novaSetNextPageFlag_frame (by omega)
  refine ⟨fun x _ hne => novaSetNextPageFlag_frame (Or.inl hne), ?_⟩
  intro p hp
  refine ⟨word_congr fun x h1 h2 => htail p hp x ?_ ?_, word_congr fun x h1 h2 => htail p hp x ?_ ?_,
    word_congr fun x h1 h2 => htail p hp x ?_ ?_⟩ <;>
    · unfold logBlockTail at *
      omega

/-- Growing the log behind the marker. -/
theorem HeadFrame.grow (h : HeadFrame m m' pages t) (hg : GrowFrame m' m'' pages) :
    HeadFrame m m'' pages t where
  body := fun x hx hne => (hg.body x hx).trans (h.body x hx hne)
  tails := fun p hp =>
    ⟨(hg.tails p hp).1.trans (h.tails p hp).1, (hg.tails p hp).2.1.trans (h.tails p hp).2.1,
      (hg.tails p hp).2.2.trans (h.tails p hp).2.2⟩

/-- The marker is no part of a page tail. -/
theorem nextPage_novaSetNextPageFlag {p : Nat} (hp : p % 4096 = 0) :
    nextPage (novaSetNextPageFlag m t) p = nextPage m p := by
  refine word_congr fun x h1 h2 => novaSetNextPageFlag_frame ?_
  unfold logBlockTail at *
  omega

theorem Chains.flag (hc : Chains env s pages apages) :
    Chains env { s with mem := novaSetNextPageFlag s.mem t } pages apages where
  fresh := hc.fresh
  isPage := hc.isPage
  linked := hc.linked.congr fun p hp =>
    nextPage_novaSetNextPageFlag (hc.isPage p (List.mem_append_left _ hp)).1
  head := hc.head
  twin := fun hcsum => ⟨(hc.twin hcsum).1.congr fun p hp =>
    nextPage_novaSetNextPageFlag (hc.isPage p (List.mem_append_right _ hp)).1, (hc.twin hcsum).2⟩
  noTwin := hc.noTwin
  short := hc.short

theorem appendHeadInPage_start {p : Nat} (hp : p % 4096 = 0) (hsize : size ≤ 4064) :
    appendHeadInPage s p size = (s, p) := by
  have hlast : isLastEntry p size = false := by
    unfold isLastEntry entryLoc logBlockTail
    simp only [decide_eq_false_iff_not]
    omega
  simp [appendHeadInPage, hlast]

/-- The tail of a log that has pages. -/
theorem TailAt.facts (ht : TailAt pages t k l) (hne : pages ≠ []) (hpages : ∀ p ∈ pages, IsPage p) :
    t = pages.getD k 0 + l ∧ t ≠ 0 ∧ blockOff t = pages.getD k 0 ∧
      ∀ size, isLastEntry t size = decide (l + size > 4064) := by
  have htail := ht.tail
  rw [if_neg hne] at htail
  have hplace := ht.place
  obtain ⟨hpa, hp0, -⟩ := hpages _ (getD_mem (ht.page hne))
  have hloc : entryLoc t = l := by
    unfold entryLoc
    omega
  refine ⟨htail, by omega, ?_, fun size => ?_⟩
  · unfold blockOff
    omega
  · unfold isLastEntry logBlockTail
    rw [hloc]

/-- The page behind the tail's. -/
theorem LinkedTo.nextOfTail (hlink : LinkedTo m 0 pages) (hk : k < pages.length)
    (hblock : blockOff t = pages.getD k 0) : nextLogPage m t = pages.getD (k + 1) 0 := by
  unfold nextLogPage
  rw [hblock]
  exact hlink.next hk

/-- **Where the next entry goes.** -/
theorem novaGetAppendHead_spec (hc : Chains env s pages apages)
    (hcurr : t = if tail ≠ 0 then tail else s.sih.logTail) (ht : TailAt pages t k l)
    {i : Nat} (htwin : env.metadataCsum = true → l + size > 4064 → k + 1 = pages.length →
      k + 1 = apages.length ∧ i < apages.length ∧ blockOff s.sih.alterLogTail = apages.getD i 0)
    (hsize : size ≤ 4064) :
    HeadOutcome env s pages apages t k l size (novaGetAppendHead env s tail size .main) := by
  generalize h : novaGetAppendHead env s tail size .main = v
  have halign : ∀ p ∈ pages ++ apages, p % 4096 = 0 := fun p hp => (hc.isPage p hp).1
  unfold novaGetAppendHead at h
  simp only [← hcurr] at h
  by_cases hne : pages = []
  · -- the log is empty
    subst hne
    obtain rfl : apages = [] := List.length_eq_zero_iff.mp (Nat.le_zero.mp hc.short)
    have ht0 : t = 0 := ht.tail
    rw [ht0] at h ⊢
    have hlast : isLastEntry 0 size = false := by
      unfold isLastEntry entryLoc logBlockTail
      simp only [decide_eq_false_iff_not]
      omega
    simp only [hlast, Bool.false_eq_true, false_and, or_false, if_true, if_false, ne_eq,
      not_true_eq_false] at h
    have hout := novaExtendInodeLog_first hc
    cases hext : novaExtendInodeLog env s 0 with
    | error f =>
        rw [hext] at h hout
        simp only [Except.map] at h
        subst h
        obtain ⟨hcsum, hbal⟩ := hout
        exact ⟨hcsum, Or.inl rfl, hbal⟩
    | ok r =>
        obtain ⟨s₁, curr₁⟩ := r
        rw [hext] at h hout
        simp only [Except.map] at h
        obtain ⟨qs, as, hg⟩ := hout
        have hframe : HeadFrame s.mem s₁.mem [] 0 := HeadFrame.refl.grow hg.frame
        by_cases h0 : curr₁ = 0
        · simp only [h0, if_true] at h
          subst h
          obtain ⟨has, hq1, hq2⟩ := hg.refused h0
          exact ⟨qs, as, hg.chains, hframe, hg.clear, hg.tail, hg.alterTail,
            fun _ => ⟨has, fun hcs hbal => hq1 hcs (hbal (Or.inl rfl)), hq2⟩, fun hne => absurd rfl hne, hg.count,
            fun hne => absurd rfl hne⟩
        · obtain ⟨hqs, hhead, hpair⟩ := hg.grown h0
          replace hhead : curr₁ = qs.headD 0 := hhead
          have hq := hg.chains.isPage curr₁
            (List.mem_append_left _ (List.mem_append_right _ (hhead ▸ headD_mem hqs)))
          simp only [h0, if_false, appendHeadInPage_start hq.1 hsize] at h
          subst h
          refine ⟨qs, as, hg.chains, hframe, hg.clear, hg.tail, hg.alterTail, fun hz => absurd hz h0,
            fun _ => ⟨⟨0, 0, ?_, by omega, List.length_pos_of_ne_nil (by simpa using hqs),
              Or.inr (Or.inl ⟨rfl, rfl, rfl⟩)⟩, hpair⟩, hg.count, fun hne => absurd rfl hne⟩
          rw [hhead]
          cases qs with
          | nil => exact absurd rfl hqs
          | cons => rfl
  have hk := ht.page hne
  obtain ⟨htail, ht0, hblock, hlastAll⟩ :=
    ht.facts hne fun p hp => hc.isPage p (List.mem_append_left _ hp)
  have hlast := hlastAll size
  have hmem : pages.getD k 0 ∈ pages := getD_mem hk
  have hnext := hc.linked.nextOfTail hk hblock
  have hnil : ∀ {s₁ : LogState}, Chains env s₁ pages apages → Chains env s₁ (pages ++ []) (apages ++ []) := by
    intro s₁ h
    rwa [List.append_nil, List.append_nil]
  by_cases hfit : l + size ≤ 4064
  · -- the entry fits behind the last one
    have hno : isLastEntry t size = false := by
      rw [hlast]
      simpa using hfit
    simp only [hno, ht0, Bool.false_eq_true, false_and, or_self, if_false, appendHeadInPage] at h
    subst h
    refine ⟨[], [], hnil hc, HeadFrame.refl, by simp [Clear], ?_, ?_, fun hz => absurd hz ht0, fun _ =>
      ⟨⟨k, l, ?_, hfit, ?_, Or.inl ⟨hne, rfl, rfl⟩⟩, fun _ => List.Forall₂.nil⟩,
      by simp, fun _ _ => ⟨rfl, rfl, rfl, rfl⟩⟩
    · intro k l ht
      rwa [List.append_nil]
    · intro _ k l ht
      rwa [List.append_nil]
    · rw [List.append_nil]
      exact htail
    · rw [List.append_nil]
      exact hk
  have hyes : isLastEntry t size = true := by
    rw [hlast]
    simpa using hfit
  have hgoto := novaSetNextPageFlag_goto (m := s.mem) (p := t)
  have hflag := HeadFrame.flag (m := s.mem) (t := t) halign
  by_cases hmore : k + 1 < pages.length
  · -- the next page is there already
    have hnextmem : pages.getD (k + 1) 0 ∈ pages := getD_mem hmore
    have hnext0 := (hc.isPage _ (List.mem_append_left _ hnextmem)).2.1
    have hnext' : nextLogPage (novaSetNextPageFlag s.mem t) t = pages.getD (k + 1) 0 :=
      hc.flag.linked.nextOfTail hk hblock
    simp only [hyes, ht0, hnext, hnext0, and_false, or_self, if_false, appendHeadInPage, if_true,
      hnext'] at h
    subst h
    refine ⟨[], [], hnil hc.flag, hflag, by simp [Clear], ?_, ?_, fun hz => absurd hz hnext0, fun _ =>
      ⟨⟨k + 1, 0, ?_, by omega, ?_, Or.inr (Or.inr ⟨hne, rfl, rfl, by omega, ?_⟩)⟩,
        fun _ => List.Forall₂.nil⟩, by simp, fun _ hle => absurd hle hfit⟩
    · intro k l ht
      rwa [List.append_nil]
    · intro _ k l ht
      rwa [List.append_nil]
    · rw [List.append_nil]
      rfl
    · rw [List.append_nil]
      exact hmore
    · rw [← htail]
      exact hgoto
  · -- new pages are needed
    have hkl : k + 1 = pages.length := by omega
    have hnone : pages.getD (k + 1) 0 = 0 := List.getD_eq_default _ _ (by omega)
    simp only [hyes, hnext, hnone, and_self, or_true, if_true, ne_eq, not_true_eq_false, if_false] at h
    have hmarked : Chains env { s with mem := novaSetNextPageFlag s.mem t } pages apages := hc.flag
    have hout := novaExtendInodeLog_next hmarked ht0 hkl hblock fun hcs => htwin hcs (by omega) hkl
    cases hext : novaExtendInodeLog env { s with mem := novaSetNextPageFlag s.mem t } t with
    | error f =>
        rw [hext] at h hout
        simp only [Except.map] at h
        subst h
        obtain ⟨hcsum, hbal⟩ := hout
        exact ⟨hcsum, Or.inr ⟨hyes, hnext.trans hnone⟩, hbal⟩
    | ok r =>
        obtain ⟨s₁, curr₁⟩ := r
        rw [hext] at h hout
        simp only [Except.map] at h
        obtain ⟨qs, as, hg⟩ := hout
        have hframe := hflag.grow hg.frame
        by_cases h0 : curr₁ = 0
        · simp only [h0, if_true] at h
          subst h
          obtain ⟨has, hq1, hq2⟩ := hg.refused h0
          exact ⟨qs, as, hg.chains, hframe, hg.clear, hg.tail, hg.alterTail, fun _ => ⟨has,
            fun hcs hbal => hq1 hcs (hbal (Or.inr ⟨hyes, hnext.trans hnone⟩)), hq2⟩,
            fun hne => absurd rfl hne, hg.count, fun _ hle => absurd hle hfit⟩
        · obtain ⟨hqs, hhead, hpair⟩ := hg.grown h0
          replace hhead : curr₁ = qs.headD 0 := hhead
          have hq := hg.chains.isPage curr₁
            (List.mem_append_left _ (List.mem_append_right _ (hhead ▸ headD_mem hqs)))
          simp only [h0, if_false, appendHeadInPage_start hq.1 hsize] at h
          subst h
          refine ⟨qs, as, hg.chains, hframe, hg.clear, hg.tail, hg.alterTail, fun hz => absurd hz h0,
            fun _ => ⟨⟨k + 1, 0, ?_, by omega, ?_, Or.inr (Or.inr ⟨hne, rfl, rfl, by omega, ?_⟩)⟩, hpair⟩,
            hg.count, fun _ hle => absurd hle hfit⟩
          · rw [List.getD_append_right _ _ _ _ (by omega), hkl, Nat.sub_self, hhead]
            cases qs <;> rfl
          · have := List.length_pos_of_ne_nil hqs
            rw [List.length_append]
            omega
          · -- the marker is still there
            rw [← htail]
            unfold gotoNextPage at hgoto ⊢
            by_cases hend : entryLoc t + 32 > logBlockTail
            · simp [hend]
            · have hloc : t % 4096 < 4064 := by
                unfold entryLoc logBlockTail at hend
                omega
              have hsame : s₁.mem t = novaSetNextPageFlag s.mem t t := hg.frame.body t hloc
              unfold novaGetEntryType at hgoto ⊢
              rw [hsame]
              exact hgoto

/-- **Where the replica of the next entry goes**, when the replica's log has a page there. -/
theorem novaGetAppendHead_alter (env : LogEnv) (s : LogState) (tail : Nat) (hlink : LinkedTo s.mem 0 apages) (hpages : ∀ p ∈ apages, IsPage p)
    (hcurr : t = if tail ≠ 0 then tail else s.sih.alterLogTail) (ht : TailAt apages t k l)
    (hsize : size ≤ 4064) :
    ∃ m curr, novaGetAppendHead env s tail size .alter = .ok ({ s with mem := m }, curr) ∧
      (∀ x, x ≠ t ∨ 4064 ≤ x % 4096 → m x = s.mem x) ∧ LinkedTo m 0 apages ∧
      (curr = 0 ∨ ∃ k' l', HeadAt m curr apages [] k l size k' l') := by
  unfold novaGetAppendHead
  simp only [← hcurr]
  by_cases hne : apages = []
  · subst hne
    have ht0 : t = 0 := ht.tail
    have hlast : isLastEntry 0 size = false := by
      unfold isLastEntry entryLoc logBlockTail
      simp only [decide_eq_false_iff_not]
      omega
    refine ⟨s.mem, 0, ?_, fun _ _ => rfl, trivial, Or.inl rfl⟩
    simp [ht0, hlast]
  have hk := ht.page hne
  obtain ⟨htail, ht0, hblock, hlastAll⟩ := ht.facts hne hpages
  have hlast := hlastAll size
  have hnext := hlink.nextOfTail hk hblock
  have hflag : ∀ x, x ≠ t ∨ 4064 ≤ x % 4096 → novaSetNextPageFlag s.mem t x = s.mem x := by
    intro x hx
    exact novaSetNextPageFlag_frame (by omega)
  have hlink' : LinkedTo (novaSetNextPageFlag s.mem t) 0 apages :=
    hlink.congr fun p hp => nextPage_novaSetNextPageFlag (hpages p hp).1
  by_cases hfit : l + size ≤ 4064
  · have hno : isLastEntry t size = false := by
      rw [hlast]
      simpa using hfit
    refine ⟨s.mem, t, ?_, fun _ _ => rfl, hlink, Or.inr ⟨k, l, ?_, hfit, ?_, Or.inl ⟨hne, rfl, rfl⟩⟩⟩
    · simp only [hno, ht0, Bool.false_eq_true, false_and, or_self, if_false, appendHeadInPage]
    · rw [List.append_nil]
      exact htail
    · rw [List.append_nil]
      exact hk
  have hyes : isLastEntry t size = true := by
    rw [hlast]
    simpa using hfit
  by_cases hmore : k + 1 < apages.length
  · have hnext0 := (hpages _ (getD_mem hmore)).2.1
    have hnext' : nextLogPage (novaSetNextPageFlag s.mem t) t = apages.getD (k + 1) 0 :=
      hlink'.nextOfTail hk hblock
    refine ⟨novaSetNextPageFlag s.mem t, apages.getD (k + 1) 0, ?_, hflag, hlink', Or.inr ⟨k + 1, 0, ?_,
      by omega, ?_, Or.inr (Or.inr ⟨hne, rfl, rfl, by omega, ?_⟩)⟩⟩
    · simp only [hyes, ht0, hnext, hnext0, and_false, or_self, if_false, appendHeadInPage, if_true, hnext']
    · rw [List.append_nil]
      rfl
    · rw [List.append_nil]
      exact hmore
    · rw [← htail]
      exact novaSetNextPageFlag_goto
  · have hnone : apages.getD (k + 1) 0 = 0 := List.getD_eq_default _ _ (by omega)
    refine ⟨novaSetNextPageFlag s.mem t, 0, ?_, hflag, hlink', Or.inl rfl⟩
    simp only [hyes, hnext, hnone, and_self, or_true, if_true, ne_eq, reduceCtorEq, not_false_eq_true]

end Head

/-! ### Putting an entry -/

/-- What the callers see to: a dentry has a name, and its length is that of its name. -/
def NovaLogEntryInfo.Ok : NovaLogEntryInfo → Prop
  | .dirLog d => 1 ≤ d.name.length ∧ d.name.length ≤ 255 ∧ d.deLen = novaDirLogRecLen d.name.length
  | _ => True

section Put

variable {env : LogEnv} {m : ByteMem} {e : NovaLogEntryInfo} {p x : Nat}

theorem NovaLogEntryInfo.Ok.size_bounds (h : e.Ok) : 40 ≤ e.size ∧ e.size ≤ 304 := by
  cases e with
  | dirLog d =>
      obtain ⟨h1, h2, h3⟩ := h
      unfold novaDirLogRecLen at h3
      show 40 ≤ d.deLen ∧ d.deLen ≤ 304
      omega
  | fileWrite => simp [size, type, novaGetLogEntrySize]
  | setAttr => simp [size, type, novaGetLogEntrySize]
  | linkChange => simp [size, type, novaGetLogEntrySize]
  | mmapWrite => simp [size, type, novaGetLogEntrySize]
  | snapshotInfo => simp [size, type, novaGetLogEntrySize]

theorem NovaLogEntryInfo.Ok.bytes_le (h : e.Ok) : e.bytes.length ≤ e.size := by
  cases e with
  | dirLog d =>
      obtain ⟨h1, h2, h3⟩ := h
      unfold novaDirLogRecLen at h3
      show d.bytes.length ≤ d.deLen
      simp only [NovaDentry.bytes, List.length_append, leBytes_length]
      omega
  | fileWrite d => simp [bytes, NovaFileWriteEntry.bytes, size, type, novaGetLogEntrySize]
  | setAttr d => simp [bytes, NovaSetattrLogentry.bytes, size, type, novaGetLogEntrySize]
  | linkChange d => simp [bytes, NovaLinkChangeEntry.bytes, size, type, novaGetLogEntrySize]
  | mmapWrite d => simp [bytes, NovaMmapEntry.bytes, size, type, novaGetLogEntrySize]
  | snapshotInfo d => simp [bytes, NovaSnapshotInfoEntry.bytes, size, type, novaGetLogEntrySize]

theorem NovaLogEntryInfo.Ok.padded_length (h : e.Ok) : e.padded.length = e.size := by
  have := h.bytes_le
  rw [NovaLogEntryInfo.padded, List.length_append, List.length_replicate]
  omega

theorem novaPutLogEntry_of_outside (he : e.Ok) (hx : x < p ∨ p + e.size ≤ x) :
    novaPutLogEntry m p e x = m x := by
  have := he.bytes_le
  unfold novaPutLogEntry
  rw [write_of_outside (by omega), write_of_outside (by rw [List.length_replicate]; exact hx)]

/-- **The entry is there as a whole.** -/
theorem read_novaPutLogEntry (he : e.Ok) : (novaPutLogEntry m p e).read p e.size = e.padded := by
  have hle := he.bytes_le
  have hlen := he.padded_length
  have hsame : ∀ x, p ≤ x → x < p + e.size →
      novaPutLogEntry m p e x = m.write p e.padded x := by
    intro x h1 h2
    obtain ⟨i, rfl⟩ : ∃ i, x = p + i := ⟨x - p, by omega⟩
    rw [write_of_inside (by omega)]
    unfold novaPutLogEntry NovaLogEntryInfo.padded
    by_cases hi : i < e.bytes.length
    · rw [write_of_inside hi, List.getD_append _ _ _ _ hi]
    · rw [write_of_outside (by omega), write_of_inside (by rw [List.length_replicate]; omega),
        List.getD_append_right _ _ _ _ (by omega), List.getD_replicate _ (by omega),
        List.getD_replicate _ (by omega)]
  rw [read_congr hsame, ← hlen]
  exact read_write

theorem padded_head : ∃ bs, e.padded = leBytes 1 e.type.code ++ bs := by
  cases e <;> exact ⟨_, rfl⟩

/-- The memory after an entry was appended at `p`. -/
def appendMem (m : ByteMem) (p : Nat) (e : NovaLogEntryInfo) : ByteMem :=
  (novaIncPageNumEntries (novaPutLogEntry m p e) p).setWord (p + e.size) 1 0

theorem novaIncPageNumEntries_of_outside (hx : x < blockOff p + 4068 ∨ blockOff p + 4072 ≤ x) :
    novaIncPageNumEntries m p x = m x := by
  unfold novaIncPageNumEntries novaSetPageNumEntries logBlockTail
  exact setWord_of_outside (by omega)

/-- In front of the page tails only the entry and the byte behind it change. -/
theorem appendMem_body (he : e.Ok) (hx : x % 4096 < 4064) (hout : x < p ∨ p + e.size < x) :
    appendMem m p e x = m x := by
  unfold appendMem
  rw [setWord_of_outside (by omega), novaIncPageNumEntries_of_outside (by unfold blockOff; omega),
    novaPutLogEntry_of_outside he (by omega)]

theorem read_appendMem (he : e.Ok) (hfit : p % 4096 + e.size ≤ 4064) :
    (appendMem m p e).read p e.size = e.padded := by
  rw [← read_novaPutLogEntry (m := m) (p := p) he]
  refine read_congr fun x h1 h2 => ?_
  unfold appendMem
  rw [setWord_of_outside (by omega), novaIncPageNumEntries_of_outside (by unfold blockOff; omega)]

/-- The byte behind the entry is cleared. -/
theorem appendMem_after : appendMem m p e (p + e.size) = 0 := by
  have h := novaGetEntryType_setWord (m := novaIncPageNumEntries (novaPutLogEntry m p e) p)
    (p := p + e.size) (v := 0) (by decide)
  exact UInt8.toNat_inj.mp h

theorem appendMem_tail (he : e.Ok) (hfit : p % 4096 + e.size ≤ 4064) (hx : 4064 ≤ x % 4096)
    (hout : x < blockOff p + 4068 ∨ blockOff p + 4072 ≤ x) (hne : x ≠ p + e.size) :
    appendMem m p e x = m x := by
  unfold appendMem
  rw [setWord_of_outside (by omega), novaIncPageNumEntries_of_outside hout,
    novaPutLogEntry_of_outside he (by omega)]

theorem word_appendMem {a : Nat} (he : e.Ok) (hfit : p % 4096 + e.size ≤ 4064)
    (ha : 4072 ≤ a % 4096) (ha' : a % 4096 + 8 ≤ 4096) :
    (appendMem m p e).word a 8 = m.word a 8 := by
  refine word_congr fun x h1 h2 => ?_
  exact appendMem_tail he hfit (by omega) (by unfold blockOff; omega) (by omega)

theorem nextPage_appendMem {q : Nat} (he : e.Ok) (hfit : p % 4096 + e.size ≤ 4064)
    (hq : q % 4096 = 0) : nextPage (appendMem m p e) q = nextPage m q := by
  unfold nextPage logBlockTail
  exact word_appendMem he hfit (by omega) (by omega)

theorem alterPage_appendMem {q : Nat} (he : e.Ok) (hfit : p % 4096 + e.size ≤ 4064)
    (hq : q % 4096 = 0) : alterPage (appendMem m p e) q = alterPage m q := by
  unfold alterPage logBlockTail
  exact word_appendMem he hfit (by omega) (by omega)

end Put

/-! ### The whole append -/

/-- What an append does after its head `curr` was found in state `s₁`, where the replica's
log has the pages `apages` and its tail `ta` at place `l` of page number `k`. -/
inductive Appended (env : LogEnv) (s₁ : LogState) (curr : Nat) (e : NovaLogEntryInfo) (u : LogUpdate)
    (apages : List Nat) (ta k l : Nat) : LogState → Except Errno LogUpdate → Prop
  /-- there is no room -/
  | full (h0 : curr = 0) : Appended env s₁ curr e u apages ta k l s₁ (.error .enospc)
  /-- the replica's log has no room -/
  | half {m : ByteMem} (h0 : curr ≠ 0) (hcsum : env.metadataCsum = true)
      (hmem : ∀ x, x ≠ ta ∨ 4064 ≤ x % 4096 → m x = appendMem s₁.mem curr e x) :
      Appended env s₁ curr e u apages ta k l { s₁ with mem := m } (.error .enospc)
  | single (h0 : curr ≠ 0) (hcsum : env.metadataCsum = false) :
      Appended env s₁ curr e u apages ta k l { s₁ with mem := appendMem s₁.mem curr e }
        (.ok { u with currEntry := curr, tail := curr + e.size })
  | twin {m : ByteMem} {acurr k' l' : Nat} (h0 : curr ≠ 0) (hcsum : env.metadataCsum = true)
      (hmem : ∀ x, x ≠ ta ∨ 4064 ≤ x % 4096 → m x = appendMem s₁.mem curr e x)
      (hat : HeadAt m acurr apages [] k l e.size k' l') :
      Appended env s₁ curr e u apages ta k l { s₁ with mem := novaPutLogEntry m acurr e }
        (.ok ⟨curr + e.size, acurr + e.size, curr, acurr⟩)

section Append

variable {env : LogEnv} {s s' : LogState} {pages apages : List Nat} {k l t ta i : Nat} {u : LogUpdate}
  {e : NovaLogEntryInfo} {res : Except Errno LogUpdate}

/-- The head of an append leaves room for the entry in its page. -/
theorem HeadAt.loc {m : ByteMem} {curr size k' l' : Nat} {qs : List Nat}
    (h : HeadAt m curr pages qs k l size k' l') (hpages : ∀ p ∈ pages ++ qs, p % 4096 = 0)
    (hsize : 0 < size) : curr % 4096 = l' ∧ blockOff curr = (pages ++ qs).getD k' 0 := by
  have hcurr := h.curr
  have hfit := h.fit
  have halign := hpages _ (getD_mem h.page)
  unfold blockOff
  omega

/-- The replica's tail after the append head was found. -/
theorem HeadOk.alterTailAt {s₁ : LogState} {curr size : Nat} {qs as : List Nat}
    (hok : HeadOk env s s₁ curr pages qs apages as t k l size) (hcsum : env.metadataCsum = true)
    (hta : TailAt apages (if u.alterTail ≠ 0 then u.alterTail else s.sih.alterLogTail) k l) :
    TailAt (apages ++ as) (if u.alterTail ≠ 0 then u.alterTail else s₁.sih.alterLogTail) k l := by
  by_cases hu : u.alterTail = 0
  · rw [if_neg (by simpa using hu)] at hta ⊢
    exact hok.alterTail hcsum k l hta
  · rw [if_pos hu] at hta ⊢
    refine hta.extend ?_
    intro hnil
    have := hta.tail
    rw [if_pos hnil] at this
    exact hu this

/-- Places of different pages are different. -/
theorem page_sep {j o o' : Nat} (hnodup : pages.Nodup) (hpages : ∀ p ∈ pages, p % 4096 = 0)
    (hi : i < pages.length) (hj : j < pages.length) (hij : i ≠ j) (ho : o < 4096) (ho' : o' < 4096) :
    pages.getD i 0 + o ≠ pages.getD j 0 + o' := by
  have h1 := hpages _ (getD_mem hi)
  have h2 := hpages _ (getD_mem hj)
  have hne : pages.getD i 0 ≠ pages.getD j 0 := by
    rw [List.getD_eq_getElem _ _ hi, List.getD_eq_getElem _ _ hj]
    exact fun h => hij ((List.getElem_inj hnodup).mp h)
  omega

/-- A marker is seen by its byte. -/
theorem gotoNextPage_congr {m m' : ByteMem} (h : t % 4096 < 4064 → m' t = m t) :
    gotoNextPage m' t = gotoNextPage m t := by
  unfold gotoNextPage novaGetEntryType entryLoc logBlockTail
  by_cases ht : t % 4096 < 4064
  · rw [h ht]
  · have : t % 4096 + 32 > 4064 := by omega
    simp [this]

/-- What was laid out, with one entry more where the append head is. -/
theorem Laid.append {At : Nat → NovaLogEntryInfo → Prop} {Left : Nat → Prop} {m : ByteMem}
    {qs : List Nat} {es : List (Nat × NovaLogEntryInfo)} {curr k' l' : Nat}
    (h : Laid At Left pages es k l) (hat : HeadAt m curr pages qs k l e.size k' l')
    (hempty : pages = [] → es = []) (hpage : pages ≠ [] → k < pages.length)
    (hleft : pages ≠ [] → k' = k + 1 → gotoNextPage m (pages.getD k 0 + l) = true →
      Left (pages.getD k 0 + l)) (hent : At curr e) :
    Laid At Left (pages ++ qs) (es ++ [(curr, e)]) k' (l' + e.size) := by
  have hcurr := hat.curr
  have hfit := hat.fit
  have hk' := hat.page
  rcases hat.move with ⟨hne, rfl, rfl⟩ | ⟨rfl, rfl, rfl⟩ | ⟨hne, rfl, rfl, -, hgoto⟩
  · rw [hcurr] at hent ⊢
    exact Laid.here (h.extend hne) hfit hent
  · rw [hempty rfl]
    rw [hcurr] at hent ⊢
    exact Laid.here Laid.nil hfit hent
  · have hk : (pages ++ qs).getD k 0 = pages.getD k 0 := List.getD_append _ _ _ _ (hpage hne)
    rw [Nat.add_zero] at hcurr
    rw [Nat.zero_add] at hfit ⊢
    rw [hcurr] at hent ⊢
    refine Laid.next (h.extend hne) ?_ hk' hfit hent
    rw [hk]
    exact hleft hne rfl hgoto

/-- A place in front of the append head is not in the way of the entry put there. -/
theorem HeadAt.apart {m : ByteMem} {qs : List Nat} {curr size k' l' o : Nat}
    (hat : HeadAt m curr pages qs k l size k' l') (hnodup : (pages ++ qs).Nodup)
    (hpages : ∀ p ∈ pages ++ qs, p % 4096 = 0) (hi : i < pages.length) (ho : o ≤ 4064)
    (hik : i = k' → o < l') :
    pages.getD i 0 + o < curr ∨ curr + size < pages.getD i 0 + o := by
  have hcurr := hat.curr
  have hfit := hat.fit
  have hext : (pages ++ qs).getD i 0 = pages.getD i 0 := List.getD_append _ _ _ _ hi
  have hi' : i < (pages ++ qs).length := by
    rw [List.length_append]
    omega
  by_cases hk : i = k'
  · have := hik hk
    rw [← hk, hext] at hcurr
    omega
  · have h1 := hpages _ (getD_mem hi')
    have h2 := hpages _ (getD_mem hat.page)
    have hsep := page_sep hnodup hpages hi' hat.page hk (by omega : 0 < 4096) (by omega : 0 < 4096)
    rw [hext] at h1 hsep
    omega

/-- A place in front of the tail is in front of the append head. -/
theorem HeadAt.before {m : ByteMem} {qs : List Nat} {curr size k' l' o : Nat}
    (hat : HeadAt m curr pages qs k l size k' l') (hne : pages ≠ []) (hi : i ≤ k)
    (hik : i = k → o < l) : i = k' → o < l' := by
  intro hk
  rcases hat.move with ⟨-, rfl, rfl⟩ | ⟨hnil, -⟩ | ⟨-, rfl, -⟩
  · exact hik hk
  · exact absurd hnil hne
  · omega

/-- The tail behind an entry put at the append head. -/
theorem HeadAt.tailAt {m : ByteMem} {qs : List Nat} {curr size k' l' : Nat}
    (hat : HeadAt m curr pages qs k l size k' l') : TailAt (pages ++ qs) (curr + size) k' (l' + size) where
  tail := by
    rw [if_neg, hat.curr, Nat.add_assoc]
    intro hnil
    have := hat.page
    rw [hnil] at this
    cases this
  place := hat.fit
  page := fun _ => hat.page
  start := fun hnil => by
    have := hat.page
    rw [hnil] at this
    cases this

/-- The entry and its replica take the same place of the same page. -/
theorem HeadAt.same {m m' : ByteMem} {qs : List Nat} {curr acurr size k' l' k'' l'' : Nat}
    (hat : HeadAt m curr pages qs k l size k' l') (hat' : HeadAt m' acurr apages [] k l size k'' l'')
    (hstart : pages = [] → k = 0 ∧ l = 0) (hsize : size ≤ 4064) : k'' = k' ∧ l'' = l' := by
  have hfit := hat.fit
  have hfit' := hat'.fit
  rcases hat.move with ⟨-, rfl, rfl⟩ | ⟨hnil, rfl, rfl⟩ | ⟨-, rfl, rfl, hlast, -⟩ <;>
    rcases hat'.move with ⟨-, rfl, rfl⟩ | ⟨hnil', rfl, rfl⟩ | ⟨-, rfl, rfl, hlast', -⟩
  · exact ⟨rfl, rfl⟩
  · have := hat'.page
    rw [hnil'] at this
    cases this
  · omega
  · obtain ⟨rfl, rfl⟩ := hstart hnil
    exact ⟨rfl, rfl⟩
  · exact ⟨rfl, rfl⟩
  · obtain ⟨rfl, rfl⟩ := hstart hnil
    omega
  · omega
  · have := hat'.page
    rw [hnil'] at this
    cases this
  · exact ⟨rfl, rfl⟩

/-- What an append does, fault or not. -/
def AppendOutcome (env : LogEnv) (s : LogState) (e : NovaLogEntryInfo) (u : LogUpdate)
    (pages apages : List Nat) (t k l : Nat) : Except Fault (LogState × Except Errno LogUpdate) → Prop
  | .ok v => ∃ s₁ curr qs as ta, HeadOk env s s₁ curr pages qs apages as t k l e.size ∧
      (env.metadataCsum = true → TailAt (apages ++ as) ta k l) ∧
      Appended env s₁ curr e u (apages ++ as) ta k l v.1 v.2
  | .error f => env.metadataCsum = true ∧ Extends s t e.size ∧
      (Balanced s.grants (extensionPages s.sih t) →
        f = .loops ∧ env.fuel ≤ pages.length + (grantPages s.grants).length)

/-- The same, with the head it found. -/
def AppendRan (env : LogEnv) (s : LogState) (e : NovaLogEntryInfo) (u : LogUpdate)
    (pages apages : List Nat) (t k l : Nat) : Except Fault (LogState × Except Errno LogUpdate) → Prop
  | .ok v => ∃ s₁ curr qs as ta, novaGetAppendHead env s u.tail e.size .main = .ok (s₁, curr) ∧
      HeadOk env s s₁ curr pages qs apages as t k l e.size ∧
      (env.metadataCsum = true → TailAt (apages ++ as) ta k l) ∧
      Appended env s₁ curr e u (apages ++ as) ta k l v.1 v.2
  | .error f => env.metadataCsum = true ∧ Extends s t e.size ∧
      (Balanced s.grants (extensionPages s.sih t) →
        f = .loops ∧ env.fuel ≤ pages.length + (grantPages s.grants).length)

/-- **Appending an entry.** -/
theorem novaAppendLogEntry_ran (hc : Chains env s pages apages)
    (hcurr : t = if u.tail ≠ 0 then u.tail else s.sih.logTail) (ht : TailAt pages t k l)
    (hta : env.metadataCsum = true →
      TailAt apages (if u.alterTail ≠ 0 then u.alterTail else s.sih.alterLogTail) k l)
    (htwin : env.metadataCsum = true → l + e.size > 4064 → k + 1 = pages.length →
      k + 1 = apages.length ∧ i < apages.length ∧ blockOff s.sih.alterLogTail = apages.getD i 0)
    (he : e.Ok) : AppendRan env s e u pages apages t k l (novaAppendLogEntry env s e u) := by
  have hsize := he.size_bounds
  have hout := novaGetAppendHead_spec hc hcurr ht htwin (by omega : e.size ≤ 4064)
  generalize h : novaAppendLogEntry env s e u = v
  unfold novaAppendLogEntry at h
  cases hhead : novaGetAppendHead env s u.tail e.size .main with
  | error f =>
      rw [hhead] at h hout
      simp only [Except.bind] at h
      subst h
      exact hout
  | ok r =>
      obtain ⟨s₁, curr⟩ := r
      rw [hhead] at h hout
      simp only [Except.bind] at h
      obtain ⟨qs, as, hok⟩ := hout
      by_cases h0 : curr = 0
      · simp only [h0, if_true] at h
        subst h
        exact ⟨s₁, curr, qs, as, _, hhead, hok, fun hcsum => hok.alterTailAt hcsum (hta hcsum), Appended.full h0⟩
      simp only [h0, if_false] at h
      by_cases hcsum : env.metadataCsum = true
      swap
      · have hcs : env.metadataCsum = false := by simpa using hcsum
        simp only [hcs, Bool.false_eq_true, if_false] at h
        subst h
        exact ⟨s₁, curr, qs, as, _, hhead, hok, fun hcsum => hok.alterTailAt hcsum (hta hcsum),
          Appended.single h0 hcs⟩
      · simp only [hcsum, if_true] at h
        obtain ⟨⟨k', l', hat⟩, -⟩ := hok.found h0
        have halign : ∀ p ∈ pages ++ qs, p % 4096 = 0 :=
          fun p hp => (hok.chains.isPage p (List.mem_append_left _ hp)).1
        have hfit : curr % 4096 + e.size ≤ 4064 := by
          have hcurrAt := hat.fit
          have hloc : curr % 4096 = l' := (hat.loc halign (by omega)).1
          omega
        have hapages : ∀ p ∈ apages ++ as, IsPage p :=
          fun p hp => hok.chains.isPage p (List.mem_append_right _ hp)
        have hlink : LinkedTo (appendMem s₁.mem curr e) 0 (apages ++ as) :=
          (hok.chains.twin hcsum).1.congr fun p hp => nextPage_appendMem he hfit (hapages p hp).1
        obtain ⟨m, acurr, halter, hmem, -, hplace⟩ :=
          novaGetAppendHead_alter env { s₁ with mem := appendMem s₁.mem curr e } u.alterTail hlink hapages
            rfl (hok.alterTailAt hcsum (hta hcsum)) (by omega : e.size ≤ 4064)
        have halter' : novaGetAppendHead env { s₁ with mem :=
            (novaIncPageNumEntries (novaPutLogEntry s₁.mem curr e) curr).setWord (curr + e.size) 1 0 }
            u.alterTail e.size .alter = .ok ({ s₁ with mem := m }, acurr) := halter
        rw [halter'] at h
        simp only [Except.map] at h
        by_cases ha0 : acurr = 0
        · simp only [ha0, if_true] at h
          subst h
          exact ⟨s₁, curr, qs, as, _, hhead, hok, fun hcsum => hok.alterTailAt hcsum (hta hcsum),
            Appended.half h0 hcsum hmem⟩
        · obtain ⟨k'', l'', hat'⟩ := hplace.resolve_left ha0
          simp only [ha0, if_false] at h
          subst h
          exact ⟨s₁, curr, qs, as, _, hhead, hok, fun hcsum => hok.alterTailAt hcsum (hta hcsum),
            Appended.twin h0 hcsum hmem hat'⟩

theorem novaAppendLogEntry_spec (hc : Chains env s pages apages)
    (hcurr : t = if u.tail ≠ 0 then u.tail else s.sih.logTail) (ht : TailAt pages t k l)
    (hta : env.metadataCsum = true →
      TailAt apages (if u.alterTail ≠ 0 then u.alterTail else s.sih.alterLogTail) k l)
    (htwin : env.metadataCsum = true → l + e.size > 4064 → k + 1 = pages.length →
      k + 1 = apages.length ∧ i < apages.length ∧ blockOff s.sih.alterLogTail = apages.getD i 0)
    (he : e.Ok) : AppendOutcome env s e u pages apages t k l (novaAppendLogEntry env s e u) := by
  have hran := novaAppendLogEntry_ran hc hcurr ht hta htwin he
  cases h : novaAppendLogEntry env s e u with
  | error f =>
      rw [h] at hran
      exact hran
  | ok v =>
      rw [h] at hran
      obtain ⟨s₁, curr, qs, as, ta, -, hok, htail, hres⟩ := hran
      exact ⟨s₁, curr, qs, as, ta, hok, htail, hres⟩

variable {s₁ : LogState} {curr : Nat}

/-- In the page tails an append does what it does to the main log. -/
theorem Appended.onTails (h : Appended env s₁ curr e u apages ta k l s' res) (he : e.Ok) (h0 : curr ≠ 0)
    (hpages : ∀ p ∈ apages, p % 4096 = 0) {x : Nat} (hx : 4064 ≤ x % 4096) :
    s'.mem x = appendMem s₁.mem curr e x := by
  cases h with
  | full hz => exact absurd hz h0
  | half _ _ hmem => exact hmem x (Or.inr hx)
  | single => rfl
  | twin _ _ hmem hat =>
      have hsize := he.size_bounds
      have hloc := (hat.loc (by rwa [List.append_nil]) (by omega)).1
      have hfit := hat.fit
      exact (novaPutLogEntry_of_outside he (by omega)).trans (hmem x (Or.inr hx))

/-- So it does in the pages of the main log. -/
theorem Appended.onMain (h : Appended env s₁ curr e u apages ta k l s' res) (he : e.Ok) (h0 : curr ≠ 0)
    (hc : Chains env s₁ pages apages) (hta : env.metadataCsum = true → TailAt apages ta k l) {p x : Nat}
    (hp : p ∈ pages) (h1 : p ≤ x) (h2 : x < p + 4096) : s'.mem x = appendMem s₁.mem curr e x := by
  obtain ⟨hpa, hp0, -⟩ := hc.isPage p (List.mem_append_left _ hp)
  have hother : ∀ q ∈ apages, q % 4096 = 0 ∧ q ≠ p := by
    intro q hq
    refine ⟨(hc.isPage q (List.mem_append_right _ hq)).1, ?_⟩
    rintro rfl
    have hnodup := (List.nodup_append.mp hc.fresh.nodup).1
    exact (List.nodup_append.mp hnodup).2.2 q hp q hq rfl
  have hxta : env.metadataCsum = true → x ≠ ta := by
    intro hcsum
    have ht := (hta hcsum).tail
    have hplace := (hta hcsum).place
    by_cases hne : apages = []
    · rw [if_pos hne] at ht
      omega
    · rw [if_neg hne] at ht
      obtain ⟨hqa, hqp⟩ := hother _ (getD_mem ((hta hcsum).page hne))
      omega
  cases h with
  | full hz => exact absurd hz h0
  | half _ hcsum hmem => exact hmem x (Or.inl (hxta hcsum))
  | single => rfl
  | twin _ hcsum hmem hat =>
      have hfit := hat.fit
      have hacurr := hat.curr
      have hq := getD_mem hat.page
      rw [List.append_nil] at hq hacurr
      obtain ⟨hqa, hqp⟩ := hother _ hq
      exact (novaPutLogEntry_of_outside he (by omega)).trans (hmem x (Or.inl (hxta hcsum)))

theorem Appended.sih (h : Appended env s₁ curr e u apages ta k l s' res) :
    s'.sih = s₁.sih ∧ s'.grants = s₁.grants := by
  cases h <;> exact ⟨rfl, rfl⟩

/-- The chains do not notice the entry. -/
theorem Chains.appended (hc : Chains env s₁ pages apages)
    (h : Appended env s₁ curr e u apages ta k l s' res) (he : e.Ok)
    (hfit : curr ≠ 0 → curr % 4096 + e.size ≤ 4064) : Chains env s' pages apages := by
  obtain ⟨hsih, hgrants⟩ := h.sih
  have hnext : ∀ p ∈ pages ++ apages, nextPage s'.mem p = nextPage s₁.mem p := by
    intro p hp
    have hpa := (hc.isPage p hp).1
    by_cases h0 : curr = 0
    · cases h with
      | full => rfl
      | half hz => exact absurd h0 hz
      | single hz => exact absurd h0 hz
      | twin hz => exact absurd h0 hz
    · rw [← nextPage_appendMem (m := s₁.mem) he (hfit h0) hpa]
      refine word_congr fun x h1 h2 => h.onTails he h0 (fun q hq =>
        (hc.isPage q (List.mem_append_right _ hq)).1) ?_
      unfold logBlockTail at h1 h2
      omega
  exact ⟨hgrants ▸ hc.fresh, hc.isPage, hc.linked.congr fun p hp => hnext p (List.mem_append_left _ hp),
    hsih ▸ hc.head, fun hcsum => ⟨(hc.twin hcsum).1.congr fun p hp => hnext p (List.mem_append_right _ hp),
      hsih ▸ (hc.twin hcsum).2⟩, hc.noTwin, hc.short⟩

end Append

end Parfs
