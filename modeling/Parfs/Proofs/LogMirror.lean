/-
A log and its replica.

With `metadata_csum` every page of a log has a replica, and the two point to each other.
That survives as long as the two allocations of an extension are met alike: `MirrorInv` is
`LogInv` with chains of equal length that are paired page by page, and with a copy of every
entry in the replica's page.  Where the second allocation gets less than the first one, the
extension has linked the main chain already.
-/
import Parfs.Proofs.LogScan

namespace Parfs

open Lib ByteMem

/-- Where an entry's replica is, there are its bytes. -/
def ReplicaAt (m : ByteMem) (p : Nat) (e : NovaLogEntryInfo) : Prop :=
  EntryAt m (alterPage m (blockOff p) + entryLoc p) e

/-- The replicas of the entries stand in their places. -/
abbrev Replicated (m : ByteMem) (pages : List Nat) (es : List (Nat × NovaLogEntryInfo)) (k l : Nat) :
    Prop := Laid (ReplicaAt m) (fun _ => True) pages es k l

/-- Two chains of pages, page by page each other's replica. -/
structure Mirror (s : LogState) (pages apages : List Nat) : Prop where
  isPage : ∀ p ∈ pages ++ apages, IsPage p
  main : LinkedTo s.mem 0 pages
  head : s.sih.logHead = pages.headD 0
  alter : LinkedTo s.mem 0 apages
  alterHead : s.sih.alterLogHead = apages.headD 0
  paired : Paired s.mem pages apages

/-- The log `nova_get_append_head` hands to `nova_extend_inode_log`. -/
def extendFrom (s : LogState) (t size : Nat) : LogState :=
  if isLastEntry t size then { s with mem := novaSetNextPageFlag s.mem t } else s

/-- When an append extends the log, its two allocations are met alike. -/
def BalancedAct (r : LogRun) : LogAct → Prop
  | .append e => Extends r.log r.tail e.size →
      Balanced r.log.grants (extensionPages r.log.sih r.tail)
  | _ => True

structure MirrorInv (env : LogEnv) (kind : LogKind) (r : LogRun) (pages apages : List Nat)
    (k l k₀ l₀ : Nat) : Prop where
  log : LogInv env kind r pages apages k l k₀ l₀
  paired : Paired r.log.mem pages apages
  replicated : Replicated r.log.mem pages (r.entries ++ r.pending) k l
  replicatedCommitted : Replicated r.log.mem pages r.entries k₀ l₀

section

variable {env : LogEnv} {kind : LogKind} {r r' : LogRun} {act : LogAct} {pages apages : List Nat}
  {k l k₀ l₀ : Nat} {m m' : ByteMem} {e : NovaLogEntryInfo}

theorem MirrorInv.init (h : LogInit r) : MirrorInv env kind r [] [] 0 0 0 0 := by
  refine ⟨LogInv.init h, List.Forall₂.nil, ?_, ?_⟩ <;> rw [h.entries]
  · rw [h.pending]
    exact Laid.nil
  · exact Laid.nil

theorem Paired.get {ps as : List Nat} (h : Paired m ps as) :
    ∀ {i : Nat}, i < ps.length → alterPage m (ps.getD i 0) = as.getD i 0 := by
  induction h with
  | nil =>
      intro i hi
      cases hi
  | cons hpa _ ih =>
      intro i hi
      cases i with
      | zero => exact hpa.1
      | succ i => exact ih (Nat.lt_of_succ_lt_succ hi)

/-- A tail in the front part of a chain. -/
theorem TailAt.restrict {as : List Nat} {ta : Nat} (h : TailAt (apages ++ as) ta k l)
    (hk : k < apages.length) : TailAt apages ta k l where
  tail := by
    have hne : apages ≠ [] := by
      rintro rfl
      cases hk
    have htail := h.tail
    rw [if_neg (by simp [hne]), List.getD_append _ _ _ _ hk] at htail
    rw [if_neg hne]
    exact htail
  place := h.place
  page := fun _ => hk
  start := fun hnil => by
    rw [hnil] at hk
    cases hk

theorem Paired.append {ps as qs bs : List Nat} (h : Paired m ps as) (h' : Paired m qs bs) :
    Paired m (ps ++ qs) (as ++ bs) := List.rel_append h h'

section Append

variable {s₁ s' : LogState} {curr ta k' l' : Nat} {qs as : List Nat} {u u' : LogUpdate}
  {res : Except Errno LogUpdate}

/-- The replica addresses of the pages there were are not touched by an append. -/
theorem Appended.alterPages {s : LogState} {t : Nat}
    (hok : HeadOk env s s₁ curr pages qs apages as t k l e.size) (he : e.Ok)
    (hres : Appended env s₁ curr e u (apages ++ as) ta k l s' res) {p : Nat} (hp : p % 4096 = 0) :
    alterPage s'.mem p = alterPage s₁.mem p := by
  by_cases h0 : curr = 0
  · cases hres with
    | full => rfl
    | half hz => exact absurd h0 hz
    | single hz => exact absurd h0 hz
    | twin hz => exact absurd h0 hz
  · rw [← alterPage_appendMem (m := s₁.mem) he (hok.fit he h0) hp]
    refine word_congr fun x h1 h2 => hres.onTails he h0 (fun q hq =>
      (hok.chains.isPage q (List.mem_append_right _ hq)).1) ?_
    unfold logBlockTail at h1 h2
    omega

/-- The pairing after an append. -/
theorem MirrorInv.pairedAfter (h : MirrorInv env kind r pages apages k l k₀ l₀)
    (hcsum : env.metadataCsum = true) (hbal : BalancedAct r (.append e)) (he : e.Ok)
    (hok : HeadOk env r.log s₁ curr pages qs apages as r.tail k l e.size)
    (hres : Appended env s₁ curr e u (apages ++ as) ta k l s' res) :
    Paired s'.mem (pages ++ qs) (apages ++ as) := by
  have hold : Paired s₁.mem pages apages := h.paired.frame fun p hp => (hok.frame.tails p hp).2.2
  have hmid : Paired s₁.mem (pages ++ qs) (apages ++ as) := by
    by_cases h0 : curr = 0
    · obtain ⟨has, hqs, -⟩ := hok.refused h0
      rw [hqs hcsum hbal, has, List.append_nil, List.append_nil]
      exact hold
    · exact hold.append ((hok.found h0).2 hcsum)
  exact hmid.frame fun p hp => Appended.alterPages hok he hres (hok.chains.isPage p hp).1

/-- The bytes in front of the replica's tail, after an append. -/
theorem Appended.keptAlter {s : LogState} {t : Nat} (hcsum : env.metadataCsum = true)
    (hc : Chains env s pages apages) (ht : TailAt pages t k l) (hta₀ : TailAt apages ta k l)
    (hok : HeadOk env s s₁ curr pages qs apages as t k l e.size) (he : e.Ok)
    (hres : Appended env s₁ curr e u (apages ++ as) ta k l s' res) (hne : apages ≠ []) {i o : Nat}
    (hi : i ≤ k) (ho : o < 4064) (hik : i = k → o < l) :
    s'.mem (apages.getD i 0 + o) = s.mem (apages.getD i 0 + o) := by
  have hlt := hta₀.page hne
  have hilt : i < apages.length := by omega
  have hmem : apages.getD i 0 ∈ apages := getD_mem hilt
  have hnodup := (List.nodup_append.mp hok.chains.fresh.nodup).1
  have halign : ∀ p ∈ pages ++ qs ++ (apages ++ as), p % 4096 = 0 := fun p hp => (hok.chains.isPage p hp).1
  have hmem' : apages.getD i 0 ∈ pages ++ qs ++ (apages ++ as) :=
    List.mem_append_right _ (List.mem_append_left _ hmem)
  have hia := halign _ hmem'
  have hia0 := (hok.chains.isPage _ hmem').2.1
  -- a page of the main log is another page
  have hother : ∀ p ∈ pages ++ qs, p ≠ apages.getD i 0 := by
    intro p hp hpe
    exact (List.nodup_append.mp hnodup).2.2 p hp _ (List.mem_append_left _ hmem) hpe
  have hhead : s₁.mem (apages.getD i 0 + o) = s.mem (apages.getD i 0 + o) := by
    refine hok.frame.body _ (by omega) ?_
    have htail := ht.tail
    have hplace := ht.place
    by_cases hpn : pages = []
    · rw [if_pos hpn] at htail
      omega
    · rw [if_neg hpn] at htail
      have hp := List.mem_append_left qs (getD_mem (ht.page hpn))
      have hpa := halign _ (List.mem_append_left _ hp)
      have hpi := hother _ hp
      omega
  by_cases h0 : curr = 0
  · have hs : s' = s₁ := by
      cases hres with
      | full => rfl
      | half hz => exact absurd h0 hz
      | single hz => exact absurd h0 hz
      | twin hz => exact absurd h0 hz
    rw [hs]
    exact hhead
  · obtain ⟨⟨k', l', hat⟩, -⟩ := hok.found h0
    have hput : appendMem s₁.mem curr e (apages.getD i 0 + o) = s₁.mem (apages.getD i 0 + o) := by
      have hc := hat.curr
      have hfit := hat.fit
      have hp := getD_mem hat.page
      have hpa := halign _ (List.mem_append_left _ hp)
      have hpi := hother _ hp
      exact appendMem_body he (by omega) (by omega)
    have hxta : apages.getD i 0 + o ≠ ta := by
      have htail := hta₀.tail
      have hplace := hta₀.place
      rw [if_neg hne] at htail
      rw [htail]
      by_cases hk : i = k
      · have := hik hk
        rw [hk]
        omega
      · refine page_sep ?_ (fun p hp => (hc.isPage p (List.mem_append_right _ hp)).1) hilt hlt hk
          (by omega) (by omega)
        exact (List.nodup_append.mp (List.nodup_append.mp hc.fresh.nodup).1).2.1
    cases hres with
    | full hz => exact absurd hz h0
    | single _ hcs => exact absurd hcs (by simp [hcsum])
    | half _ _ hm => exact (hm _ (Or.inl hxta)).trans (hput.trans hhead)
    | twin _ _ hm hat' =>
        have hnodup' : (apages ++ as ++ []).Nodup := by
          rw [List.append_nil]
          exact (List.nodup_append.mp hnodup).2.1
        have hext : (apages ++ as).getD i 0 = apages.getD i 0 := List.getD_append _ _ _ _ hilt
        have hap := hat'.apart hnodup' (fun p hp => halign p (List.mem_append_right _ (by simpa using hp)))
          (by rw [List.length_append]; omega) (by omega) (hat'.before (by simp [hne]) hi hik)
        rw [hext] at hap
        exact (novaPutLogEntry_of_outside he (by omega)).trans ((hm _ (Or.inl hxta)).trans (hput.trans hhead))

/-- The replicas of what is in front of the tail stay. -/
theorem MirrorInv.kept (h : MirrorInv env kind r pages apages k l k₀ l₀) (hcsum : env.metadataCsum = true)
    (he : e.Ok) (hok : HeadOk env r.log s₁ curr pages qs apages as r.tail k l e.size)
    (hta : TailAt (apages ++ as) ta k l)
    (hres : Appended env s₁ curr e u (apages ++ as) ta k l s' res) {es : List (Nat × NovaLogEntryInfo)}
    {k₁ l₁ : Nat} (hle : k₁ < k ∨ (k₁ = k ∧ l₁ ≤ l)) (hempty : pages = [] → es = [])
    (hes : Replicated r.log.mem pages es k₁ l₁) : Replicated s'.mem (pages ++ qs) es k₁ l₁ := by
  have hlen := h.paired.length_eq
  by_cases hne : pages = []
  · have hnil := hempty hne
    obtain ⟨rfl, rfl⟩ := hes.nil_pages hnil
    rw [hnil]
    exact Laid.nil
  refine Laid.extend (hes.imp ?_ fun _ _ _ _ _ => trivial) hne
  intro i o e' hi ho hik hent
  have hane : apages ≠ [] := by
    intro hnil
    rw [hnil] at hlen
    exact hne (List.length_eq_zero_iff.mp hlen)
  have hk := h.log.tail.page hne
  have hilt : i < pages.length := by omega
  have halign := h.log.chains.alignedUpTo h.log.tail hne i (by omega)
  have hloc : e'.size = 0 ∨ (blockOff (pages.getD i 0 + o) = pages.getD i 0 ∧
      entryLoc (pages.getD i 0 + o) = o) := by
    unfold blockOff entryLoc
    omega
  unfold ReplicaAt EntryAt at hent ⊢
  rcases hloc with hsize | ⟨hblock, hloc⟩
  · rw [hsize] at hent ⊢
    exact hent
  rw [hblock, hloc] at hent ⊢
  have hpage : alterPage s'.mem (pages.getD i 0) = apages.getD i 0 := by
    rw [Appended.alterPages hok he hres halign,
      (hok.frame.tails _ (List.mem_append_left _ (getD_mem hilt))).2.2]
    exact h.paired.get hilt
  rw [h.paired.get hilt] at hent
  rw [hpage, ← hent]
  refine read_congr fun x h1 h2 => ?_
  obtain ⟨j, rfl⟩ : ∃ j, x = apages.getD i 0 + (o + j) := ⟨x - (apages.getD i 0 + o), by omega⟩
  refine Appended.keptAlter hcsum h.log.chains h.log.tail (hta.restrict (by omega)) hok he hres hane (by omega)
    (by omega) fun hik' => ?_
  rcases hle with hlt | ⟨rfl, hle⟩
  · omega
  · have := hik hik'
    omega

theorem HeadOk.supply {s : LogState} {t : Nat} (hok : HeadOk env s s₁ curr pages qs apages as t k l e.size)
    (hg : s'.grants = s₁.grants) : (pages ++ qs).length + (grantPages s'.grants).length ≤
      pages.length + (grantPages s.grants).length := by
  have hcount := hok.count
  rw [hg, List.length_append]
  omega

/-- The new entry has its replica. -/
theorem MirrorInv.replicaAfter (h : MirrorInv env kind r pages apages k l k₀ l₀)
    (hcsum : env.metadataCsum = true) (he : e.Ok)
    (hok : HeadOk env r.log s₁ curr pages qs apages as r.tail k l e.size)
    (hres : Appended env s₁ curr e u (apages ++ as) ta k l s' (.ok u'))
    (hat : HeadAt s₁.mem curr pages qs k l e.size k' l')
    (hpaired : Paired s'.mem (pages ++ qs) (apages ++ as)) : ReplicaAt s'.mem curr e := by
  have hsize := he.size_bounds
  obtain ⟨hloc, hblock⟩ := hat.loc (fun p hp => (hok.chains.isPage p (List.mem_append_left _ hp)).1)
    (by omega)
  unfold ReplicaAt entryLoc
  rw [hblock, hpaired.get hat.page, hloc]
  cases hres with
  | single _ hcs => exact absurd hcs (by simp [hcsum])
  | twin _ _ _ hat' =>
      obtain ⟨rfl, rfl⟩ := hat.same hat' h.log.tail.start (by omega)
      have hcurr := hat'.curr
      rw [List.append_nil] at hcurr
      rw [← hcurr]
      exact read_novaPutLogEntry he

end Append

/-- The pages in use and those still to be granted. -/
def LogRun.supply (r : LogRun) (pages : List Nat) : Nat := pages.length + (grantPages r.log.grants).length

/-- **The mirror is kept** by steps whose allocations are met alike.  Pages do not come from
nowhere. -/
theorem MirrorInv.step (hcsum : env.metadataCsum = true) (h : MirrorInv env kind r pages apages k l k₀ l₀)
    (hbal : BalancedAct r act) (hstep : LogStep env kind r act r') :
    ∃ pages' apages' k' l' k₀' l₀', MirrorInv env kind r' pages' apages' k' l' k₀' l₀' ∧
      r'.supply pages' ≤ r.supply pages := by
  have hentries : pages = [] → r.entries = [] :=
    fun hnil => (List.append_eq_nil_iff.mp (h.log.empty hnil)).1
  cases hstep with
  | @append e s' u he hkind happ =>
      obtain ⟨s₁, curr, qs, as, ta, hok, hta, hres⟩ := h.log.appendSpec he happ
      obtain ⟨⟨k', l', hat⟩, -⟩ := hok.found hres.ne_zero
      have hpaired := h.pairedAfter hcsum hbal he hok hres
      have hcurr := (hres.update hat h.log.tail.start he).1
      refine ⟨_, _, _, _, _, _, ⟨h.log.append he hkind hok hta hres hat, hpaired, ?_,
        h.kept hcsum he hok (hta hcsum) hres h.log.order hentries h.replicatedCommitted⟩,
        hok.supply hres.sih.2⟩
      show Replicated s'.mem (pages ++ qs) (r.entries ++ (r.pending ++ [(u.currEntry, e)])) k' (l' + e.size)
      rw [← List.append_assoc, hcurr]
      have hnil : pages ++ qs ≠ [] := by
        intro hnil
        have := hat.page
        rw [hnil] at this
        cases this
      have hold := h.kept hcsum he hok (hta hcsum) hres (Or.inr ⟨rfl, le_refl l⟩) h.log.empty h.replicated
      have hpage : pages ++ qs ≠ [] → k < (pages ++ qs).length := fun _ => hold.page_lt hnil
      have hat' : HeadAt s₁.mem curr (pages ++ qs) [] k l e.size k' l' := by
        refine ⟨by rw [List.append_nil]; exact hat.curr, hat.fit, by rw [List.append_nil]; exact hat.page, ?_⟩
        rcases hat.move with ⟨-, rfl, rfl⟩ | ⟨hp, rfl, rfl⟩ | ⟨hne, rfl, rfl, hlast, hgoto⟩
        · exact Or.inl ⟨hnil, rfl, rfl⟩
        · obtain ⟨rfl, rfl⟩ := h.log.tail.start hp
          exact Or.inl ⟨hnil, rfl, rfl⟩
        · refine Or.inr (Or.inr ⟨hnil, rfl, rfl, hlast, ?_⟩)
          rwa [List.getD_append _ _ _ _ (h.log.tail.page hne)]
      have hall := hold.append hat' (fun hn => absurd hn hnil) hpage (fun _ _ _ => trivial)
        (h.replicaAfter hcsum he hok hres hat hpaired)
      rwa [List.append_nil] at hall
  | @refuse e s' err he hkind happ =>
      obtain ⟨s₁, curr, qs, as, ta, hok, hta, hres⟩ := h.log.appendSpec he happ
      have hold := h.kept hcsum he hok (hta hcsum) hres h.log.order hentries h.replicatedCommitted
      refine ⟨_, _, _, _, _, _, ⟨h.log.refuse he hok hta hres, h.pairedAfter hcsum hbal he hok hres, ?_, hold⟩,
        hok.supply hres.sih.2⟩
      rw [List.append_nil]
      exact hold
  | commit hne =>
      refine ⟨_, _, _, _, _, _, ⟨h.log.commit hne, h.paired, ?_, h.replicated⟩, le_refl _⟩
      rw [List.append_nil]
      exact h.replicated
  | abort =>
      refine ⟨_, _, _, _, _, _, ⟨h.log.abort, h.paired, ?_, h.replicatedCommitted⟩, le_refl _⟩
      rw [List.append_nil]
      exact h.replicatedCommitted

/-- The log as a mirror. -/
theorem MirrorInv.mirror (h : MirrorInv env kind r pages apages k l k₀ l₀) (hcsum : env.metadataCsum = true) :
    Mirror r.log pages apages :=
  ⟨h.log.chains.isPage, h.log.chains.linked, h.log.chains.head, (h.log.chains.twin hcsum).1,
    (h.log.chains.twin hcsum).2, h.paired⟩

/-- What an extension leaves is a mirror again. -/
theorem Grown.mirror {s s' : LogState} {num curr : Nat} {qs as : List Nat} (hcsum : env.metadataCsum = true)
    (hg : Grown env s s' num curr pages qs apages as) (hpaired : Paired s.mem pages apages)
    (hbal : Balanced s.grants num) :
    if curr = 0 then Mirror s' pages apages else qs ≠ [] ∧ Mirror s' (pages ++ qs) (apages ++ as) := by
  have hold : Paired s'.mem pages apages := hpaired.frame fun p hp => (hg.frame.tails p hp).2.2
  have hchains : ∀ (ps bs : List Nat), Chains env s' ps bs → Paired s'.mem ps bs → Mirror s' ps bs :=
    fun ps bs hc hp => ⟨hc.isPage, hc.linked, hc.head, (hc.twin hcsum).1, (hc.twin hcsum).2, hp⟩
  by_cases h0 : curr = 0
  · obtain ⟨has, hqs, -⟩ := hg.refused h0
    have hc := hg.chains
    rw [hqs hcsum hbal, has, List.append_nil, List.append_nil] at hc
    rw [if_pos h0]
    exact hchains _ _ hc hold
  · obtain ⟨hne, -, hpair⟩ := hg.grown h0
    rw [if_neg h0]
    exact ⟨hne, hchains _ _ hg.chains (hold.append (hpair hcsum))⟩

/-- An extension of a log in order. -/
theorem MirrorInv.extend (hcsum : env.metadataCsum = true) (h : MirrorInv env kind r pages apages k l k₀ l₀)
    (he : e.Ok) (hbal : BalancedAct r (.append e)) (hext : Extends r.log r.tail e.size) {s : LogState}
    {curr : Nat} (hrun : novaExtendInodeLog env (extendFrom r.log r.tail e.size) r.tail = .ok (s, curr)) :
    if curr = 0 then Mirror s pages apages
    else ∃ qs as, qs ≠ [] ∧ Mirror s (pages ++ qs) (apages ++ as) := by
  have hsize := he.size_bounds
  have hgr : (extendFrom r.log r.tail e.size).grants = r.log.grants := by
    unfold extendFrom
    split <;> rfl
  have hsih : (extendFrom r.log r.tail e.size).sih = r.log.sih := by
    unfold extendFrom
    split <;> rfl
  have hpaired : Paired (extendFrom r.log r.tail e.size).mem pages apages := by
    unfold extendFrom
    split
    · refine h.paired.frame fun p hp => ?_
      exact ((HeadFrame.flag fun q hq => (h.log.chains.isPage q hq).1).tails p hp).2.2
    · exact h.paired
  have hout : ExtendOutcome env (extendFrom r.log r.tail e.size)
      (extensionPages (extendFrom r.log r.tail e.size).sih r.tail) pages apages
      (novaExtendInodeLog env (extendFrom r.log r.tail e.size) r.tail) := by
    by_cases hne : pages = []
    · subst hne
      obtain rfl : apages = [] := List.length_eq_zero_iff.mp (Nat.le_zero.mp h.log.chains.short)
      have ht0 : r.tail = 0 := h.log.tail.tail
      have hlast : isLastEntry 0 e.size = false := by
        unfold isLastEntry entryLoc logBlockTail
        simp only [decide_eq_false_iff_not]
        omega
      have hfrom : extendFrom r.log 0 e.size = r.log := by
        unfold extendFrom
        rw [if_neg (by simp [hlast])]
      rw [ht0, hfrom]
      exact novaExtendInodeLog_first h.log.chains
    · have hpages : ∀ p ∈ pages, IsPage p := fun p hp => h.log.chains.isPage p (List.mem_append_left _ hp)
      obtain ⟨htail, ht0, hblock, hlastAll⟩ := h.log.tail.facts hne hpages
      obtain ⟨hlast, hnext⟩ := hext.resolve_left ht0
      have hk := h.log.tail.page hne
      have hfit : l + e.size > 4064 := by
        have := hlastAll e.size
        rw [hlast] at this
        simpa using this.symm
      have hkl : k + 1 = pages.length := by
        rw [h.log.chains.linked.nextOfTail hk hblock] at hnext
        by_contra hmore
        exact (hpages _ (getD_mem (by omega : k + 1 < pages.length))).2.1 hnext
      have hmarked : Chains env (extendFrom r.log r.tail e.size) pages apages := by
        unfold extendFrom
        rw [if_pos hlast]
        exact h.log.chains.flag
      refine novaExtendInodeLog_next (i := k₀) hmarked ht0 hkl hblock fun _ => ?_
      rw [hsih]
      exact h.log.twinPages (by omega) hcsum hfit hkl
  rw [hrun] at hout
  obtain ⟨qs, as, hg⟩ := hout
  have hm := hg.mirror hcsum hpaired (by rw [hgr, hsih]; exact hbal hext)
  by_cases h0 : curr = 0
  · rw [if_pos h0] at hm ⊢
    exact hm
  · rw [if_neg h0] at hm ⊢
    exact ⟨qs, as, hm⟩

/-- **The mirror holds in every state of a run** whose allocations are met alike. -/
theorem MirrorInv.runs {r₀ : LogRun} (hcsum : env.metadataCsum = true) (h0 : LogInit r₀)
    (hrun : Runs (Guarded BalancedAct (LogStep env kind)) r₀ r) :
    ∃ pages apages k l k₀ l₀, MirrorInv env kind r pages apages k l k₀ l₀ ∧
      r.supply pages ≤ (grantPages r₀.log.grants).length := by
  have hkeep : ∀ s a t, (∃ pages apages k l k₀ l₀, MirrorInv env kind s pages apages k l k₀ l₀ ∧
        s.supply pages ≤ (grantPages r₀.log.grants).length) →
      Guarded BalancedAct (LogStep env kind) s a t →
      ∃ pages apages k l k₀ l₀, MirrorInv env kind t pages apages k l k₀ l₀ ∧
        t.supply pages ≤ (grantPages r₀.log.grants).length := by
    rintro s a t ⟨pages, apages, k, l, k₀, l₀, h, hs⟩ ⟨hbal, hstep⟩
    obtain ⟨pages', apages', k', l', k₀', l₀', h', hs'⟩ := h.step hcsum hbal hstep
    exact ⟨pages', apages', k', l', k₀', l₀', h', hs'.trans hs⟩
  refine hrun.invariant hkeep ⟨[], [], 0, 0, 0, 0, MirrorInv.init h0, ?_⟩
  rw [LogRun.supply, List.length_nil, Nat.zero_add]

/-- An entry of a mirrored log and its replica. -/
theorem MirrorInv.entryAt (hcsum : env.metadataCsum = true) (h : MirrorInv env kind r pages apages k l k₀ l₀)
    {p : Nat} (he : (p, e) ∈ r.entries ++ r.pending) :
    EntryAt r.log.mem p e ∧ EntryAt r.log.mem (alterLogEntry r.log.mem env p) e := by
  obtain ⟨-, -, -, -, -, -, -, hent⟩ := h.log.written.mem he
  obtain ⟨-, -, -, -, -, -, -, hrep⟩ := h.replicated.mem he
  refine ⟨hent, ?_⟩
  unfold alterLogEntry
  rw [if_pos hcsum]
  exact hrep

end

/-- **A log and its replica stay in lock step**, as long as the two allocations of every
extension are met alike: the chains are each other's replica, every entry has its copy, an
extension leaves them alone or makes both longer, and no append ends in a fault, unless the
walks along the chains have less steps than there are pages. -/
theorem novaExtendInodeLog_mirrors {env : LogEnv} {kind : LogKind} {r₀ r : LogRun}
    (hcsum : env.metadataCsum = true) (h0 : LogInit r₀)
    (hrun : Runs (Guarded BalancedAct (LogStep env kind)) r₀ r) :
    ∃ pages apages, Mirror r.log pages apages ∧
      (∀ x ∈ r.entries ++ r.pending, EntryAt r.log.mem x.1 x.2 ∧
        EntryAt r.log.mem (alterLogEntry r.log.mem env x.1) x.2) ∧
      ∀ e, e.Ok → BalancedAct r (.append e) →
        (Extends r.log r.tail e.size → ∀ s curr,
          novaExtendInodeLog env (extendFrom r.log r.tail e.size) r.tail = .ok (s, curr) →
          if curr = 0 then Mirror s pages apages
          else ∃ qs as, qs ≠ [] ∧ Mirror s (pages ++ qs) (apages ++ as)) ∧
        novaAppendLogEntry env r.log e r.update ≠ .error .bug ∧
        ((grantPages r₀.log.grants).length < env.fuel →
          ∃ v, novaAppendLogEntry env r.log e r.update = .ok v) := by
  obtain ⟨pages, apages, k, l, k₀, l₀, h, hs⟩ := MirrorInv.runs hcsum h0 hrun
  refine ⟨pages, apages, h.mirror hcsum, fun x hx => h.entryAt hcsum hx, fun e he hbal =>
    ⟨fun hext s curr hx => h.extend hcsum he hbal hext hx, ?_⟩⟩
  have hout := h.log.appendOutcome he
  cases happ : novaAppendLogEntry env r.log e r.update with
  | ok v => exact ⟨by simp, fun _ => ⟨v, rfl⟩⟩
  | error f =>
      rw [happ] at hout
      obtain ⟨-, hext, hfault⟩ := hout
      obtain ⟨rfl, hfuel⟩ := hfault (hbal hext)
      exact ⟨by simp, fun hlt => absurd (hfuel.trans hs) (Nat.not_le.mpr hlt)⟩

/-- A log with a replica that has no page yet, with these answers to come. -/
def LogRun.newTwin (m : ByteMem) (grants : Grants) : LogRun :=
  ⟨⟨m, ⟨0, 0, 0, 0, 0⟩, grants⟩, LogUpdate.init, [], []⟩

theorem LogRun.newTwin_init (m : ByteMem) : LogInit (LogRun.newTwin m [some (1, 1), some (2, 1)]) := by
  refine ⟨rfl, rfl, rfl, rfl, rfl, rfl, rfl, ?_, ?_, ?_⟩
  · intro p hp
    have hp' : p = 4096 ∨ p = 8192 := by
      simpa [LogRun.newTwin, grantPages, pagesFrom, logBlockOff] using hp
    rcases hp' with rfl | rfl <;> exact ⟨by decide, by decide, by decide⟩
  · simp [LogRun.newTwin, grantPages, pagesFrom, logBlockOff]
  · intro g hg
    have hg' : g = (1, 1) ∨ g = (2, 1) := by simpa [LogRun.newTwin] using hg
    rcases hg' with rfl | rfl <;> decide

/-- A first extension that is met alike, with steps enough. -/
theorem Chains.first_ok {env : LogEnv} {s : LogState} (hc : Chains env s [] [])
    (hbal : Balanced s.grants 1) (hfuel : (grantPages s.grants).length < env.fuel) :
    ∃ v, novaExtendInodeLog env s 0 = .ok v := by
  have hout := novaExtendInodeLog_first hc
  cases hext : novaExtendInodeLog env s 0 with
  | ok v => exact ⟨v, rfl⟩
  | error f =>
      rw [hext] at hout
      obtain ⟨-, hfault⟩ := hout
      have hle := (hfault hbal).2
      rw [List.length_nil, Nat.zero_add] at hle
      omega

/-- The request for the first page is met, and with `metadata_csum` the one for its replica. -/
def FirstPageGranted (env : LogEnv) (gs : Grants) : Prop :=
  ∃ b gs', gs = some (b, 1) :: gs' ∧ (env.metadataCsum = true → ∃ b' gs'', gs' = some (b', 1) :: gs'')

/-- **A log that starts has its head and its tail at the page it got.** -/
theorem novaExtendInodeLog_granted {env : LogEnv} {m : ByteMem} {gs : Grants} (hfresh : Fresh [] gs)
    (hgranted : FirstPageGranted env gs) (hfuel : (grantPages gs).length < env.fuel) :
    ∃ s p, novaExtendInodeLog env ⟨m, ⟨0, 0, 0, 0, 0⟩, gs⟩ 0 = .ok (s, p) ∧ IsPage p ∧
      s.sih.logHead = p ∧ s.sih.logTail = p := by
  obtain ⟨b, gs, rfl, halter⟩ := hgranted
  have hpage : IsPage (logBlockOff b) :=
    hfresh.pages _ (by simp [grantPages, pagesFrom])
  have hchains : Chains env ⟨m, ⟨0, 0, 0, 0, 0⟩, some (b, 1) :: gs⟩ [] [] :=
    ⟨hfresh, by simp, trivial, rfl, fun _ => ⟨trivial, rfl⟩, fun _ => rfl, le_refl _⟩
  have hnum : (1 : Nat) - 1 = 0 := rfl
  cases hcsum : env.metadataCsum with
  | false =>
      refine ⟨⟨novaCoalesceLogPages m 0 b 1, ⟨logBlockOff b, logBlockOff b, 0, 0, 1⟩, gs⟩, logBlockOff b, ?_,
        hpage, rfl, rfl⟩
      cases gs with
      | nil => simp [novaExtendInodeLog, novaInitializeInodeLog, novaAllocateInodeLogPages,
          allocateRemaining, novaInitPiLog, hcsum]
      | cons g gs => cases g <;> simp [novaExtendInodeLog, novaInitializeInodeLog,
          novaAllocateInodeLogPages, allocateRemaining, novaInitPiLog, hcsum]
  | true =>
      obtain ⟨b', gs, rfl⟩ := halter hcsum
      have hbal : Balanced (some (b, 1) :: some (b', 1) :: gs) 1 := by
        cases gs with
        | nil => simp [Balanced, takeGrants, takeMore]
        | cons g gs => cases g <;> simp [Balanced, takeGrants, takeMore]
      obtain ⟨v, hv⟩ := hchains.first_ok hbal hfuel
      have heq : novaExtendInodeLog env ⟨m, ⟨0, 0, 0, 0, 0⟩, some (b, 1) :: some (b', 1) :: gs⟩ 0 =
          (novaUpdateAlterPages env (novaCoalesceLogPages (novaCoalesceLogPages m 0 b 1) 0 b' 1)
            (logBlockOff b) (logBlockOff b')).map fun m' =>
              (⟨m', ⟨logBlockOff b, logBlockOff b, logBlockOff b', logBlockOff b', 2⟩, gs⟩, logBlockOff b) := by
        cases gs with
        | nil => simp [novaExtendInodeLog, novaInitializeInodeLog, novaAllocateInodeLogPages,
            allocateRemaining, novaInitPiLog, hcsum]
        | cons g gs => cases g <;> simp [novaExtendInodeLog, novaInitializeInodeLog,
            novaAllocateInodeLogPages, allocateRemaining, novaInitPiLog, hcsum]
      rw [heq] at hv
      rw [heq]
      cases hup : novaUpdateAlterPages env (novaCoalesceLogPages (novaCoalesceLogPages m 0 b 1) 0 b' 1)
          (logBlockOff b) (logBlockOff b') with
      | ok m' => exact ⟨_, _, rfl, hpage, rfl, rfl⟩
      | error f =>
          rw [hup] at hv
          cases hv

/-- The first entry of a log goes to the start of its page. -/
theorem novaGetAppendHead_first {env : LogEnv} {m : ByteMem} {gs : Grants} {size : Nat} (hfresh : Fresh [] gs)
    (hgranted : FirstPageGranted env gs) (hfuel : (grantPages gs).length < env.fuel) (hsize : size ≤ 4064) :
    ∃ s p, novaGetAppendHead env ⟨m, ⟨0, 0, 0, 0, 0⟩, gs⟩ 0 size .main = .ok (s, p) ∧
      IsPage p ∧ s.sih.logHead = p ∧ s.sih.logTail = p := by
  obtain ⟨s, p, hext, hpage, hhead, htail⟩ := novaExtendInodeLog_granted (m := m) hfresh hgranted hfuel
  refine ⟨s, p, ?_, hpage, hhead, htail⟩
  have hlast : isLastEntry 0 size = false := by
    unfold isLastEntry entryLoc logBlockTail
    simp only [decide_eq_false_iff_not]
    omega
  unfold novaGetAppendHead
  simp only [ne_eq, not_true_eq_false, if_false, hlast, Bool.false_eq_true, false_and, or_false, if_true, hext,
    Except.map]
  rw [if_neg hpage.2.1, appendHeadInPage_start hpage.1 hsize]

theorem balanced_pair : Balanced [some (1, 1), some (2, 1)] 1 := by
  simp [Balanced, takeGrants, takeMore]

/-- The first entry gets a page, and its replica another. -/
theorem LogRun.newTwin_append (kind : LogKind) (e : NovaLogEntryInfo) (m : ByteMem) (he : e.Ok)
    (hkind : kind.handles e.type = true) : ∃ s u,
    LogStep ⟨true, 5⟩ kind (LogRun.newTwin m [some (1, 1), some (2, 1)]) (.append e) ⟨s, u, [], [(4096, e)]⟩ := by
  have hsize := he.size_bounds
  have hlast : ∀ p, p % 4096 = 0 → isLastEntry p e.size = false := by
    intro p hp
    unfold isLastEntry entryLoc logBlockTail
    simp only [decide_eq_false_iff_not]
    omega
  have hext : ∃ m', novaExtendInodeLog ⟨true, 5⟩ (LogRun.newTwin m [some (1, 1), some (2, 1)]).log 0 =
      .ok (⟨m', ⟨4096, 4096, 8192, 8192, 2⟩, []⟩, 4096) := by
    have heq : novaExtendInodeLog ⟨true, 5⟩ (LogRun.newTwin m [some (1, 1), some (2, 1)]).log 0 =
        (novaUpdateAlterPages ⟨true, 5⟩ (novaCoalesceLogPages (novaCoalesceLogPages m 0 1 1) 0 2 1) 4096
          8192).map fun m' => (⟨m', ⟨4096, 4096, 8192, 8192, 2⟩, []⟩, 4096) := by
      simp [novaExtendInodeLog, novaInitializeInodeLog, novaAllocateInodeLogPages, allocateRemaining,
        novaInitPiLog, logBlockOff, LogRun.newTwin]
    have hinv : LogInv ⟨true, 5⟩ kind (LogRun.newTwin m [some (1, 1), some (2, 1)]) [] [] 0 0 0 0 :=
      LogInv.init (LogRun.newTwin_init m)
    obtain ⟨v, hv⟩ := hinv.chains.first_ok balanced_pair
      (by simp [LogRun.newTwin, grantPages, pagesFrom])
    rw [heq] at hv
    rw [heq]
    cases hup : novaUpdateAlterPages ⟨true, 5⟩ (novaCoalesceLogPages (novaCoalesceLogPages m 0 1 1) 0 2 1)
        4096 8192 with
    | ok m' => exact ⟨m', rfl⟩
    | error f =>
        rw [hup] at hv
        cases hv
  obtain ⟨m', hext⟩ := hext
  have hhead : novaGetAppendHead ⟨true, 5⟩ (LogRun.newTwin m [some (1, 1), some (2, 1)]).log 0 e.size .main =
      .ok (⟨m', ⟨4096, 4096, 8192, 8192, 2⟩, []⟩, 4096) := by
    have htail : (LogRun.newTwin m [some (1, 1), some (2, 1)]).log.sih.logTail = 0 := rfl
    unfold novaGetAppendHead
    simp only [ne_eq, not_true_eq_false, if_false, htail, hlast 0 rfl, Bool.false_eq_true, false_and,
      or_false, if_true, hext, Except.map]
    rw [if_neg (by omega), appendHeadInPage_start (by decide) (by omega)]
  have halter : ∀ m'', novaGetAppendHead ⟨true, 5⟩ ⟨m'', ⟨4096, 4096, 8192, 8192, 2⟩, []⟩ 0 e.size .alter =
      .ok (⟨m'', ⟨4096, 4096, 8192, 8192, 2⟩, []⟩, 8192) := by
    intro m''
    unfold novaGetAppendHead
    simp only [ne_eq, not_true_eq_false, if_false, hlast 8192 rfl, Bool.false_eq_true, false_and, or_false]
    rw [if_neg (by omega), appendHeadInPage_start (by decide) (by omega)]
  have hinit : LogUpdate.init.tail = 0 ∧ LogUpdate.init.alterTail = 0 := ⟨rfl, rfl⟩
  have happ : novaAppendLogEntry ⟨true, 5⟩ (LogRun.newTwin m [some (1, 1), some (2, 1)]).log e LogUpdate.init =
      .ok (⟨novaPutLogEntry (appendMem m' 4096 e) 8192 e, ⟨4096, 4096, 8192, 8192, 2⟩, []⟩,
        .ok ⟨4096 + e.size, 8192 + e.size, 4096, 8192⟩) := by
    unfold novaAppendLogEntry
    simp only [hinit.1, hinit.2, hhead, Except.bind, if_true]
    rw [if_neg (by omega), halter]
    simp only [Except.map]
    rw [if_neg (by omega)]
    rfl
  exact ⟨_, _, LogStep.append he hkind happ⟩

theorem novaExtendInodeLog_mirrors_one : ∃ r : LogRun, r.pending = [(4096, .linkChange ⟨1, 0, 0, 0, 0, 0⟩)] ∧
    ∃ pages apages, Mirror r.log pages apages ∧
      ∀ x ∈ r.entries ++ r.pending, EntryAt r.log.mem x.1 x.2 ∧
        EntryAt r.log.mem (alterLogEntry r.log.mem ⟨true, 5⟩ x.1) x.2 := by
  obtain ⟨s, u, hstep⟩ := LogRun.newTwin_append .file (.linkChange ⟨1, 0, 0, 0, 0, 0⟩) (fun _ => 7) trivial rfl
  have hbal : BalancedAct (LogRun.newTwin (fun _ => 7) [some (1, 1), some (2, 1)])
      (.append (.linkChange ⟨1, 0, 0, 0, 0, 0⟩)) := fun _ => balanced_pair
  have hrun : Runs (Guarded BalancedAct (LogStep ⟨true, 5⟩ .file)) _ _ := Runs.single ⟨hbal, hstep⟩
  obtain ⟨pages, apages, hm, hent, -⟩ := novaExtendInodeLog_mirrors rfl (LogRun.newTwin_init _) hrun
  exact ⟨_, rfl, pages, apages, hm, hent⟩

/-- The log gets its page, the replica's request is refused: the extension fails and leaves
the log with a page its replica does not have. -/
theorem novaExtendInodeLog_half_initialized :
    ¬∀ (env : LogEnv) (r : LogRun) (s : LogState), env.metadataCsum = true → LogInit r →
      novaExtendInodeLog env r.log 0 = .ok (s, 0) →
      s.sih.logHead = r.log.sih.logHead ∧ s.sih.alterLogHead = r.log.sih.alterLogHead := by
  intro hall
  have hinit : LogInit (LogRun.newTwin (fun _ => 0) [some (1, 1), none]) := by
    refine ⟨rfl, rfl, rfl, rfl, rfl, rfl, rfl, ?_, ?_, ?_⟩
    · intro p hp
      obtain rfl : p = 4096 := by simpa [LogRun.newTwin, grantPages, pagesFrom, logBlockOff] using hp
      exact ⟨by decide, by decide, by decide⟩
    · simp [LogRun.newTwin, grantPages, pagesFrom]
    · intro g hg
      obtain rfl : g = (1, 1) := by simpa [LogRun.newTwin] using hg
      decide
  have hext : novaExtendInodeLog ⟨true, 5⟩ (LogRun.newTwin (fun _ => 0) [some (1, 1), none]).log 0 =
      .ok (⟨novaCoalesceLogPages (fun _ => 0) 0 1 1, ⟨4096, 4096, 0, 0, 1⟩, []⟩, 0) := by
    simp [novaExtendInodeLog, novaInitializeInodeLog, novaAllocateInodeLogPages, allocateRemaining,
      novaInitPiLog, logBlockOff, LogRun.newTwin]
  exact absurd (hall _ _ _ rfl hinit hext).1 (by decide)

end Parfs
