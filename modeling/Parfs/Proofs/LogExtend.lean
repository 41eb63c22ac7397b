/-
Extending a log.

With `metadata_csum` there are two chains, and an extension makes two allocations.
`Chains` is what a log keeps in every case, also after an allocation was refused halfway:
two chains of different pages, the second one no longer than the first and missing without
`metadata_csum`.  `Grown` is what one extension does to it.

Which pages an allocation gets depends on the allocator's answers alone: `takeGrants`.  An
extension whose two allocations get the same number of pages, or whose first one is refused,
is `Balanced`, and only the others can end in a fault or leave the chains of different
lengths.
-/
import Mathlib.Data.List.Forall2
import Parfs.Proofs.Log

namespace Parfs

open Lib ByteMem

/-! ### What the allocator answers -/

/-- The pages granted for `num` more, and the answers left. -/
def takeMore : Grants → Nat → List Nat × Grants
  | [], _ => ([], [])
  | none :: gs, num => if num = 0 then ([], none :: gs) else ([], gs)
  | some g :: gs, num =>
    if num = 0 then ([], some g :: gs)
    else (pagesFrom g.1 g.2 ++ (takeMore gs (num - g.2)).1, (takeMore gs (num - g.2)).2)

/-- The pages granted for a request of `num`, and the answers left. -/
def takeGrants (gs : Grants) (num : Nat) : List Nat × Grants :=
  match gs with
  | [] => ([], [])
  | none :: gs => ([], gs)
  | some g :: gs =>
    (pagesFrom g.1 g.2 ++ (takeMore gs (num - g.2)).1, (takeMore gs (num - g.2)).2)

/-- The pages an extension asks for. -/
def extensionPages (sih : LogSih) (currP : Nat) : Nat :=
  if currP = 0 then 1 else if sih.logPages ≥ extendThreshold then extendThreshold else sih.logPages

/-- The first request is refused, or both get the same number of pages. -/
def Balanced (gs : Grants) (num : Nat) : Prop :=
  (takeGrants gs num).1 = [] ∨
    (takeGrants (takeGrants gs num).2 num).1.length = (takeGrants gs num).1.length

section Grants

variable {m : ByteMem} {gs : Grants} {num : Nat} {used : List Nat}

theorem allocateRemaining_take (newBlock : Nat) :
    ∀ (gs : Grants) (m : ByteMem) (num prev ret : Nat),
      (allocateRemaining newBlock gs m num prev ret).grants = (takeMore gs num).2 ∧
        (allocateRemaining newBlock gs m num prev ret).retPages = ret + (takeMore gs num).1.length := by
  intro gs
  induction gs with
  | nil =>
      intro m num prev ret
      simp [allocateRemaining, takeMore]
  | cons g gs ih =>
      intro m num prev ret
      cases g with
      | none => by_cases hnum : num = 0 <;> simp [allocateRemaining, takeMore, hnum]
      | some g =>
          by_cases hnum : num = 0
          · simp [allocateRemaining, takeMore, hnum]
          · obtain ⟨h1, h2⟩ := ih (novaCoalesceLogPages m prev g.1 g.2) (num - g.2) (g.1 + g.2 - 1) (ret + g.2)
            simp only [allocateRemaining, takeMore, hnum, if_false]
            refine ⟨h1, ?_⟩
            rw [h2, List.length_append, pagesFrom_length, Nat.add_assoc]

/-- How many pages an allocation gets, and which answers are left. -/
theorem novaAllocateInodeLogPages_take (m : ByteMem) (gs : Grants) (num : Nat) :
    (novaAllocateInodeLogPages m gs num).grants = (takeGrants gs num).2 ∧
      (novaAllocateInodeLogPages m gs num).retPages = (takeGrants gs num).1.length := by
  match gs with
  | [] => exact ⟨rfl, rfl⟩
  | none :: gs => exact ⟨rfl, rfl⟩
  | some g :: gs =>
      obtain ⟨h1, h2⟩ := allocateRemaining_take (logBlockOff g.1) gs
        (novaCoalesceLogPages m 0 g.1 g.2) (num - g.2) (g.1 + g.2 - 1) g.2
      refine ⟨h1, ?_⟩
      rw [takeGrants, List.length_append, pagesFrom_length]
      exact h2

theorem takeMore_split :
    ∀ (gs : Grants) (num : Nat), grantPages gs = (takeMore gs num).1 ++ grantPages (takeMore gs num).2
  | [], _ => rfl
  | none :: gs, num => by
      by_cases hnum : num = 0
      · simp [takeMore, hnum]
      · simp [takeMore, hnum, grantPages_none]
  | some g :: gs, num => by
      by_cases hnum : num = 0
      · simp [takeMore, hnum]
      · simp only [takeMore, hnum, if_false]
        rw [grantPages_some, List.append_assoc, ← takeMore_split gs (num - g.2)]

theorem takeGrants_split : grantPages gs = (takeGrants gs num).1 ++ grantPages (takeGrants gs num).2 := by
  match gs with
  | [] => rfl
  | none :: gs => rfl
  | some g :: gs =>
      rw [grantPages_some, takeGrants, List.append_assoc, ← takeMore_split gs (num - g.2)]

/-- **Allocating log pages**, with the pages named. -/
theorem novaAllocateInodeLogPages_spec (num : Nat) (hfresh : Fresh used gs) :
    (novaAllocateInodeLogPages m gs num).Ok m gs [] (takeGrants gs num).1 := by
  obtain ⟨qs, hok⟩ := novaAllocateInodeLogPages_ok (m := m) num hfresh
  obtain ⟨hrest, hcount⟩ := novaAllocateInodeLogPages_take m gs num
  have hqs : qs = (takeGrants gs num).1 := by
    have hlen : qs.length = (takeGrants gs num).1.length := hok.count.symm.trans hcount
    have hsplit : grantPages gs = (takeGrants gs num).1 ++ grantPages (takeGrants gs num).2 :=
      takeGrants_split
    have hgr := hok.granted
    rw [hrest, hsplit] at hgr
    exact (List.append_inj hgr hlen.symm).1.symm
  rw [← hqs]
  exact hok

end Grants

/-! ### Pairing pages -/

/-- Page by page, the two point to each other. -/
def Paired (m : ByteMem) (qs as : List Nat) : Prop :=
  List.Forall₂ (fun q a => alterPage m q = a ∧ alterPage m a = q) qs as

/-- Only the replica addresses of these pages change. -/
def AlterFrame (m m' : ByteMem) (ps : List Nat) : Prop :=
  ∀ x, (∀ p ∈ ps, x < p + 4080 ∨ p + 4088 ≤ x) → m' x = m x

section Pairs

variable {env : LogEnv} {m m' m'' : ByteMem} {p q a e x : Nat} {ps qs as : List Nat}

theorem AlterFrame.trans (h : AlterFrame m m' ps) (h' : AlterFrame m' m'' ps) : AlterFrame m m'' ps :=
  fun x hx => (h' x hx).trans (h x hx)

theorem AlterFrame.mono (h : AlterFrame m m' ps) (hsub : ∀ p ∈ ps, p ∈ qs) : AlterFrame m m' qs :=
  fun x hx => h x fun p hp => hx p (hsub p hp)

/-- Everything outside the replica addresses, whatever page it is in. -/
theorem AlterFrame.byte (h : AlterFrame m m' ps) (hps : ∀ p ∈ ps, p % 4096 = 0)
    (hx : x % 4096 < 4080 ∨ 4088 ≤ x % 4096) : m' x = m x := by
  refine h x fun p hp => ?_
  have := hps p hp
  omega

theorem AlterFrame.nextPage (h : AlterFrame m m' ps) (hps : ∀ p ∈ ps, p % 4096 = 0)
    (hq : q % 4096 = 0) : nextPage m' q = nextPage m q :=
  word_congr fun x h1 h2 => h.byte hps (by unfold logBlockTail at *; omega)

theorem AlterFrame.counters (h : AlterFrame m m' ps) (hps : ∀ p ∈ ps, p % 4096 = 0)
    (hq : q % 4096 = 0) :
    numEntries m' q = numEntries m q ∧ invalidEntries m' q = invalidEntries m q :=
  ⟨word_congr fun x h1 h2 => h.byte hps (by unfold logBlockTail at *; omega),
    word_congr fun x h1 h2 => h.byte hps (by unfold logBlockTail at *; omega)⟩

theorem AlterFrame.alterPage (h : AlterFrame m m' ps) (hps : ∀ p ∈ ps, p % 4096 = 0)
    (hq : q % 4096 = 0) (hnot : q ∉ ps) : alterPage m' q = alterPage m q := by
  refine word_congr fun x h1 h2 => h x fun p hp => ?_
  have halign := hps p hp
  have hne : p ≠ q := by
    rintro rfl
    exact hnot hp
  unfold logBlockTail at h1 h2
  omega

theorem Paired.frame (h : Paired m qs as) (hf : ∀ p ∈ qs ++ as, alterPage m' p = alterPage m p) :
    Paired m' qs as := by
  induction h with
  | nil => exact List.Forall₂.nil
  | @cons q a qs as hqa _ ih =>
      refine List.Forall₂.cons ?_ (ih fun p hp => hf p ?_)
      · rw [hf q (by simp), hf a (by simp)]
        exact hqa
      · rcases List.mem_append.mp hp with hp | hp
        · exact List.mem_append_left _ (List.mem_cons_of_mem _ hp)
        · exact List.mem_append_right _ (List.mem_cons_of_mem _ hp)

/-- Setting the replica addresses of two pages. -/
theorem novaSetAlterPageAddress_spec (hcsum : env.metadataCsum = true) (hq : IsPage q) (ha : IsPage a)
    (hne : q ≠ a) : AlterFrame m (novaSetAlterPageAddress m env q a) [q, a] ∧
      alterPage (novaSetAlterPageAddress m env q a) q = a ∧
      alterPage (novaSetAlterPageAddress m env q a) a = q := by
  obtain ⟨hqa, hq0, hqlt⟩ := hq
  obtain ⟨haa, ha0, halt⟩ := ha
  have hbq : blockOff q = q := by
    unfold blockOff
    omega
  have hba : blockOff a = a := by
    unfold blockOff
    omega
  unfold novaSetAlterPageAddress
  rw [if_pos hcsum, hbq, hba]
  refine ⟨?_, ?_, ?_⟩
  · intro x hx
    have h1 := hx q (by simp)
    have h2 := hx a (by simp)
    unfold logBlockTail
    rw [setWord_of_outside (by omega), setWord_of_outside (by omega)]
  · unfold alterPage logBlockTail
    rw [word_setWord_of_disjoint (by omega)]
    exact word_setWord (by omega)
  · unfold alterPage logBlockTail
    exact word_setWord (by omega)

/-- The next page of the head of a chain. -/
theorem LinkedTo.headNext (h : LinkedTo m 0 (p :: ps)) (hp : p % 4096 = 0) :
    nextLogPage m p = ps.headD 0 := by
  have hb : blockOff p = p := by
    unfold blockOff
    omega
  unfold nextLogPage
  rw [hb]
  exact h.1

/-- One turn of the loop over two chains. -/
theorem novaUpdateAlterPagesLoop_cons (hcsum : env.metadataCsum = true) (fuel : Nat)
    (hlq : LinkedTo m 0 (q :: qs)) (hla : LinkedTo m 0 (a :: as))
    (hpage : ∀ p ∈ (q :: qs) ++ (a :: as), IsPage p) (hnodup : ((q :: qs) ++ (a :: as)).Nodup) :
    ∃ m₁, novaUpdateAlterPagesLoop env (fuel + 1) m q a =
        novaUpdateAlterPagesLoop env fuel m₁ (qs.headD 0) (as.headD 0) ∧
      AlterFrame m m₁ [q, a] ∧ alterPage m₁ q = a ∧ alterPage m₁ a = q ∧
      LinkedTo m₁ 0 qs ∧ LinkedTo m₁ 0 as ∧ q ∉ qs ++ as ∧ a ∉ qs ++ as ∧ (qs ++ as).Nodup := by
  have hq := hpage q (by simp)
  have ha := hpage a (by simp)
  have halign : ∀ p ∈ [q, a], p % 4096 = 0 := by
    intro p hp
    rcases List.mem_pair.mp hp with rfl | rfl
    · exact hq.1
    · exact ha.1
  have hperm : (q :: a :: (qs ++ as)).Nodup :=
    (List.Perm.cons q List.perm_middle).nodup_iff.mp hnodup
  rw [List.nodup_cons, List.nodup_cons] at hperm
  obtain ⟨hqn, han, hnd⟩ := hperm
  have hne : q ≠ a := by
    rintro rfl
    exact hqn List.mem_cons_self
  obtain ⟨hf, hpq, hpa⟩ := novaSetAlterPageAddress_spec (m := m) hcsum hq ha hne
  have hlq' : LinkedTo (novaSetAlterPageAddress m env q a) 0 (q :: qs) :=
    hlq.congr fun p hp => hf.nextPage halign (hpage p (List.mem_append_left _ hp)).1
  have hla' : LinkedTo (novaSetAlterPageAddress m env q a) 0 (a :: as) :=
    hla.congr fun p hp => hf.nextPage halign (hpage p (List.mem_append_right _ hp)).1
  refine ⟨novaSetAlterPageAddress m env q a, ?_, hf, hpq, hpa, hlq'.2, hla'.2,
    fun hmem => hqn (List.mem_cons_of_mem _ hmem), han, hnd⟩
  rw [novaUpdateAlterPagesLoop]
  simp only [ne_eq, hq.2.1, ha.2.1, not_false_eq_true, and_self, if_true, hlq'.headNext hq.1,
    hla'.headNext ha.1]

/-- The pages behind the first pair are among all. -/
theorem mem_cons_append_cons : ∀ p ∈ qs ++ as, p ∈ (q :: qs) ++ (a :: as) := by
  intro p hp
  rcases List.mem_append.mp hp with hp | hp
  · exact List.mem_append_left _ (List.mem_cons_of_mem _ hp)
  · exact List.mem_append_right _ (List.mem_cons_of_mem _ hp)

/-- **Zipping two chains.**  When it ends they were equally long and point to each other. -/
theorem novaUpdateAlterPagesLoop_spec (hcsum : env.metadataCsum = true) :
    ∀ (fuel : Nat) (qs as : List Nat) (m : ByteMem), LinkedTo m 0 qs → LinkedTo m 0 as →
      (∀ p ∈ qs ++ as, IsPage p) → (qs ++ as).Nodup → ∀ m',
      novaUpdateAlterPagesLoop env fuel m (qs.headD 0) (as.headD 0) = .ok m' →
      AlterFrame m m' (qs ++ as) ∧ Paired m' qs as := by
  intro fuel
  induction fuel with
  | zero =>
      intro qs as m _ _ _ _ m' h
      cases h
  | succ fuel ih =>
      intro qs as m hlq hla hpage hnodup m' h
      match qs, as with
      | [], [] =>
          rw [novaUpdateAlterPagesLoop] at h
          simp only [List.headD_nil, ne_eq, not_true_eq_false, and_self, or_self, if_false] at h
          obtain rfl := Except.ok.inj h
          exact ⟨fun _ _ => rfl, List.Forall₂.nil⟩
      | [], a :: as =>
          have ha := (hpage a (by simp)).2.1
          simp [novaUpdateAlterPagesLoop, ha] at h
      | q :: qs, [] =>
          have hq := (hpage q (by simp)).2.1
          simp [novaUpdateAlterPagesLoop, hq] at h
      | q :: qs, a :: as =>
          obtain ⟨m₁, heq, hf, hpq, hpa, hlq', hla', hqn, han, hnd⟩ :=
            novaUpdateAlterPagesLoop_cons hcsum fuel hlq hla hpage hnodup
          rw [List.headD_cons, List.headD_cons, heq] at h
          have hpage' : ∀ p ∈ qs ++ as, IsPage p := fun p hp => hpage p (mem_cons_append_cons p hp)
          obtain ⟨hf', hpair⟩ := ih qs as m₁ hlq' hla' hpage' hnd m' h
          have hmid : ∀ p ∈ [q, a], p ∈ (q :: qs) ++ (a :: as) := by
            intro p hp
            rcases List.mem_pair.mp hp with rfl | rfl <;> simp
          refine ⟨(hf.mono hmid).trans (hf'.mono mem_cons_append_cons), List.Forall₂.cons ?_ hpair⟩
          have halign' : ∀ p ∈ qs ++ as, p % 4096 = 0 := fun p hp => (hpage' p hp).1
          rw [hf'.alterPage halign' (hpage q (by simp)).1 hqn,
            hf'.alterPage halign' (hpage a (by simp)).1 han]
          exact ⟨hpq, hpa⟩

/-- Chains of the same length are zipped to their end, unless the steps run out. -/
theorem novaUpdateAlterPagesLoop_error (hcsum : env.metadataCsum = true) :
    ∀ (fuel : Nat) (qs as : List Nat) (m : ByteMem), LinkedTo m 0 qs → LinkedTo m 0 as →
      (∀ p ∈ qs ++ as, IsPage p) → (qs ++ as).Nodup → qs.length = as.length → ∀ f,
      novaUpdateAlterPagesLoop env fuel m (qs.headD 0) (as.headD 0) = .error f →
      f = .loops ∧ fuel ≤ qs.length := by
  intro fuel
  induction fuel with
  | zero =>
      intro qs as m _ _ _ _ _ f h
      exact ⟨(Except.error.inj h).symm, Nat.zero_le _⟩
  | succ fuel ih =>
      intro qs as m hlq hla hpage hnodup hlen f h
      match qs, as with
      | [], [] => simp [novaUpdateAlterPagesLoop] at h
      | [], a :: as => cases hlen
      | q :: qs, [] => cases hlen
      | q :: qs, a :: as =>
          obtain ⟨m₁, heq, -, -, -, hlq', hla', -, -, hnd⟩ :=
            novaUpdateAlterPagesLoop_cons hcsum fuel hlq hla hpage hnodup
          rw [List.headD_cons, List.headD_cons, heq] at h
          obtain ⟨hf, hle⟩ := ih qs as m₁ hlq' hla' (fun p hp => hpage p (mem_cons_append_cons p hp)) hnd
            (by simpa using hlen) f h
          exact ⟨hf, Nat.succ_le_succ hle⟩

theorem headD_mem (hne : ps ≠ []) : ps.headD 0 ∈ ps := by
  cases ps with
  | nil => exact absurd rfl hne
  | cons p ps => exact List.mem_cons_self

theorem novaUpdateAlterPages_eq (hcsum : env.metadataCsum = true) (hpage : ∀ p ∈ qs ++ as, IsPage p)
    (hq : qs ≠ []) (ha : as ≠ []) : novaUpdateAlterPages env m (qs.headD 0) (as.headD 0) =
      novaUpdateAlterPagesLoop env env.fuel m (qs.headD 0) (as.headD 0) := by
  have hq0 := (hpage _ (List.mem_append_left _ (headD_mem hq))).2.1
  have ha0 := (hpage _ (List.mem_append_right _ (headD_mem ha))).2.1
  unfold novaUpdateAlterPages
  rw [if_neg (by simp only [hq0, ha0, hcsum, Bool.true_eq_false, or_self, not_false_eq_true])]

end Pairs

/-! ### The two chains of a log -/

/-- Place `l` of page number `k` is where `t` points. -/
structure TailAt (pages : List Nat) (t k l : Nat) : Prop where
  tail : t = if pages = [] then 0 else pages.getD k 0 + l
  place : l ≤ 4064
  page : pages ≠ [] → k < pages.length
  start : pages = [] → k = 0 ∧ l = 0

structure Chains (env : LogEnv) (s : LogState) (pages apages : List Nat) : Prop where
  fresh : Fresh (pages ++ apages) s.grants
  isPage : ∀ p ∈ pages ++ apages, IsPage p
  linked : LinkedTo s.mem 0 pages
  head : s.sih.logHead = pages.headD 0
  /-- the replica's chain -/
  twin : env.metadataCsum = true → LinkedTo s.mem 0 apages ∧ s.sih.alterLogHead = apages.headD 0
  noTwin : env.metadataCsum = false → apages = []
  short : apages.length ≤ pages.length

/-- Growing a log keeps what stands in front of the page tails, and the counters and replica
addresses of the pages there were. -/
structure GrowFrame (m m' : ByteMem) (old : List Nat) : Prop where
  body : ∀ x, x % 4096 < 4064 → m' x = m x
  tails : ∀ p ∈ old, numEntries m' p = numEntries m p ∧ invalidEntries m' p = invalidEntries m p ∧
    alterPage m' p = alterPage m p

/-- An extension for which `num` pages were requested adds the pages `qs`, and `as` to the
replica. -/
structure Grown (env : LogEnv) (s s' : LogState) (num curr : Nat) (pages qs apages as : List Nat) :
    Prop where
  chains : Chains env s' (pages ++ qs) (apages ++ as)
  frame : GrowFrame s.mem s'.mem (pages ++ apages)
  clear : Clear s'.mem (qs ++ as)
  tail : ∀ k l, TailAt pages s.sih.logTail k l → TailAt (pages ++ qs) s'.sih.logTail k l
  alterTail : env.metadataCsum = true → ∀ k l, TailAt apages s.sih.alterLogTail k l →
    TailAt (apages ++ as) s'.sih.alterLogTail k l
  refused : curr = 0 → as = [] ∧ (env.metadataCsum = true → Balanced s.grants num → qs = []) ∧
    (env.metadataCsum = false → qs = [])
  grown : curr ≠ 0 → qs ≠ [] ∧ curr = qs.headD 0 ∧ (env.metadataCsum = true → Paired s'.mem qs as)
  count : qs.length + (grantPages s'.grants).length ≤ (grantPages s.grants).length

/-- What an extension does, fault or not.  With requests that are met alike it can only run
out of steps. -/
def ExtendOutcome (env : LogEnv) (s : LogState) (num : Nat) (pages apages : List Nat) :
    Except Fault (LogState × Nat) → Prop
  | .ok v => ∃ qs as, Grown env s v.1 num v.2 pages qs apages as
  | .error f => env.metadataCsum = true ∧ (Balanced s.grants num →
      f = .loops ∧ env.fuel ≤ pages.length + (grantPages s.grants).length)

section Chains

variable {env : LogEnv} {s s' : LogState} {m m' m'' : ByteMem} {pages apages qs as : List Nat}
  {k l t curr : Nat}

theorem getD_mem {i : Nat} (hi : i < pages.length) : pages.getD i 0 ∈ pages := by
  rw [List.getD_eq_getElem _ _ hi]
  exact List.getElem_mem hi

/-- The last page of a chain stands behind the others. -/
theorem split_last (hk : k + 1 = pages.length) : pages = pages.take k ++ [pages.getD k 0] := by
  have hlt : k < pages.length := by omega
  rw [List.getD_eq_getElem _ _ hlt, List.take_append_getElem hlt, hk, List.take_length]

theorem Fresh.rest {gs gs' : Grants} (h : Fresh pages gs) (hg : grantPages gs = qs ++ grantPages gs')
    (hsuf : gs' <:+ gs) : Fresh (pages ++ qs) gs' where
  pages := fun p hp => h.pages p (by rw [hg]; exact List.mem_append_right _ hp)
  nodup := by
    rw [List.append_assoc, ← hg]
    exact h.nodup
  nonempty := fun g' hg' => h.nonempty g' (hsuf.subset hg')

theorem Fresh.less {gs : Grants} (h : Fresh (pages ++ qs) gs) : Fresh pages gs where
  pages := h.pages
  nodup := by
    have := h.nodup
    rw [List.append_assoc] at this
    rw [List.nodup_append] at this ⊢
    refine ⟨this.1, (List.nodup_append.mp this.2.1).2.1, ?_⟩
    intro a ha b hb
    exact this.2.2 a ha b (List.mem_append_right _ hb)
  nonempty := h.nonempty

theorem Fresh.perm {gs : Grants} {used used' : List Nat} (h : Fresh used gs)
    (hperm : List.Perm used used') : Fresh used' gs where
  pages := h.pages
  nodup := ((hperm.append_right _).nodup_iff).mp h.nodup
  nonempty := h.nonempty

/-- The granted pages are pages, and not those in use. -/
theorem Fresh.granted {gs : Grants} {rest : List Nat} (h : Fresh pages gs)
    (hg : grantPages gs = qs ++ rest) : (∀ q ∈ qs, IsPage q) ∧ (∀ q ∈ qs, q % 4096 = 0) ∧
      (∀ p ∈ pages, p ∉ qs) ∧ (pages ++ qs).Nodup := by
  have hpage : ∀ q ∈ qs, IsPage q := fun q hq => h.pages q (by rw [hg]; exact List.mem_append_left _ hq)
  have hnodup := h.nodup
  rw [hg, ← List.append_assoc] at hnodup
  have hnd := (List.nodup_append.mp hnodup).1
  exact ⟨hpage, fun q hq => (hpage q hq).1,
    fun p hp hq => (List.nodup_append.mp hnd).2.2 p hp p hq rfl, hnd⟩

theorem GrowFrame.refl : GrowFrame m m pages := ⟨fun _ _ => rfl, fun _ _ => ⟨rfl, rfl, rfl⟩⟩

theorem GrowFrame.trans (h : GrowFrame m m' pages) (h' : GrowFrame m' m'' pages) :
    GrowFrame m m'' pages where
  body := fun x hx => (h'.body x hx).trans (h.body x hx)
  tails := fun p hp =>
    ⟨(h'.tails p hp).1.trans (h.tails p hp).1, (h'.tails p hp).2.1.trans (h.tails p hp).2.1,
      (h'.tails p hp).2.2.trans (h.tails p hp).2.2⟩

/-- New pages. -/
theorem TailFrame.grow (hf : TailFrame m m' qs) (hqs : ∀ q ∈ qs, q % 4096 = 0)
    (hpages : ∀ p ∈ pages, p % 4096 = 0) (hdisj : ∀ p ∈ pages, p ∉ qs) : GrowFrame m m' pages where
  body := fun _ hx => hf.body hqs hx
  tails := fun p hp =>
    ⟨hf.numEntries hqs (hpages p hp) (hdisj p hp), hf.invalidEntries hqs (hpages p hp) (hdisj p hp),
      hf.alterPage hqs (hpages p hp) (hdisj p hp)⟩

/-- A link from a page. -/
theorem GrowFrame.link {p e : Nat} (hp : p % 4096 = 0) (hpages : ∀ p ∈ pages, p % 4096 = 0) :
    GrowFrame m (novaSetNextPageAddress m p e) pages := by
  have hset : ∀ x, (x < p + 4088 ∨ p + 4096 ≤ x) → novaSetNextPageAddress m p e x = m x := by
    intro x hx
    unfold novaSetNextPageAddress logBlockTail
    exact setWord_of_outside (by omega)
  refine ⟨fun x hx => hset x (by omega), fun q hq => ?_⟩
  have hqa := hpages q hq
  exact ⟨word_congr fun x h1 h2 => hset x (by unfold logBlockTail at *; omega),
    word_congr fun x h1 h2 => hset x (by unfold logBlockTail at *; omega),
    word_congr fun x h1 h2 => hset x (by unfold logBlockTail at *; omega)⟩

/-- Replica addresses of other pages. -/
theorem AlterFrame.grow (hf : AlterFrame m m' qs) (hqs : ∀ q ∈ qs, q % 4096 = 0)
    (hpages : ∀ p ∈ pages, p % 4096 = 0) (hdisj : ∀ p ∈ pages, p ∉ qs) : GrowFrame m m' pages where
  body := fun _ hx => hf.byte hqs (Or.inl (by omega))
  tails := fun p hp =>
    ⟨(hf.counters hqs (hpages p hp)).1, (hf.counters hqs (hpages p hp)).2,
      hf.alterPage hqs (hpages p hp) (hdisj p hp)⟩

theorem GrowFrame.clear (hf : GrowFrame m m' pages) (h : Clear m qs) (hsub : ∀ q ∈ qs, q ∈ pages) :
    Clear m' qs := by
  intro q hq
  obtain ⟨hnum, hinv, -⟩ := hf.tails q (hsub q hq)
  rw [hnum, hinv]
  exact h q hq

/-- The tail stays where it is when pages come behind the last one. -/
theorem TailAt.extend (h : TailAt pages t k l) (hne : pages ≠ []) : TailAt (pages ++ qs) t k l where
  tail := by
    rw [if_neg (by simp [hne]), List.getD_append _ _ _ _ (h.page hne), h.tail, if_neg hne]
  place := h.place
  page := fun _ => by
    have := h.page hne
    rw [List.length_append]
    omega
  start := fun hnil => absurd (List.append_eq_nil_iff.mp hnil).1 hne

/-- The tail of a new log. -/
theorem TailAt.first (hqs : qs ≠ []) : TailAt qs (qs.headD 0) 0 0 where
  tail := by
    cases qs with
    | nil => exact absurd rfl hqs
    | cons q qs => rfl
  place := by omega
  page := fun _ => List.length_pos_of_ne_nil hqs
  start := fun hnil => absurd hnil hqs

/-- The walk along a chain ends at its last page, unless the steps run out. -/
theorem lastLogPage_spec (hlink : LinkedTo m 0 apages) (hpage : ∀ p ∈ apages, IsPage p) :
    ∀ (fuel i : Nat), i < apages.length →
      lastLogPage m fuel (apages.getD i 0) = .ok (apages.getD (apages.length - 1) 0) ∨
        (lastLogPage m fuel (apages.getD i 0) = .error .loops ∧ i + fuel < apages.length) := by
  intro fuel
  induction fuel with
  | zero =>
      intro i hi
      exact Or.inr ⟨rfl, hi⟩
  | succ fuel ih =>
      intro i hi
      obtain ⟨hpa, -, -⟩ := hpage _ (getD_mem hi)
      have hnext : nextLogPage m (apages.getD i 0) = apages.getD (i + 1) 0 := by
        have hb : blockOff (apages.getD i 0) = apages.getD i 0 := by
          unfold blockOff
          omega
        unfold nextLogPage
        rw [hb]
        exact hlink.next hi
      rw [lastLogPage, hnext]
      by_cases hmore : i + 1 < apages.length
      · have hpos := (hpage _ (getD_mem hmore)).2.1
        rw [if_pos (by omega)]
        rcases ih (i + 1) hmore with hok | ⟨herr, hlt⟩
        · exact Or.inl hok
        · exact Or.inr ⟨herr, by omega⟩
      · have hnone : apages.getD (i + 1) 0 = 0 := List.getD_eq_default _ _ (by omega)
        have hlast : apages.length - 1 = i := by omega
        rw [hnone, if_neg (by omega), hlast]
        exact Or.inl rfl

/-- The chains are the same, what is left of the answers is less. -/
theorem Chains.refuse (hc : Chains env s pages apages) {qs : List Nat}
    (hg : grantPages s.grants = qs ++ grantPages s'.grants) (hsuf : s'.grants <:+ s.grants)
    (hsih : s'.sih = s.sih) (hf : TailFrame s.mem s'.mem qs) : Chains env s' pages apages := by
  obtain ⟨-, hqs, hdisj, -⟩ := hc.fresh.granted hg
  have halign : ∀ p ∈ pages ++ apages, p % 4096 = 0 := fun p hp => (hc.isPage p hp).1
  refine ⟨(hc.fresh.rest hg hsuf).less, hc.isPage, ?_, hsih ▸ hc.head, fun hcsum => ?_, hc.noTwin, hc.short⟩
  · exact hc.linked.frame hf hqs (fun p hp => halign p (List.mem_append_left _ hp))
      fun p hp => hdisj p (List.mem_append_left _ hp)
  · obtain ⟨hl, hh⟩ := hc.twin hcsum
    exact ⟨hl.frame hf hqs (fun p hp => halign p (List.mem_append_right _ hp))
      fun p hp => hdisj p (List.mem_append_right _ hp), hsih ▸ hh⟩

/-- An extension whose first allocation is refused. -/
theorem Grown.refuse (hc : Chains env s pages apages) {num : Nat} {ps : List Nat}
    (hg : grantPages s.grants = ps ++ grantPages s'.grants) (hsuf : s'.grants <:+ s.grants)
    (hsih : s'.sih = s.sih) (hf : TailFrame s.mem s'.mem ps) :
    Grown env s s' num 0 pages [] apages [] := by
  obtain ⟨-, hqs, hdisj, -⟩ := hc.fresh.granted hg
  have halign : ∀ p ∈ pages ++ apages, p % 4096 = 0 := fun p hp => (hc.isPage p hp).1
  refine ⟨?_, hf.grow hqs halign hdisj, by simp [Clear], ?_, ?_, fun _ => ⟨rfl, fun _ _ => rfl, fun _ => rfl⟩,
    fun hne => absurd rfl hne, by rw [hg, List.length_append, List.length_nil]; omega⟩
  · rw [List.append_nil, List.append_nil]
    exact hc.refuse hg hsuf hsih hf
  · intro k l ht
    rw [List.append_nil, hsih]
    exact ht
  · intro _ k l ht
    rw [List.append_nil, hsih]
    exact ht

/-- What the first extension writes to the header besides the heads and tails. -/
structure CountedFirst (sih sih' : LogSih) (qs as : List Nat) : Prop where
  refused : qs = [] → sih' = sih
  granted : qs ≠ [] → sih'.logPages = qs.length + as.length
  alter : as = [] → sih'.alterLogHead = sih.alterLogHead

def FirstOutcome (env : LogEnv) (s : LogState) : Except Fault (LogState × Nat) → Prop
  | .ok v => ∃ qs as, Grown env s v.1 1 v.2 [] qs [] as ∧ CountedFirst s.sih v.1.sih qs as
  | .error f => env.metadataCsum = true ∧ (Balanced s.grants 1 →
      f = .loops ∧ env.fuel ≤ 0 + (grantPages s.grants).length)

/-- **The first page of a log**, and of its replica. -/
theorem novaExtendInodeLog_counted (hc : Chains env s [] []) :
    FirstOutcome env s (novaExtendInodeLog env s 0) := by
  generalize h : novaExtendInodeLog env s 0 = v
  have hok := novaAllocateInodeLogPages_spec (m := s.mem) 1 hc.fresh
  obtain ⟨hrest, hcount⟩ := novaAllocateInodeLogPages_take s.mem s.grants 1
  generalize hP : (takeGrants s.grants 1).1 = ps at hok hcount
  generalize ha : novaAllocateInodeLogPages s.mem s.grants 1 = a at hok hcount hrest
  unfold novaExtendInodeLog novaInitializeInodeLog at h
  rw [if_pos rfl, ha] at h
  by_cases hone : a.retPages = 1
  swap
  · simp only [hone, ne_eq, not_false_eq_true, if_true, Bool.not_false] at h
    subst h
    exact ⟨[], [], Grown.refuse hc hok.granted hok.suffix rfl hok.frame, fun _ => rfl,
      fun hne => absurd rfl hne, fun _ => rfl⟩
  obtain ⟨q, rfl⟩ := List.length_eq_one_iff.mp (hcount.symm.trans hone)
  have hblock : a.newBlock = q := hok.head (by simp)
  obtain ⟨hqpage, hqs, -, -⟩ := hc.fresh.granted hok.granted
  have hq := hqpage q (List.mem_singleton_self q)
  have hfresh : Fresh [q] a.grants := by
    have := hc.fresh.rest hok.granted hok.suffix
    rwa [List.append_nil, List.nil_append] at this
  simp only [hone, ne_eq, not_true_eq_false, if_false, Bool.not_true, Bool.false_eq_true, hblock] at h
  have htail : ∀ {sih : LogSih} k l, TailAt [] sih.logTail k l → TailAt ([] ++ [q]) q k l := by
    intro sih k l ht
    obtain ⟨rfl, rfl⟩ := ht.start rfl
    exact TailAt.first (by simp)
  by_cases hcsum : env.metadataCsum = true
  swap
  · -- no replica
    have hcs : env.metadataCsum = false := by simpa using hcsum
    simp only [hcs, Bool.false_eq_true, if_false] at h
    subst h
    refine ⟨[q], [], ⟨⟨hfresh, hqpage, hok.linked, rfl, fun hne => absurd hne hcsum, fun _ => rfl, by simp⟩,
      ⟨fun x hx => hok.frame.body hqs hx, by simp⟩, hok.clear, htail, fun hne => absurd hne hcsum,
      fun h0 => absurd h0 hq.2.1, fun _ => ⟨by simp, rfl, fun hne => absurd hne hcsum⟩,
      by rw [hok.granted, List.length_append]⟩, fun hne => absurd hne (by simp), fun _ => rfl, fun _ => rfl⟩
  · simp only [hcsum, if_true] at h
    have hok₂ := novaAllocateInodeLogPages_spec (m := a.mem) 1 hfresh
    obtain ⟨-, hcount₂⟩ := novaAllocateInodeLogPages_take a.mem a.grants 1
    generalize hA : (takeGrants a.grants 1).1 = ps₂ at hok₂ hcount₂
    generalize hb : novaAllocateInodeLogPages a.mem a.grants 1 = b at h hok₂ hcount₂
    obtain ⟨hapage, has, hdisj, hnodup⟩ := hfresh.granted hok₂.granted
    have hlinkq : LinkedTo b.mem 0 [q] := hok.linked.frame hok₂.frame has hqs hdisj
    by_cases hone₂ : b.retPages = 1
    swap
    · -- the log has a page, the replica has none
      simp only [hone₂, not_false_eq_true, if_true, Bool.not_false] at h
      subst h
      refine ⟨[q], [], ⟨⟨(hfresh.rest hok₂.granted hok₂.suffix).less, hqpage, hlinkq, rfl, ?_,
        fun hne => absurd hcsum (by simp [hne]), by simp⟩, ⟨fun x hx => ?_, by simp⟩, ?_, htail, ?_, ?_,
        fun hne => absurd rfl hne, ?_⟩, fun hne => absurd hne (by simp), fun _ => rfl, fun _ => rfl⟩
      · exact fun _ => ⟨trivial, (hc.twin hcsum).2⟩
      · exact (hok₂.frame.body has hx).trans (hok.frame.body hqs hx)
      · exact hok.clear.frame hok₂.frame has hqs hdisj
      · intro _ k l ht
        exact ht
      · refine fun _ => ⟨rfl, fun _ hbal => ?_, fun hne => absurd hcsum (by simp [hne])⟩
        exfalso
        rw [Balanced, hP, ← hrest, hA] at hbal
        rcases hbal with hbal | hbal
        · exact absurd hbal (by simp)
        · exact hone₂ (hcount₂.trans hbal)
      · rw [hok.granted, hok₂.granted]
        simp only [List.length_append]
        omega
    · obtain ⟨p, rfl⟩ := List.length_eq_one_iff.mp (hcount₂.symm.trans hone₂)
      have hblock₂ : b.newBlock = p := hok₂.head (by simp)
      simp only [hone₂, not_true_eq_false, if_false, Bool.not_true, Bool.false_eq_true, hblock₂,
        novaInitPiLog] at h
      have hpages : ∀ x ∈ [q] ++ [p], IsPage x := by
        intro x hx
        rcases List.mem_append.mp hx with hx | hx
        · exact hqpage x hx
        · exact hapage x hx
      have heq := novaUpdateAlterPages_eq (m := b.mem) hcsum hpages (by simp) (by simp)
      rw [List.headD_cons, List.headD_cons] at heq
      rw [heq] at h
      cases hloop : novaUpdateAlterPagesLoop env env.fuel b.mem q p with
      | error f =>
          rw [hloop] at h
          simp only [Except.map] at h
          subst h
          obtain ⟨hf, hle⟩ := novaUpdateAlterPagesLoop_error hcsum env.fuel [q] [p] b.mem hlinkq
            hok₂.linked hpages hnodup rfl f hloop
          refine ⟨hcsum, fun _ => ⟨hf, ?_⟩⟩
          rw [hok.granted]
          simp only [List.length_append, List.length_cons, List.length_nil] at hle ⊢
          omega
      | ok m' =>
          rw [hloop] at h
          simp only [Except.map] at h
          subst h
          have halign : ∀ x ∈ [q] ++ [p], x % 4096 = 0 := fun x hx => (hpages x hx).1
          obtain ⟨hf, hpair⟩ := novaUpdateAlterPagesLoop_spec hcsum env.fuel [q] [p] b.mem hlinkq
            hok₂.linked hpages hnodup m' hloop
          refine ⟨[q], [p], ⟨⟨?_, hpages, ?_, rfl, fun _ => ⟨?_, rfl⟩,
            fun hne => absurd hcsum (by simp [hne]), by simp⟩, ⟨fun x hx => ?_, by simp⟩, ?_, htail, ?_,
            fun h0 => absurd h0 hq.2.1, fun _ => ⟨by simp, rfl, fun _ => hpair⟩, ?_⟩,
            fun hne => absurd hne (by simp), fun _ => rfl, fun hne => absurd hne (by simp)⟩
          · exact hfresh.rest hok₂.granted hok₂.suffix
          · exact hlinkq.congr fun x hx => hf.nextPage halign (hpages x (List.mem_append_left _ hx)).1
          · exact hok₂.linked.congr fun x hx => hf.nextPage halign (hpages x (List.mem_append_right _ hx)).1
          · have hbyte := hf.byte halign (x := x) (Or.inl (by omega))
            exact hbyte.trans ((hok₂.frame.body has hx).trans (hok.frame.body hqs hx))
          · intro x hx
            obtain ⟨h1, h2⟩ := hf.counters halign (halign x hx)
            rw [h1, h2]
            rcases List.mem_append.mp hx with hx | hx
            · exact hok.clear.frame hok₂.frame has hqs hdisj x hx
            · exact hok₂.clear x hx
          · intro _ k l ht
            obtain ⟨rfl, rfl⟩ := ht.start rfl
            exact TailAt.first (by simp)
          · rw [hok.granted, hok₂.granted]
            simp only [List.length_append]
            omega

theorem novaExtendInodeLog_first (hc : Chains env s [] []) :
    ExtendOutcome env s 1 [] [] (novaExtendInodeLog env s 0) := by
  have hout := novaExtendInodeLog_counted hc
  cases hext : novaExtendInodeLog env s 0 with
  | error f =>
      rw [hext] at hout
      exact hout
  | ok v =>
      rw [hext] at hout
      obtain ⟨qs, as, hg, -⟩ := hout
      exact ⟨qs, as, hg⟩

/-- Later extensions leave the header alone. -/
theorem novaExtendInodeLog_sih {v : LogState × Nat} (hcurr : curr ≠ 0)
    (h : novaExtendInodeLog env s curr = .ok v) : v.1.sih = s.sih := by
  unfold novaExtendInodeLog at h
  simp only [hcurr, if_false] at h
  generalize (if s.sih.logPages ≥ extendThreshold then extendThreshold else s.sih.logPages) = num at h
  generalize novaAllocateInodeLogPages s.mem s.grants num = a at h
  generalize novaSetNextPageAddress a.mem (blockOff curr) a.newBlock = m at h
  generalize novaAllocateInodeLogPages m a.grants num = b at h
  by_cases ha : a.retPages = 0
  · rw [if_pos ha] at h
    exact Except.ok.inj h ▸ rfl
  rw [if_neg ha] at h
  by_cases hcsum : env.metadataCsum = true
  swap
  · rw [if_neg hcsum] at h
    exact Except.ok.inj h ▸ rfl
  rw [if_pos hcsum] at h
  by_cases hb : b.retPages = 0
  · rw [if_pos hb] at h
    exact Except.ok.inj h ▸ rfl
  rw [if_neg hb] at h
  cases hlast : lastLogPage b.mem env.fuel (blockOff s.sih.alterLogTail) with
  | error f =>
      rw [hlast] at h
      cases h
  | ok alterCurr =>
      rw [hlast] at h
      simp only [Except.bind] at h
      cases hup : novaUpdateAlterPages env (novaSetNextPageAddress b.mem alterCurr b.newBlock) a.newBlock
          b.newBlock with
      | error f =>
          rw [hup] at h
          cases h
      | ok m' =>
          rw [hup] at h
          exact Except.ok.inj h ▸ rfl

/-- A chain relinked at its last page. -/
theorem LinkedTo.relinkLast (h : LinkedTo m 0 pages) (hk : k + 1 = pages.length)
    (hpages : ∀ p ∈ pages, p % 4096 = 0) (hnodup : pages.Nodup) {e : Nat} (he : e < 2 ^ 64) :
    LinkedTo (novaSetNextPageAddress m (pages.getD k 0) e) e pages := by
  have hlast := split_last hk
  have hmem : pages.getD k 0 ∈ pages := getD_mem (by omega)
  have hnot : pages.getD k 0 ∉ pages.take k := by
    rw [hlast] at hnodup
    exact fun hc => (List.nodup_append.mp hnodup).2.2 _ hc _ (List.mem_singleton_self _) rfl
  rw [hlast] at h
  have hre := h.relink (hpages _ hmem) (fun q hq => hpages q (List.mem_of_mem_take hq)) hnot he
  rwa [← hlast] at hre

/-- **The pages behind the last one**, and behind the last one of the replica. -/
theorem novaExtendInodeLog_next (hc : Chains env s pages apages) (ht : t ≠ 0) (hk : k + 1 = pages.length)
    (hblock : blockOff t = pages.getD k 0) {i : Nat}
    (htwin : env.metadataCsum = true → k + 1 = apages.length ∧ i < apages.length ∧
      blockOff s.sih.alterLogTail = apages.getD i 0) :
    ExtendOutcome env s (extensionPages s.sih t) pages apages (novaExtendInodeLog env s t) := by
  generalize h : novaExtendInodeLog env s t = v
  have hnum : extensionPages s.sih t =
      if s.sih.logPages ≥ extendThreshold then extendThreshold else s.sih.logPages := if_neg ht
  unfold novaExtendInodeLog at h
  rw [if_neg ht, ← hnum] at h
  generalize extensionPages s.sih t = num at h
  have hok := novaAllocateInodeLogPages_spec (m := s.mem) num hc.fresh
  obtain ⟨hrest, hcount⟩ := novaAllocateInodeLogPages_take s.mem s.grants num
  generalize hP : (takeGrants s.grants num).1 = qs at hok hcount
  generalize ha : novaAllocateInodeLogPages s.mem s.grants num = a at hok hcount hrest
  simp only [ha] at h
  obtain ⟨hqpage, hqs, hdisj, -⟩ := hc.fresh.granted hok.granted
  have halign : ∀ p ∈ pages ++ apages, p % 4096 = 0 := fun p hp => (hc.isPage p hp).1
  have hpalign : ∀ p ∈ pages, p % 4096 = 0 := fun p hp => halign p (List.mem_append_left _ hp)
  have haalign : ∀ p ∈ apages, p % 4096 = 0 := fun p hp => halign p (List.mem_append_right _ hp)
  by_cases hzero : a.retPages = 0
  · simp only [hzero, if_true] at h
    subst h
    exact ⟨[], [], Grown.refuse hc hok.granted hok.suffix rfl hok.frame⟩
  have hne : qs ≠ [] := by
    rintro rfl
    exact hzero hcount
  have hhead : a.newBlock = qs.headD 0 := hok.head hne
  have hq := hqpage _ (headD_mem hne)
  have hpne : pages ≠ [] := by
    rintro rfl
    simp at hk
  have hlast : pages.getD k 0 ∈ pages := getD_mem (by omega)
  have hfresh := hc.fresh.rest hok.granted hok.suffix
  have hnodup := (List.nodup_append.mp hc.fresh.nodup).1
  have hpnodup : pages.Nodup := (List.nodup_append.mp hnodup).1
  simp only [hzero, if_false, hblock, hhead] at h
  -- the memory with the new pages linked to the last one
  have hlink : LinkedTo (novaSetNextPageAddress a.mem (pages.getD k 0) (qs.headD 0)) 0 (pages ++ qs) := by
    rw [linkedTo_append]
    refine ⟨(hc.linked.frame hok.frame hqs hpalign fun p hp =>
      hdisj p (List.mem_append_left _ hp)).relinkLast hk hpalign hpnodup hq.2.2, ?_⟩
    refine hok.linked.congr fun q hq => ?_
    have hqa := hqs q hq
    have hne : q ≠ pages.getD k 0 := by
      rintro rfl
      exact hdisj _ (List.mem_append_left _ hlast) hq
    have hka := hpalign _ hlast
    unfold novaSetNextPageAddress nextPage logBlockTail
    exact word_setWord_of_disjoint (by omega)
  have hgrow : ∀ ps, (∀ p ∈ ps, p % 4096 = 0) →
      GrowFrame a.mem (novaSetNextPageAddress a.mem (pages.getD k 0) (qs.headD 0)) ps :=
    fun ps hps => GrowFrame.link (hpalign _ hlast) hps
  have hframe : GrowFrame s.mem (novaSetNextPageAddress a.mem (pages.getD k 0) (qs.headD 0))
      (pages ++ apages) := (hok.frame.grow hqs halign hdisj).trans (hgrow _ halign)
  have hclear : Clear (novaSetNextPageAddress a.mem (pages.getD k 0) (qs.headD 0)) qs :=
    (hgrow qs hqs).clear hok.clear fun q hq => hq
  have hpages : ∀ p ∈ (pages ++ qs) ++ apages, IsPage p := by
    intro p hp
    rw [List.append_assoc, List.mem_append, List.mem_append] at hp
    rcases hp with hp | hp | hp
    · exact hc.isPage p (List.mem_append_left _ hp)
    · exact hqpage p hp
    · exact hc.isPage p (List.mem_append_right _ hp)
  have hperm : List.Perm (pages ++ apages ++ qs) (pages ++ qs ++ apages) := by
    rw [List.append_assoc, List.append_assoc]
    exact List.Perm.append_left pages List.perm_append_comm
  have htail : ∀ k l, TailAt pages s.sih.logTail k l → TailAt (pages ++ qs) s.sih.logTail k l :=
    fun k l ht => ht.extend hpne
  have hheadp : s.sih.logHead = (pages ++ qs).headD 0 := by
    rw [hc.head]
    cases pages with
    | nil => exact absurd rfl hpne
    | cons => rfl
  by_cases hcsum : env.metadataCsum = true
  swap
  · have hcs : env.metadataCsum = false := by simpa using hcsum
    obtain rfl := hc.noTwin hcs
    simp only [hcs, Bool.false_eq_true, if_false] at h
    subst h
    refine ⟨qs, [], ⟨⟨hfresh.perm (by simp), hpages, hlink, hheadp,
      fun hne => absurd hne hcsum, fun _ => rfl, by simp⟩, hframe, by simpa using hclear, htail,
      fun hne => absurd hne hcsum, fun h0 => absurd h0 hq.2.1,
      fun _ => ⟨hne, rfl, fun hne => absurd hne hcsum⟩, by rw [hok.granted, List.length_append]⟩⟩
  obtain ⟨hak, hi, hablock⟩ := htwin hcsum
  have htrue : ¬env.metadataCsum = false := by simp [hcsum]
  simp only [hcsum, if_true] at h
  generalize hm₁ : novaSetNextPageAddress a.mem (pages.getD k 0) (qs.headD 0) = m₁ at h hlink hframe hclear
  have hok₂ := novaAllocateInodeLogPages_spec (m := m₁) num hfresh
  obtain ⟨-, hcount₂⟩ := novaAllocateInodeLogPages_take m₁ a.grants num
  generalize hA : (takeGrants a.grants num).1 = as at hok₂ hcount₂
  generalize hb : novaAllocateInodeLogPages m₁ a.grants num = b at h hok₂ hcount₂
  obtain ⟨hapage, has, hdisj₂, hnodup₂⟩ := hfresh.granted hok₂.granted
  have hfresh₂ := hfresh.rest hok₂.granted hok₂.suffix
  have hdisj₃ : ∀ p ∈ pages ++ qs, p ∉ as := by
    intro p hp
    refine hdisj₂ p ?_
    rcases List.mem_append.mp hp with hp | hp
    · exact List.mem_append_left _ (List.mem_append_left _ hp)
    · exact List.mem_append_right _ hp
  have hqalign : ∀ p ∈ pages ++ qs, p % 4096 = 0 :=
    fun p hp => (hpages p (List.mem_append_left _ hp)).1
  have hlink₂ := hlink.frame hok₂.frame has hqalign hdisj₃
  have hframe₂ : GrowFrame s.mem b.mem (pages ++ apages) :=
    hframe.trans (hok₂.frame.grow has halign fun p hp => hdisj₂ p (List.mem_append_left _ hp))
  have hclear₂ : Clear b.mem qs :=
    hclear.frame hok₂.frame has hqs fun p hp => hdisj₂ p (List.mem_append_right _ hp)
  have halink : LinkedTo b.mem 0 apages := by
    refine LinkedTo.congr (m := s.mem) (hc.twin hcsum).1 fun p hp => ?_
    have hpmem : p ∈ pages ++ apages := List.mem_append_right _ hp
    have hpa := halign p hpmem
    have hne' : p ≠ pages.getD k 0 := by
      rintro rfl
      exact (List.nodup_append.mp hnodup).2.2 _ hlast _ hp rfl
    have hka := hpalign _ hlast
    rw [hok₂.frame.nextPage has hpa (hdisj₂ p (List.mem_append_left _ hpmem)), ← hm₁]
    have hset : nextPage (novaSetNextPageAddress a.mem (pages.getD k 0) (qs.headD 0)) p =
        nextPage a.mem p := by
      unfold novaSetNextPageAddress nextPage logBlockTail
      exact word_setWord_of_disjoint (by omega)
    rw [hset, hok.frame.nextPage hqs hpa (hdisj p hpmem)]
  by_cases hzero₂ : b.retPages = 0
  · -- the log has new pages, the replica has none
    simp only [hzero₂, if_true] at h
    subst h
    refine ⟨qs, [], ⟨⟨?_, ?_, hlink₂, hheadp, fun _ => ⟨?_, ?_⟩, fun hne => absurd hne htrue, ?_⟩,
      hframe₂, ?_, htail, ?_, ?_, fun hne => absurd rfl hne, ?_⟩⟩
    · rw [List.append_nil]
      exact hfresh₂.less.perm hperm
    · rw [List.append_nil]
      exact hpages
    · rw [List.append_nil]
      exact halink
    · rw [List.append_nil]
      exact (hc.twin hcsum).2
    · rw [List.append_nil, List.length_append]
      have := hc.short
      omega
    · rw [List.append_nil]
      exact hclear₂
    · intro _ k l ht
      rw [List.append_nil]
      exact ht
    · refine fun _ => ⟨rfl, fun _ hbal => ?_, fun hne => absurd hne htrue⟩
      rw [Balanced, hP, ← hrest, hA] at hbal
      rcases hbal with hbal | hbal
      · exact hbal
      · exfalso
        have := List.length_pos_of_ne_nil hne
        omega
    · rw [hok.granted, hok₂.granted]
      simp only [List.length_append]
      omega
  · have hane : as ≠ [] := by
      rintro rfl
      exact hzero₂ hcount₂
    have hahead : b.newBlock = as.headD 0 := hok₂.head hane
    have hap := hapage _ (headD_mem hane)
    have hanodup : apages.Nodup := (List.nodup_append.mp hnodup).2.1
    have hapne : apages ≠ [] := by
      rintro rfl
      simp at hak
    have halast : apages.getD k 0 ∈ apages := getD_mem (by omega)
    simp only [hzero₂, if_false, hahead, hablock] at h
    rcases lastLogPage_spec halink (fun p hp => hc.isPage p (List.mem_append_right _ hp)) env.fuel i hi
      with hv | ⟨hv, hshort⟩
    swap
    · rw [hv] at h
      simp only [Except.bind] at h
      subst h
      exact ⟨hcsum, fun _ => ⟨rfl, by omega⟩⟩
    · rw [hv] at h
      have hlen : apages.length - 1 = k := by omega
      simp only [Except.bind, hlen] at h
      generalize hm₂ : novaSetNextPageAddress b.mem (apages.getD k 0) (as.headD 0) = m₂ at h
      have hpages₂ : ∀ p ∈ qs ++ as, IsPage p := by
        intro p hp
        rcases List.mem_append.mp hp with hp | hp
        · exact hqpage p hp
        · exact hapage p hp
      have halign₂ : ∀ p ∈ qs ++ as, p % 4096 = 0 := fun p hp => (hpages₂ p hp).1
      have hnodup₃ : (qs ++ as).Nodup := by
        rw [List.append_assoc] at hnodup₂
        exact (List.nodup_append.mp hnodup₂).2.1
      have hka := haalign _ halast
      have hother : ∀ p, p % 4096 = 0 → p ≠ apages.getD k 0 → nextPage m₂ p = nextPage b.mem p := by
        intro p hp hne
        rw [← hm₂]
        unfold novaSetNextPageAddress nextPage logBlockTail
        exact word_setWord_of_disjoint (by omega)
      have hlinkp : LinkedTo m₂ 0 (pages ++ qs) := by
        refine hlink₂.congr fun p hp => hother p (hqalign p hp) ?_
        rintro rfl
        rcases List.mem_append.mp hp with hp | hp
        · exact (List.nodup_append.mp hnodup).2.2 _ hp _ halast rfl
        · exact hdisj _ (List.mem_append_right _ halast) hp
      have hlinka : LinkedTo m₂ 0 (apages ++ as) := by
        rw [linkedTo_append]
        refine ⟨?_, hok₂.linked.congr fun p hp => hother p (has p hp) ?_⟩
        · rw [← hm₂]
          exact halink.relinkLast hak haalign hanodup hap.2.2
        · rintro rfl
          exact hdisj₂ _ (List.mem_append_left _ (List.mem_append_right _ halast)) hp
      have hgrow₂ : ∀ ps, (∀ p ∈ ps, p % 4096 = 0) → GrowFrame b.mem m₂ ps := by
        intro ps hps
        rw [← hm₂]
        exact GrowFrame.link hka hps
      rw [novaUpdateAlterPages_eq hcsum hpages₂ hne hane] at h
      cases hloop : novaUpdateAlterPagesLoop env env.fuel m₂ (qs.headD 0) (as.headD 0) with
      | error f =>
          rw [hloop] at h
          simp only [Except.map] at h
          subst h
          refine ⟨hcsum, fun hbal => ?_⟩
          have hlen₂ : qs.length = as.length := by
            rw [Balanced, hP, ← hrest, hA] at hbal
            rcases hbal with hbal | hbal
            · exact absurd hbal hne
            · exact hbal.symm
          obtain ⟨hf, hle⟩ := novaUpdateAlterPagesLoop_error hcsum env.fuel qs as m₂
            (linkedTo_append.mp hlinkp).2 (linkedTo_append.mp hlinka).2 hpages₂ hnodup₃ hlen₂ f hloop
          refine ⟨hf, ?_⟩
          rw [hok.granted, List.length_append]
          omega
      | ok m' =>
          rw [hloop] at h
          simp only [Except.map] at h
          subst h
          obtain ⟨hf, hpair⟩ := novaUpdateAlterPagesLoop_spec hcsum env.fuel qs as m₂
            (linkedTo_append.mp hlinkp).2 (linkedTo_append.mp hlinka).2 hpages₂ hnodup₃ m' hloop
          have hnotin : ∀ p ∈ pages ++ apages, p ∉ qs ++ as := by
            intro p hp hmem
            rcases List.mem_append.mp hmem with hmem | hmem
            · exact hdisj p hp hmem
            · exact hdisj₂ p (List.mem_append_left _ hp) hmem
          have hfinal : ∀ p ∈ (pages ++ qs) ++ (apages ++ as), IsPage p := by
            intro p hp
            rcases List.mem_append.mp hp with hp | hp
            · exact hpages p (List.mem_append_left _ hp)
            · rcases List.mem_append.mp hp with hp | hp
              · exact hc.isPage p (List.mem_append_right _ hp)
              · exact hapage p hp
          have hlast₂ : LinkedTo m' 0 (pages ++ qs) :=
            hlinkp.congr fun p hp => hf.nextPage halign₂ (hqalign p hp)
          have hlast₃ : LinkedTo m' 0 (apages ++ as) :=
            hlinka.congr fun p hp => hf.nextPage halign₂ (hfinal p (List.mem_append_right _ hp)).1
          refine ⟨qs, as, ⟨⟨?_, hfinal, hlast₂, hheadp, fun _ => ⟨hlast₃, ?_⟩,
            fun hne => absurd hne htrue, ?_⟩, ?_, ?_, htail, ?_, fun h0 => absurd h0 hq.2.1,
            fun _ => ⟨hne, rfl, fun _ => hpair⟩, ?_⟩⟩
          · refine hfresh₂.perm ?_
            rw [← List.append_assoc (pages ++ qs)]
            exact hperm.append_right as
          · show s.sih.alterLogHead = _
            rw [(hc.twin hcsum).2]
            cases apages with
            | nil => exact absurd rfl hapne
            | cons => rfl
          · have := hpair.length_eq
            simp only [List.length_append]
            omega
          · exact (hframe₂.trans (hgrow₂ _ halign)).trans (hf.grow halign₂ halign hnotin)
          · intro p hp
            obtain ⟨h1, h2⟩ := hf.counters halign₂ (halign₂ p hp)
            rw [h1, h2]
            refine (hgrow₂ (qs ++ as) halign₂).clear ?_ (fun q hq => hq) p hp
            intro q hq
            rcases List.mem_append.mp hq with hq | hq
            · exact hclear₂ q hq
            · exact hok₂.clear q hq
          · exact fun _ k l ht => ht.extend hapne
          · rw [hok.granted, hok₂.granted]
            simp only [List.length_append]
            omega

end Chains

end Parfs
