/-
A snapshot list is the same list after a save and a restore.

Both copies go along two chains and take over what is in front of the page tails.  They copy as many
pages as the list counts, and the tail of the copy is in the last page copied.  So what they need is
a list that has the pages it counts and ends in the last of them, and that is the list no appender
was overtaken in.
-/
import Parfs.Proofs.Snapshot
import Parfs.Proofs.LogExtend
import Mathlib.Data.List.Perm.Subperm

namespace Parfs

open Lib ByteMem

variable {m m' src dst dram nvmm : ByteMem} {p q x n i page epochId : Nat} {pages ps qs used : List Nat}
  {es : List SnapshotEntry} {list list' l l' : SnapshotList}

/-! ### A copy of a list -/

/-- The list has the pages it counts, and one at least. -/
def SnapshotList.Counted (m : ByteMem) (list : SnapshotList) : Prop :=
  ∃ pages, LogChain m list.head pages ∧ pages ≠ [] ∧ list.numPages = pages.length

/-- `l'` is a copy of `l` in the pages `qs` of another memory. -/
structure ListCopied (src : ByteMem) (l : SnapshotList) (ps : List Nat) (dst : ByteMem) (l' : SnapshotList)
    (qs : List Nat) : Prop where
  chain : LogChain dst l'.head qs
  nodup : qs.Nodup
  length : qs.length = ps.length
  numPages : l'.numPages = qs.length
  tail : l'.tail = qs.getLastD 0 + entryLoc l.tail
  same : ∀ i < ps.length, ∀ o < 4064, dst (qs.getD i 0 + o) = src (ps.getD i 0 + o)

theorem SnapshotEntry.read_shift (h : ∀ o < 32, m' (p + o) = m (q + o)) : read m' p = read m q := by
  have hword : ∀ o, o + 8 ≤ 32 → m'.word (p + o) 8 = m.word (q + o) 8 := by
    intro o ho
    unfold word ByteMem.read
    refine congrArg leValue (List.map_congr_left fun j hj => ?_)
    rw [List.mem_range] at hj
    rw [Nat.add_assoc, Nat.add_assoc]
    exact h (o + j) (by omega)
  have h0 := h 0 (by omega)
  unfold read novaGetEntryType
  rw [Nat.add_zero, Nat.add_zero] at h0
  rw [h0, h 1 (by omega), hword 8 (by omega), hword 16 (by omega), hword 24 (by omega)]

theorem getLastD_eq_getD (hn : n + 1 = qs.length) : qs.getLastD 0 = qs.getD n 0 := by
  rw [List.getLastD_eq_getLast?, List.getLast?_eq_getElem?, List.getD_eq_getElem?_getD, ← hn, Nat.add_sub_cancel]

/-- **A copy holds the same entries.** -/
theorem SnapshotLog.copied (h : SnapshotLog src l ps es) (hlast : endPage es.length + 1 = ps.length)
    (hcopy : ListCopied src l ps dst l' qs) : SnapshotLog dst l' qs es := by
  have hlen := hcopy.length
  have halign := (h.chain.isPage _ (getD_mem h.room)).1
  refine ⟨hcopy.chain, hcopy.nodup, by omega, ?_, ?_⟩
  · have htail := h.tail
    rw [snapshotEnd_eq] at htail
    rw [hcopy.tail, snapshotEnd_eq, getLastD_eq_getD (hlast.trans hlen.symm), htail]
    unfold entryLoc
    split <;> omega
  · intro i e hi
    obtain ⟨hlt, -⟩ := List.getElem?_eq_some_iff.mp hi
    have hin : i / 127 ≤ endPage es.length := Nat.div_le_div_right (by omega)
    rw [← h.entries i e hi]
    refine SnapshotEntry.read_shift fun o ho => ?_
    unfold snapshotSlot
    rw [Nat.add_assoc, Nat.add_assoc]
    exact hcopy.same (i / 127) (by omega) _ (by omega)

/-! ### The loop of the copies -/

/-- **Copying along two chains of one length.** -/
theorem copySnapshotListLoop_spec (dramAddr : Nat × Nat → Nat)
    (hdram : ∀ s d, s ≠ 0 → d ≠ 0 → dramAddr (s, d) ≠ 0) :
    ∀ (ps qs : List Nat) (dst : ByteMem) (prev : Nat), qs.length = ps.length → LinkedTo src 0 ps → LinkedTo dst 0 qs →
      (∀ p ∈ ps, IsPage p) → (∀ q ∈ qs, IsPage q) → qs.Nodup →
      ∃ dst', copySnapshotListLoop dramAddr src ps.length dst prev (qs.headD 0) (ps.headD 0) =
          .ok (dst', qs.getLastD prev) ∧
        (∀ x, (∀ q ∈ qs, x < q ∨ q + 4064 ≤ x) → dst' x = dst x) ∧
        ∀ i < ps.length, ∀ o < 4064, dst' (qs.getD i 0 + o) = src (ps.getD i 0 + o) := by
  intro ps
  induction ps with
  | nil =>
      intro qs dst prev hlen _ _ _ _ _
      obtain rfl := List.eq_nil_of_length_eq_zero hlen
      exact ⟨dst, rfl, fun _ _ => rfl, fun i hi => absurd hi (Nat.not_lt_zero i)⟩
  | cons p ps ih =>
      intro qs dst prev hlen hps hqs hp hq hnodup
      obtain ⟨q, qs, rfl⟩ := List.exists_cons_of_length_eq_add_one hlen
      obtain ⟨hpAlign, hp0, -⟩ := hp p (by simp)
      obtain ⟨hqAlign, hq0, -⟩ := hq q (by simp)
      obtain ⟨hnotin, hnodup'⟩ := List.nodup_cons.mp hnodup
      have hout : ∀ x, x < q ∨ q + 4064 ≤ x → dst.write q (src.read p logBlockTail) x = dst x :=
        fun x hx => write_of_outside (by rw [read_length]; exact hx)
      have hqs' : LinkedTo (dst.write q (src.read p logBlockTail)) 0 (q :: qs) :=
        hqs.congr fun r hr => word_congr fun x h1 h2 => hout x (by
          have := (hq r hr).1
          unfold logBlockTail at h1 h2
          omega)
      obtain ⟨dst', hrun, hframe, hsame⟩ := ih qs _ q (by simpa using hlen) hps.2 hqs'.2
        (fun r hr => hp r (by simp [hr])) (fun r hr => hq r (by simp [hr])) hnodup'
      refine ⟨dst', ?_, ?_, ?_⟩
      · rw [List.length_cons, copySnapshotListLoop]
        simp only [List.headD_cons, hdram p q hp0 hq0, if_false]
        rw [hqs'.headNext hqAlign, hps.headNext hpAlign, hrun]
        cases qs <;> rfl
      · intro x hx
        rw [hframe x fun r hr => hx r (by simp [hr]), hout x (hx q (by simp))]
      · intro i hi o ho
        cases i with
        | zero =>
            simp only [List.getD_cons_zero]
            rw [hframe (q + o) fun r hr => ?_, write_of_inside (by rw [read_length]; exact ho),
              List.getD_eq_getElem _ _ (by rw [read_length]; exact ho)]
            · simp [ByteMem.read]
            · have hne : r ≠ q := fun heq => hnotin (heq ▸ hr)
              have := (hq r (by simp [hr])).1
              omega
        | succ i =>
            simp only [List.getD_cons_succ]
            exact hsame i (by simpa using hi) o ho

/-- What both copies come to. -/
theorem copySnapshotList_copied (dramAddr : Nat × Nat → Nat)
    (hdram : ∀ s d, s ≠ 0 → d ≠ 0 → dramAddr (s, d) ≠ 0) {head : Nat} (hps : LogChain src l.head ps)
    (hqs : LogChain dst head qs) (hnodup : qs.Nodup) (hlen : qs.length = ps.length) (hne : ps ≠ []) (prev : Nat) :
    ∃ dst' last, copySnapshotListLoop dramAddr src ps.length dst prev head l.head = .ok (dst', last) ∧
      (∀ x, (∀ q ∈ qs, x < q ∨ q + 4064 ≤ x) → dst' x = dst x) ∧
      ListCopied src l ps dst' ⟨ps.length, head, last + entryLoc l.tail⟩ qs := by
  obtain ⟨dst', hrun, hframe, hsame⟩ := copySnapshotListLoop_spec dramAddr hdram ps qs dst prev hlen hps.linked hqs.linked
    hps.isPage hqs.isPage hnodup
  rw [← hps.head, ← hqs.head] at hrun
  refine ⟨dst', _, hrun, hframe, ⟨hqs.linked.congr fun q hq => word_congr fun x h1 h2 => hframe x fun r hr => ?_,
    hqs.head, hqs.isPage⟩, hnodup, hlen, hlen.symm, ?_, hsame⟩
  · have := (hqs.isPage q hq).1
    have := (hqs.isPage r hr).1
    unfold logBlockTail at h1 h2
    omega
  · show qs.getLastD prev + _ = _
    have hqne : qs ≠ [] := fun hnil => hne (List.eq_nil_of_length_eq_zero (by rw [← hlen, hnil]; rfl))
    rw [List.getLastD_eq_getLast?, List.getLastD_eq_getLast?, List.getLast?_eq_some_getLast hqne]
    rfl

/-- A copy stays when its pages stay. -/
theorem ListCopied.congr (h : ListCopied src l ps dst l' qs)
    (heq : ∀ q ∈ qs, ∀ x, q ≤ x → x < q + 4096 → m x = dst x) : ListCopied src l ps m l' qs where
  chain := ⟨h.chain.linked.congr fun q hq => word_congr fun x h1 h2 => by
    unfold logBlockTail at h1 h2
    exact heq q hq x (by omega) (by omega), h.chain.head, h.chain.isPage⟩
  nodup := h.nodup
  length := h.length
  numPages := h.numPages
  tail := h.tail
  same := by
    intro i hi o ho
    have hlt : i < qs.length := h.length ▸ hi
    rw [heq _ (getD_mem hlt) _ (by omega) (by omega)]
    exact h.same i hi o ho

/-! ### Saving -/

/-- Distinct pages are fewer than 2^64. -/
theorem pages_length_lt (hpages : ∀ p ∈ pages, IsPage p) (hnodup : pages.Nodup) : pages.length < 2 ^ 64 := by
  have hmap : (pages.map (· / 4096)).Nodup := hnodup.map_on fun a ha b hb hab => by
    have := (hpages a ha).1
    have := (hpages b hb).1
    omega
  have hsub : pages.map (· / 4096) ⊆ List.range (2 ^ 52) := by
    intro b hb
    obtain ⟨p, hp, rfl⟩ := List.mem_map.mp hb
    have := (hpages p hp).2.2
    rw [List.mem_range]
    omega
  have hle := (List.subperm_of_subset hmap hsub).length_le
  rw [List.length_map, List.length_range] at hle
  omega

/-- The entry for a CPU in the page of the lists. -/
theorem setNvmmList_spec (m : ByteMem) (page i : Nat) (hnum : list.numPages < 2 ^ 64) (hhead : list.head < 2 ^ 64) (htail : list.tail < 2 ^ 64) :
    nvmmList (setNvmmList m page i list) page i = list ∧
      ∀ x, x < page + 32 * i ∨ page + 32 * (i + 1) ≤ x → setNvmmList m page i list x = m x := by
  have hwide : 2 ^ 64 = 256 ^ 8 := by norm_num
  rw [hwide] at hnum hhead htail
  constructor
  · have h1 : (setNvmmList m page i list).word (nvmmListAddr page i + 8) 8 = list.numPages := by
      unfold setNvmmList
      rw [word_setWord_of_disjoint (by omega), word_setWord_of_disjoint (by omega), word_setWord hnum]
    have h2 : (setNvmmList m page i list).word (nvmmListAddr page i + 16) 8 = list.head := word_setWord hhead
    have h3 : (setNvmmList m page i list).word (nvmmListAddr page i + 24) 8 = list.tail := by
      unfold setNvmmList
      rw [word_setWord_of_disjoint (by omega), word_setWord htail]
    unfold nvmmList
    rw [h1, h2, h3]
  · intro x hx
    unfold setNvmmList nvmmListAddr
    rw [setWord_of_outside (by omega), setWord_of_outside (by omega), setWord_of_outside (by omega)]

theorem nvmmList_congr (h : ∀ x, page + 32 * i ≤ x → x < page + 32 * (i + 1) → m' x = m x) :
    nvmmList m' page i = nvmmList m page i := by
  have hword : ∀ o, o + 8 ≤ 32 → m'.word (nvmmListAddr page i + o) 8 = m.word (nvmmListAddr page i + o) 8 := by
    intro o ho
    unfold nvmmListAddr
    exact word_congr fun x h1 h2 => h x (by omega) (by omega)
  unfold nvmmList
  rw [hword 8 (by omega), hword 16 (by omega), hword 24 (by omega)]

/-- One list of a save. -/
theorem saveList_spec (nvmm : ByteMem) {gs : Grants} (hcount : l.Counted dram) (hfresh : Fresh used gs)
    (hret : (novaAllocateInodeLogPages nvmm gs l.numPages).retPages = l.numPages) :
    ∃ ps qs nvmm' l', LogChain dram l.head ps ∧ l.numPages = ps.length ∧
      grantPages gs = qs ++ grantPages (novaAllocateInodeLogPages nvmm gs l.numPages).grants ∧
      Fresh (used ++ qs) (novaAllocateInodeLogPages nvmm gs l.numPages).grants ∧
      novaCopySnapshotListToNvmm dram (novaAllocateInodeLogPages nvmm gs l.numPages).mem l
        (novaAllocateInodeLogPages nvmm gs l.numPages).newBlock = .ok (nvmm', l') ∧
      ListCopied dram l ps nvmm' l' qs ∧ ∀ x, (∀ q ∈ qs, x < q ∨ q + 4096 ≤ x) → nvmm' x = nvmm x := by
  obtain ⟨ps, hps, hne, hnum⟩ := hcount
  obtain ⟨qs, hok⟩ := novaAllocateInodeLogPages_ok (m := nvmm) l.numPages hfresh
  have hcount := hok.count
  have hlink := hok.linked
  have hhead := hok.head
  have hframe := hok.frame
  rw [List.nil_append] at hcount hlink hhead hframe
  obtain ⟨hpage, halign, -, hnodup⟩ := hfresh.granted hok.granted
  have hlen : qs.length = ps.length := by omega
  have hqne : qs ≠ [] := fun hnil => hne (List.eq_nil_of_length_eq_zero (by rw [← hlen, hnil]; rfl))
  obtain ⟨nvmm', last, hrun, hkept, hcopy⟩ := copySnapshotList_copied Prod.fst (fun s d hs _ => hs)
    hps ⟨hlink, hhead hqne, hpage⟩ (List.nodup_append.mp hnodup).2.1 hlen hne
    (novaAllocateInodeLogPages nvmm gs l.numPages).newBlock
  refine ⟨ps, qs, nvmm', _, hps, hnum, hok.granted, hfresh.rest hok.granted hok.suffix, ?_, hcopy, fun x hx => ?_⟩
  · unfold novaCopySnapshotListToNvmm
    rw [hnum] at hrun ⊢
    rw [hrun]
    rfl
  · rw [hkept x fun q hq => by have := hx q hq; omega]
    exact hframe x fun q hq => by have := hx q hq; omega

/-- **Saving the lists from CPU `i` on.**  It stops for want of pages or copies every list into
pages of its own; the induction is on the lists that are left. -/
theorem saveListsLoop_spec (hpage : IsPage page) : ∀ (lists : List SnapshotList) (i : Nat) (nvmm : ByteMem)
    (gs : Grants) (used : List Nat), Fresh used gs → page ∈ used → i + lists.length ≤ 128 →
      (∀ l ∈ lists, l.Counted dram) →
      (saveListsLoop dram page lists i nvmm gs = .error (.errno .enospc)) ∨
      ∃ nvmm' gs', saveListsLoop dram page lists i nvmm gs = .ok (nvmm', gs') ∧
        (∀ x, (∀ q ∈ grantPages gs, x < q ∨ q + 4096 ≤ x) →
          x < page + 32 * i ∨ page + 32 * (i + lists.length) ≤ x → nvmm' x = nvmm x) ∧
        ∀ j l, lists[j]? = some l → ∃ ps qs, LogChain dram l.head ps ∧ l.numPages = ps.length ∧ ps ≠ [] ∧
          ListCopied dram l ps nvmm' (nvmmList nvmm' page (i + j)) qs := by
  intro lists
  induction lists with
  | nil => exact fun i nvmm gs used _ _ _ _ => Or.inr ⟨nvmm, gs, rfl, fun _ _ _ => rfl, fun j l hj => by simp at hj⟩
  | cons l lists ih =>
      intro i nvmm gs used hfresh hin hroom hcounted
      rw [List.length_cons] at hroom
      by_cases hret : (novaAllocateInodeLogPages nvmm gs l.numPages).retPages = l.numPages
      swap
      · left
        rw [saveListsLoop]
        simp only [ne_eq, hret, not_false_eq_true, if_true]
      obtain ⟨ps, qs, nvmm₁, l', hps, hnum, hgrant, hfresh', hcopy, hcopied, hframe⟩ :=
        saveList_spec nvmm (hcounted l (by simp)) hfresh hret
      have hne : ps ≠ [] := by
        obtain ⟨ps', hps', hne', -⟩ := hcounted l (by simp)
        rw [hps.unique hps']
        exact hne'
      obtain ⟨hqpage, -, hused, hqnodup⟩ := hfresh.granted hgrant
      -- what is stored for the CPU fits into its words
      have hlen : l'.numPages < 2 ^ 64 := by
        rw [hcopied.numPages]
        exact pages_length_lt hqpage hcopied.nodup
      have hqne : qs ≠ [] := fun hnil => hne (List.eq_nil_of_length_eq_zero (by rw [← hcopied.length, hnil]; rfl))
      have hhead : l'.head < 2 ^ 64 := by
        rw [hcopied.chain.head, List.headD_eq_head?_getD, List.head?_eq_some_head hqne]
        exact (hqpage _ (List.head_mem hqne)).2.2
      have htail : l'.tail < 2 ^ 64 := by
        rw [hcopied.tail, List.getLastD_eq_getLast?, List.getLast?_eq_some_getLast hqne]
        obtain ⟨hlastAlign, -, hlastLt⟩ := hqpage _ (List.getLast_mem hqne)
        unfold entryLoc
        simp only [Option.getD_some]
        omega
      obtain ⟨hstored, hkept⟩ := setNvmmList_spec nvmm₁ page i hlen hhead htail
      have hloop : saveListsLoop dram page (l :: lists) i nvmm gs = saveListsLoop dram page lists (i + 1)
          (setNvmmList nvmm₁ page i l') (novaAllocateInodeLogPages nvmm gs l.numPages).grants := by
        rw [saveListsLoop]
        simp only [hret, ne_eq, not_true_eq_false, if_false, hcopy]
      rw [hloop]
      -- the page of the lists and the granted pages are apart
      have hapart : ∀ q ∈ grantPages gs, q + 4096 ≤ page ∨ page + 4096 ≤ q := by
        intro q hq
        have hqp := hfresh.pages q hq
        have hneq : q ≠ page := by
          rintro rfl
          exact (List.nodup_append.mp hfresh.nodup).2.2 q hin q hq rfl
        have := hqp.1
        have := hpage.1
        omega
      have hsubset : ∀ q ∈ qs, q ∈ grantPages gs := fun q hq => by
        rw [hgrant]
        exact List.mem_append_left _ hq
      rcases ih (i + 1) (setNvmmList nvmm₁ page i l') _ _ hfresh' (List.mem_append_left _ hin) (by omega)
        fun l hl => hcounted l (by simp [hl]) with herr | ⟨nvmm', gs', hrun, hframe', hall⟩
      · exact Or.inl herr
      right
      refine ⟨nvmm', gs', hrun, fun x hx hout => ?_, fun j l₀ hj => ?_⟩
      · rw [List.length_cons] at hout
        rw [hframe' x (fun q hq => hx q (by rw [hgrant]; exact List.mem_append_right _ hq)) (by omega),
          hkept x (by omega), hframe x fun q hq => hx q (hsubset q hq)]
      · cases j with
        | zero =>
            obtain rfl := Option.some.inj hj
            have hrecord : nvmmList nvmm' page (i + 0) = l' := by
              rw [Nat.add_zero, ← hstored]
              refine nvmmList_congr fun x h1 h2 => hframe' x (fun q hq => ?_) (by omega)
              have := hapart q (by rw [hgrant]; exact List.mem_append_right _ hq)
              omega
            refine ⟨ps, qs, hps, hnum, hne, ?_⟩
            rw [hrecord]
            refine hcopied.congr fun q hq x h1 h2 => ?_
            have hq' := hapart q (hsubset q hq)
            rw [hframe' x (fun r hr => ?_) (by omega), hkept x (by omega)]
            -- pages granted later are other pages
            have hrp := hfresh'.pages r hr
            have hneq : q ≠ r := by
              rintro rfl
              exact (List.nodup_append.mp hfresh'.nodup).2.2 q (List.mem_append_right _ hq) q hr rfl
            have := hrp.1
            have := (hqpage q hq).1
            omega
        | succ j =>
            have hshift : i + 1 + j = i + (j + 1) := by omega
            rw [← hshift]
            exact hall j l₀ hj

/-! ### Restoring -/

/-- **The pages of a restored list**, linked as `kmalloc` gives them; `done` are those there are. -/
theorem allocateListPagesLoop_spec (epochId : Nat) : ∀ (left : Nat) (dram : ByteMem) (ks : Kmallocs) (list : SnapshotList)
    (done : List Nat), LinkedTo dram 0 done → list.head = done.headD 0 → (∀ p ∈ done ++ ks, IsPage p) →
      (done ++ ks).Nodup →
      allocateListPagesLoop epochId left dram ks list (done.getLastD 0) = none ∨
      ∃ dram' list', allocateListPagesLoop epochId left dram ks list (done.getLastD 0) =
          some (dram', ks.drop left, list') ∧
        (ks.take left).length = left ∧ LinkedTo dram' 0 (done ++ ks.take left) ∧
        list'.head = (done ++ ks.take left).headD 0 ∧
        ∀ x, (∀ p ∈ done ++ ks.take left, x < p ∨ p + 4096 ≤ x) → dram' x = dram x := by
  intro left
  induction left with
  | zero =>
      intro dram ks list done hlink hhead _ _
      exact Or.inr ⟨dram, list, by simp [allocateListPagesLoop], by simp, by simpa using hlink, by simpa using hhead,
        fun _ _ => rfl⟩
  | succ left ih =>
      intro dram ks list done hlink hhead hpages hnodup
      cases ks with
      | nil => exact Or.inl rfl
      | cons new ks =>
          have hnew := hpages new (by simp)
          have hdone : ∀ p ∈ done, IsPage p := fun p hp => hpages p (List.mem_append_left _ hp)
          have hnot : new ∉ done := fun hin => (List.nodup_append.mp hnodup).2.2 new hin new (by simp) rfl
          have hfresh : ∀ x, x < new ∨ new + 4096 ≤ x → linkPage dram new epochId x = dram x := by
            intro x hx
            unfold linkPage novaSetNextPageAddress novaSetLinkPageEpochId logBlockTail
            rw [setWord_of_outside (by omega), setWord_of_outside (by omega)]
          have hlink₁ : LinkedTo (linkPage dram new epochId) 0 done := hlink.congr fun p hp => by
            refine word_congr fun x h1 h2 => hfresh x ?_
            have hne : p ≠ new := fun heq => hnot (heq ▸ hp)
            have := (hdone p hp).1
            have := hnew.1
            unfold logBlockTail at h1 h2
            omega
          -- the page before is linked to the new one
          obtain ⟨dram₂, hdram₂, hlink₂, hframe₂⟩ : ∃ dram₂, (if done.getLastD 0 ≠ 0 then
              novaSetNextPageAddress (linkPage dram new epochId) (done.getLastD 0) new
              else linkPage dram new epochId) = dram₂ ∧ LinkedTo dram₂ 0 (done ++ [new]) ∧
              ∀ x, (∀ p ∈ done ++ [new], x < p ∨ p + 4096 ≤ x) → dram₂ x = dram x := by
            rcases List.eq_nil_or_concat done with rfl | ⟨init, last, rfl⟩
            · exact ⟨_, if_neg (by simp), ⟨nextPage_linkPage, trivial⟩, fun x hx => hfresh x (hx new (by simp))⟩
            · rw [List.concat_eq_append] at *
              have hlast := hdone last (by simp)
              have hlastD : (init ++ [last]).getLastD 0 = last := by simp
              rw [hlastD]
              have hne : last ≠ new := fun heq => hnot (by simp [heq])
              have hnodup' := (List.nodup_append.mp (List.nodup_append.mp hnodup).1)
              refine ⟨_, if_pos hlast.2.1, ?_, fun x hx => ?_⟩
              · rw [linkedTo_append]
                refine ⟨hlink₁.relink hlast.1 (fun p hp => (hdone p (by simp [hp])).1)
                  (fun hin => hnodup'.2.2 last hin last (by simp) rfl) hnew.2.2, ?_, trivial⟩
                refine (word_congr fun x h1 h2 => ?_).trans (show nextPage (linkPage dram new epochId) new = 0 from nextPage_linkPage)
                have := hlast.1
                have := hnew.1
                unfold logBlockTail at h1 h2
                unfold novaSetNextPageAddress logBlockTail
                exact setWord_of_outside (by omega)
              · have := hx last (by simp)
                unfold novaSetNextPageAddress logBlockTail
                rw [setWord_of_outside (by omega)]
                exact hfresh x (hx new (by simp))
          have hfirst : (if done.getLastD 0 = 0 then { list with head := new } else list).head =
              (done ++ [new]).headD 0 := by
            rcases List.eq_nil_or_concat done with rfl | ⟨init, last, rfl⟩
            · rfl
            · rw [List.concat_eq_append] at *
              have hlast := hdone last (by simp)
              have hlastD : (init ++ [last]).getLastD 0 = last := by simp
              rw [hlastD, if_neg hlast.2.1, hhead]
              cases init <;> rfl
          have hcons : done ++ new :: ks = (done ++ [new]) ++ ks := by simp
          have hlastD : (done ++ [new]).getLastD 0 = new := by simp
          rw [hcons] at hpages hnodup
          have hrec := ih dram₂ ks (if done.getLastD 0 = 0 then { list with head := new } else list) (done ++ [new])
            hlink₂ hfirst hpages hnodup
          have hloop : allocateListPagesLoop epochId (left + 1) dram (new :: ks) list (done.getLastD 0) =
              allocateListPagesLoop epochId left dram₂ ks
                (if done.getLastD 0 = 0 then { list with head := new } else list) ((done ++ [new]).getLastD 0) := by
            rw [allocateListPagesLoop, hlastD, ← hdram₂]
          rw [hloop]
          refine hrec.imp id ?_
          rintro ⟨dram', list', hrun, hlen, hlink', hhead', hframe'⟩
          have htake : done ++ (new :: ks).take (left + 1) = done ++ [new] ++ ks.take left := by simp
          rw [htake]
          refine ⟨dram', list', hrun, by rw [List.take_succ_cons, List.length_cons, hlen], hlink', hhead', fun x hx => ?_⟩
          rw [hframe' x hx]
          exact hframe₂ x fun p hp => hx p (List.mem_append_left _ hp)

/-- One list of a restore. -/
theorem restoreList_spec (epochId : Nat) (dram : ByteMem) {ks : Kmallocs} (hps : LogChain nvmm l.head ps) (hne : ps ≠ []) (hnum : l.numPages = ps.length)
    (hpages : ∀ p ∈ ks, IsPage p) (hnodup : ks.Nodup) :
    novaAllocateSnapshotListPages epochId dram ks ⟨0, 0, 0⟩ l = none ∨
      ∃ dram₁ list dram' l', novaAllocateSnapshotListPages epochId dram ks ⟨0, 0, 0⟩ l =
          some (dram₁, ks.drop ps.length, list) ∧
        novaCopySnapshotListToDram nvmm dram₁ list l = .ok (dram', l') ∧
        ListCopied nvmm l ps dram' l' (ks.take ps.length) ∧
        ∀ x, (∀ q ∈ ks.take ps.length, x < q ∨ q + 4096 ≤ x) → dram' x = dram x := by
  unfold novaAllocateSnapshotListPages
  rw [hnum]
  rcases allocateListPagesLoop_spec epochId ps.length dram ks ⟨0, 0, 0⟩ [] trivial rfl hpages hnodup with
    hnone | ⟨dram₁, list, halloc, hlen, hlink, hhead, hframe⟩
  · exact Or.inl hnone
  right
  rw [List.nil_append] at hlink hhead hframe
  have hchain : LogChain dram₁ list.head (ks.take ps.length) :=
    ⟨hlink, hhead, fun q hq => hpages q (List.mem_of_mem_take hq)⟩
  obtain ⟨dram', last, hrun, hkept, hcopy⟩ := copySnapshotList_copied Prod.snd (fun s d _ hd => hd) hps hchain
    (hnodup.sublist (List.take_sublist _ _)) hlen hne list.head
  refine ⟨dram₁, list, dram', _, halloc, ?_, hcopy, fun x hx => ?_⟩
  · unfold novaCopySnapshotListToDram
    rw [hnum, hrun]
    rfl
  · rw [hkept x fun q hq => by have := hx q hq; omega]
    exact hframe x hx

/-- **Restoring the lists from CPU `i` on.**  It stops for want of pages or copies every list. -/
theorem novaRestoreSnapshotInfoLists_spec (epochId : Nat) : ∀ (cpus i : Nat) (dram : ByteMem) (ks : Kmallocs),
    (∀ j < cpus, (nvmmList nvmm page (i + j)).Counted nvmm) → (∀ p ∈ ks, IsPage p) → ks.Nodup →
      (novaRestoreSnapshotInfoLists nvmm page epochId cpus i dram ks = .error (.errno .enomem)) ∨
      ∃ dram' lists, novaRestoreSnapshotInfoLists nvmm page epochId cpus i dram ks = .ok (dram', lists) ∧
        (∀ x, (∀ p ∈ ks, x < p ∨ p + 4096 ≤ x) → dram' x = dram x) ∧
        ∀ j < cpus, ∃ l' ps qs, lists[j]? = some l' ∧ LogChain nvmm (nvmmList nvmm page (i + j)).head ps ∧
          ListCopied nvmm (nvmmList nvmm page (i + j)) ps dram' l' qs := by
  intro cpus
  induction cpus with
  | zero => exact fun i dram ks _ _ _ => Or.inr ⟨dram, [], rfl, fun _ _ => rfl, fun j hj => absurd hj (Nat.not_lt_zero j)⟩
  | succ cpus ih =>
      intro i dram ks hcounted hpages hnodup
      obtain ⟨ps, hps, hne, hnum⟩ := hcounted 0 (Nat.succ_pos cpus)
      rw [Nat.add_zero] at hps hnum
      rw [novaRestoreSnapshotInfoLists]
      rcases restoreList_spec epochId dram hps hne hnum hpages hnodup with
        hnone | ⟨dram₁, list, dram₂, l', halloc, hcopied, hcopy, hframe⟩
      · left
        rw [hnone]
      · rw [halloc]
        simp only [hcopied]
        have htake : ∀ q ∈ ks.take ps.length, q ∈ ks := fun q hq => List.mem_of_mem_take hq
        have hdrop : ∀ q ∈ ks.drop ps.length, q ∈ ks := fun q hq => List.mem_of_mem_drop hq
        have hsplit : (ks.take ps.length ++ ks.drop ps.length).Nodup := by
          rw [List.take_append_drop]
          exact hnodup
        obtain ⟨-, hnodup', hcross⟩ := List.nodup_append.mp hsplit
        have hrest : ∀ j < cpus, (nvmmList nvmm page (i + 1 + j)).Counted nvmm := by
          intro j hj
          have hj' := hcounted (j + 1) (by omega)
          rwa [show i + (j + 1) = i + 1 + j by omega] at hj'
        rcases ih (i + 1) dram₂ (ks.drop ps.length) hrest (fun q hq => hpages q (hdrop q hq)) hnodup' with
          herr | ⟨dram', lists, hrun, hframe', hall⟩
        · left
          rw [herr]
          rfl
        · right
          rw [hrun]
          refine ⟨dram', _, rfl, fun x hx => ?_, fun j hj => ?_⟩
          · rw [hframe' x fun q hq => hx q (hdrop q hq), hframe x fun q hq => hx q (htake q hq)]
          · cases j with
            | zero =>
                refine ⟨l', ps, _, rfl, hps, hcopy.congr fun q hq x h1 h2 => hframe' x fun r hr => ?_⟩
                have hneq : q ≠ r := fun heq => hcross q hq r hr heq
                have := (hpages q (htake q hq)).1
                have := (hpages r (hdrop r hr)).1
                omega
            | succ j =>
                obtain ⟨l', ps', qs', hget, hps', hcopy'⟩ := hall j (by omega)
                rw [show i + 1 + j = i + (j + 1) by omega] at hps' hcopy'
                exact ⟨l', ps', qs', hget, hps', hcopy'⟩

/-! ### Faithful lists -/

/-- Lists written out and read back, at the next mount, into other DRAM. -/
def saveAndRestore (dram : ByteMem) (lists : List SnapshotList) (nvmm : ByteMem) (gs : Grants) (epochId : Nat)
    (dram' : ByteMem) (ks : Kmallocs) : Except SnapshotStop (ByteMem × List SnapshotList) :=
  (novaSaveSnapshotInfo dram lists nvmm gs).bind fun r =>
    novaRestoreSnapshotInfoLists r.1 r.2 epochId lists.length 0 dram' ks

/-- **A snapshot list is a faithful log**: it has the pages it counts, a walk comes by what was
appended, and so it does after a save and a restore unless there is no room for the pages.  The
lists of the other CPUs have the pages they count as well; the page of the lists has room for 128. -/
structure SnapshotRun.Faithful (r : SnapshotRun) : Prop where
  counted : ∃ pages, LogChain r.dram r.list.head pages ∧ r.list.numPages = pages.length
  walked : ∀ fuel, 2 * r.appended.length < fuel →
    novaDeleteSnapshotListEntries r.dram fuel r.list = .ok (r.appended.map some)
  restored : ∀ (lists : List SnapshotList) (cpu : Nat) (nvmm : ByteMem) (gs : Grants) (epochId : Nat)
    (dram' : ByteMem) (ks : Kmallocs), lists[cpu]? = some r.list → lists.length ≤ 128 →
      (∀ l ∈ lists, l.Counted r.dram) → Fresh [] gs → (∀ p ∈ ks, IsPage p) → ks.Nodup →
      saveAndRestore r.dram lists nvmm gs epochId dram' ks = .error (.errno .enospc) ∨
      saveAndRestore r.dram lists nvmm gs epochId dram' ks = .error (.errno .enomem) ∨
      ∃ dram'' lists' list, saveAndRestore r.dram lists nvmm gs epochId dram' ks = .ok (dram'', lists') ∧
        lists'[cpu]? = some list ∧ ∀ fuel, 2 * r.appended.length < fuel →
          novaDeleteSnapshotListEntries dram'' fuel list = .ok (r.appended.map some)

/-- A list that ends in the last page it counts is the same list after a save and a restore. -/
theorem SnapshotRun.Inv.restored {r : SnapshotRun} (h : r.Inv pages) (htight : r.Tight pages) {lists : List SnapshotList}
    {cpu : Nat} {gs : Grants} {dram' : ByteMem} {ks : Kmallocs} (hcpu : lists[cpu]? = some r.list)
    (hroom : lists.length ≤ 128) (hlists : ∀ l ∈ lists, l.Counted r.dram) (hfresh : Fresh [] gs)
    (hks : ∀ p ∈ ks, IsPage p) (hnodup : ks.Nodup) :
    saveAndRestore r.dram lists nvmm gs epochId dram' ks = .error (.errno .enospc) ∨
      saveAndRestore r.dram lists nvmm gs epochId dram' ks = .error (.errno .enomem) ∨
      ∃ dram'' lists' list qs, saveAndRestore r.dram lists nvmm gs epochId dram' ks = .ok (dram'', lists') ∧
        lists'[cpu]? = some list ∧ SnapshotLog dram'' list qs r.appended := by
  unfold saveAndRestore novaSaveSnapshotInfo
  by_cases hret : (novaAllocateInodeLogPages nvmm gs 1).retPages = 1
  swap
  · left
    simp only [ne_eq, hret, not_false_eq_true, if_true]
    rfl
  simp only [hret, ne_eq, not_true_eq_false, if_false]
  -- the page of the lists
  obtain ⟨qs, hok⟩ := novaAllocateInodeLogPages_ok (m := nvmm) 1 hfresh
  have hone : qs.length = 1 := by
    have := hok.count
    simpa [hret] using this.symm
  obtain ⟨page, rfl⟩ := List.length_eq_one_iff.mp hone
  have hpageEq : (novaAllocateInodeLogPages nvmm gs 1).newBlock = page := hok.head (by simp)
  have hpage := (hfresh.granted hok.granted).1 page (by simp)
  rw [hpageEq]
  have hfresh' : Fresh [page] (novaAllocateInodeLogPages nvmm gs 1).grants := hfresh.rest hok.granted hok.suffix
  rcases saveListsLoop_spec hpage lists 0 (novaAllocateInodeLogPages nvmm gs 1).mem _ _ hfresh' (by simp) (by omega)
    hlists with herr | ⟨nvmm', gs', hsave, -, hsaved⟩
  · left
    rw [herr]
    rfl
  right
  rw [hsave]
  have hcounted : ∀ j < lists.length, (nvmmList nvmm' page (0 + j)).Counted nvmm' := by
    intro j hj
    obtain ⟨ps, qs, -, -, hne, hcopy⟩ := hsaved j _ (List.getElem?_eq_getElem hj)
    have hqne : qs ≠ [] := fun hnil => hne (List.eq_nil_of_length_eq_zero (by rw [← hcopy.length, hnil]; rfl))
    exact ⟨qs, hcopy.chain, hqne, hcopy.numPages⟩
  rcases novaRestoreSnapshotInfoLists_spec epochId lists.length 0 dram' ks hcounted hks hnodup with
    herr | ⟨dram'', lists', hrestore, -, hrestored⟩
  · exact Or.inl herr
  right
  obtain ⟨hlt, -⟩ := List.getElem?_eq_some_iff.mp hcpu
  obtain ⟨ps, qs, hps, hnum, -, hcopy⟩ := hsaved cpu _ hcpu
  obtain ⟨l', ps', qs', hget, hps', hcopy'⟩ := hrestored cpu hlt
  -- both copies hold the entries of the list
  have hsame : ps = pages := hps.unique h.log.chain
  subst hsame
  have hlog := h.log.copied htight.2 hcopy
  have hsame' : ps' = qs := hps'.unique hlog.chain
  subst hsame'
  exact ⟨dram'', lists', l', qs', hrestore, hget, hlog.copied (by rw [hcopy.length]; exact htight.2) hcopy'⟩

/--
**Undisturbed appenders leave a faithful list**, in every state of every run: whatever the order of
their turns, the pages `kmalloc` gives and what these hold.
-/
theorem novaAppendSnapshotListEntry_faithful {r : SnapshotRun} (hpage : IsPage p)
    (hrun : Runs (Guarded SnapshotAct.Undisturbed (SnapshotStep epochId)) (SnapshotRun.init m p epochId) r) :
    r.Faithful := by
  obtain ⟨pages, h, htight⟩ := SnapshotRun.tight_of_runs hpage hrun
  refine ⟨⟨pages, h.log.chain, htight.1⟩, fun fuel hfuel => h.log.walk hfuel, ?_⟩
  intro lists cpu nvmm gs epochId dram' ks hcpu hroom hlists hfresh hks hnodup
  rcases h.restored htight hcpu hroom hlists hfresh hks hnodup with herr | herr | ⟨dram'', lists', list, qs, hrun', hget, hlog⟩
  · exact Or.inl herr
  · exact Or.inr (Or.inl herr)
  · exact Or.inr (Or.inr ⟨dram'', lists', list, hrun', hget, fun fuel hfuel => hlog.walk hfuel⟩)

/-- One entry, appended to a fresh list. -/
theorem novaAppendSnapshotListEntry_faithful_one :
    ((SnapshotRun.init (fun _ => 7) 4096 1).after
      (novaAppendSnapshotListEntry (SnapshotRun.init (fun _ => 7) 4096 1).dram (SnapshotRun.init (fun _ => 7) 4096 1).list
        (SnapshotEntry.inode 0 33 1).bytes 0) (.inode 0 33 1) []).Faithful :=
  novaAppendSnapshotListEntry_faithful ⟨by decide, by decide, by decide⟩
    (Runs.single (a := .start) ⟨trivial, SnapshotStep.start (SnapshotRun.init (fun _ => 7) 4096 1) (.inode 0 33 1)⟩)

/-! ### Three appenders of a full page -/

namespace SnapshotRun

variable {r r' : SnapshotRun} {e : SnapshotEntry}

/-- An append to a page with room. -/
theorem Inv.appends (epochId : Nat) (h : r.Inv pages) (hroom : r.appended.length < 127) :
    ∃ r', SnapshotStep epochId r .start r' ∧ r'.Inv pages ∧ r'.appended.length = r.appended.length + 1 ∧
      r'.list.numPages = r.list.numPages ∧ r'.waiting = r.waiting ∧ r'.owned = r.owned := by
  obtain ⟨-, ⟨-, hlast, -⟩ | ⟨hretry, hcount, -⟩⟩ := h.log.turnZero (e := .inode 0 33 1)
  · obtain ⟨hno, -⟩ | ⟨-, -, hpage, hmod⟩ := h.log.tail_cases
    · rw [hno] at hlast
      cases hlast
    · unfold endPage at hpage
      omega
  · have hinv := (h.start (e := .inode 0 33 1)).1
    refine ⟨_, SnapshotStep.start r (.inode 0 33 1), hinv, ?_⟩
    rw [after_written hretry]
    exact ⟨by simp, hcount, rfl, rfl⟩

/-- An append to a full page: the appender gets a page. -/
theorem Inv.waits (epochId : Nat) (h : r.Inv pages) (hfull : r.appended.length = 127) (hone : pages.length = 1) (hq : IsPage q)
    (hnew : q ∉ r.owned) :
    ∃ r', Runs (SnapshotStep epochId) r r' ∧ r'.Inv pages ∧ r'.appended.length = 127 ∧
      r'.list.numPages = r.list.numPages ∧ r'.waiting = (.inode 0 33 1, q) :: r.waiting ∧ r'.owned = q :: r.owned := by
  obtain ⟨-, ⟨hretry, -, hlist, -⟩ | ⟨-, -, hroom, -⟩⟩ := h.log.turnZero (e := .inode 0 33 1)
  · have hinv := (h.start (e := .inode 0 33 1)).1
    have hstep : SnapshotStep epochId r .start _ := SnapshotStep.start r (.inode 0 33 1)
    have hafter : r.after (novaAppendSnapshotListEntry r.dram r.list (SnapshotEntry.inode 0 33 1).bytes 0) (.inode 0 33 1)
        r.waiting = { r with
          dram := (novaAppendSnapshotListEntry r.dram r.list (SnapshotEntry.inode 0 33 1).bytes 0).dram
          list := r.list
          waiting := (.inode 0 33 1, 0) :: r.waiting } := by
      unfold after
      rw [hretry, hlist]
      rfl
    rw [hafter] at hinv hstep
    have hmalloc : SnapshotStep epochId _ .kmalloc _ := SnapshotStep.kmalloc _ [] r.waiting (.inode 0 33 1) q
      (rfl : ({ r with
          dram := (novaAppendSnapshotListEntry r.dram r.list (SnapshotEntry.inode 0 33 1).bytes 0).dram
          list := r.list
          waiting := (.inode 0 33 1, 0) :: r.waiting } : SnapshotRun).waiting = [] ++ (.inode 0 33 1, 0) :: r.waiting)
      hq hnew
    exact ⟨_, (Runs.single hstep).tail hmalloc, hinv.kmalloc (show _ = [] ++ _ from rfl) hq hnew, hfull, rfl, rfl, rfl⟩
  · rw [hfull] at hroom
    unfold endPage at hroom
    omega

/-- An appender links its page. -/
theorem Inv.links (epochId : Nat) (others : List (SnapshotEntry × Nat)) (h : r.Inv pages) (hwaiting : r.waiting = others ++ [(e, q)])
    (hq : q ≠ 0) :
    ∃ r', SnapshotStep epochId r .retry r' ∧ r'.Inv (pages.take (endPage r.appended.length + 1) ++ [q]) ∧
      r'.appended.length = r.appended.length + 1 ∧ r'.list.numPages = r.list.numPages + 1 ∧ r'.waiting = others := by
  obtain ⟨hinv, hcount⟩ := h.retry hwaiting hq
  obtain ⟨hp, -, hnot, hnext⟩ := h.held (e, q) (by rw [hwaiting]; simp) hq
  refine ⟨_, SnapshotStep.retry r others [] e q hwaiting hq, hinv, ?_, hcount, ?_⟩
  · rw [after_written (h.log.turnLink (e := e) hp hnot hnext).2.1]
    simp
  · rw [after_written (h.log.turnLink (e := e) hp hnot hnext).2.1]
    exact List.append_nil others

end SnapshotRun

/-- **Three appenders find a page full, and each comes back with a page.**  The page of the second is
linked behind that of the first, and replaced there by the page of the third: the list counts four
pages and has three. -/
theorem novaAppendSnapshotListEntry_loses_page :
    ¬∀ (epochId p : Nat) (m : ByteMem) (r : SnapshotRun), IsPage p →
      Runs (SnapshotStep epochId) (SnapshotRun.init m p epochId) r → r.Faithful := by
  intro hall
  have hpage : ∀ k, 0 < k → k < 5 → IsPage (4096 * k) := fun k h1 h2 => ⟨by omega, by omega, by omega⟩
  have hinit : (SnapshotRun.init (fun _ => 7) (4096 * 1) 1).Inv [4096 * 1] :=
    (SnapshotRun.init_inv _ (hpage 1 (by decide) (by decide))).1
  -- the first page is filled
  have hfill : ∀ n ≤ 127, ∃ r, Runs (SnapshotStep 1) (SnapshotRun.init (fun _ => 7) (4096 * 1) 1) r ∧ r.Inv [4096 * 1] ∧
      r.appended.length = n ∧ r.list.numPages = 1 ∧ r.waiting = [] ∧ r.owned = [4096 * 1] := by
    intro n
    induction n with
    | zero => exact fun _ => ⟨_, Runs.refl _, hinit, rfl, rfl, rfl, rfl⟩
    | succ n ih =>
        intro hn
        obtain ⟨r, hrun, hinv, hlen, hnum, hwait, hown⟩ := ih (by omega)
        obtain ⟨r', hstep, hinv', hlen', hnum', hwait', hown'⟩ := hinv.appends 1 (by omega)
        exact ⟨r', hrun.tail hstep, hinv', by omega, by omega, hwait'.trans hwait, hown'.trans hown⟩
  obtain ⟨r₀, hrun₀, hinv₀, hlen₀, hnum₀, hwait₀, hown₀⟩ := hfill 127 (le_refl _)
  -- three appenders get a page each
  obtain ⟨r₁, hrun₁, hinv₁, hlen₁, hnum₁, hwait₁, hown₁⟩ := hinv₀.waits 1 hlen₀ rfl
    (hpage 2 (by decide) (by decide)) (by rw [hown₀]; decide)
  obtain ⟨r₂, hrun₂, hinv₂, hlen₂, hnum₂, hwait₂, hown₂⟩ := hinv₁.waits 1 hlen₁ rfl
    (hpage 3 (by decide) (by decide)) (by rw [hown₁, hown₀]; decide)
  obtain ⟨r₃, hrun₃, hinv₃, hlen₃, hnum₃, hwait₃, -⟩ := hinv₂.waits 1 hlen₂ rfl
    (hpage 4 (by decide) (by decide)) (by rw [hown₂, hown₁, hown₀]; decide)
  rw [hwait₂, hwait₁, hwait₀] at hwait₃
  -- and link it, the first that waited first
  obtain ⟨r₄, hstep₄, hinv₄, hlen₄, hnum₄, hwait₄⟩ := hinv₃.links 1
    [(.inode 0 33 1, 4096 * 4), (.inode 0 33 1, 4096 * 3)] hwait₃ (by decide)
  rw [hlen₃] at hinv₄ hlen₄
  obtain ⟨r₅, hstep₅, hinv₅, hlen₅, hnum₅, hwait₅⟩ := hinv₄.links 1
    [(.inode 0 33 1, 4096 * 4)] hwait₄ (by decide)
  rw [hlen₄] at hinv₅ hlen₅
  obtain ⟨r₆, hstep₆, hinv₆, -, hnum₆, -⟩ := hinv₅.links 1 [] hwait₅ (by decide)
  rw [hlen₅] at hinv₆
  have hrun := ((((((hrun₀.trans hrun₁).trans hrun₂).trans hrun₃).tail hstep₄).tail hstep₅).tail hstep₆)
  obtain ⟨pages, hchain, hcount⟩ := (hall 1 (4096 * 1) (fun _ => 7) r₆ (hpage 1 (by decide) (by decide)) hrun).counted
  rw [hchain.unique hinv₆.log.chain] at hcount
  have hthree : ((([4096 * 1].take (endPage 127 + 1) ++ [4096 * 2]).take (endPage (127 + 1) + 1) ++ [4096 * 3]).take
      (endPage (127 + 1 + 1) + 1) ++ [4096 * 4]).length = 3 := by decide
  omega

end Parfs
