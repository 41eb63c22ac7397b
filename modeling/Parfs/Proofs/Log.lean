/-
Chains of log pages and what is laid out in them.

The first half is about page tails: which bytes the small setters touch, and that
allocating pages yields a chain of them with clear counters.  `Fresh` is what the allocator
promises: the pages it is going to grant are pages, and none of them is granted twice or in
use.

The second half is about entries.  `Laid` lists the entries of a log as the appends put
them: the next one behind the last in the same page, or at the start of the next page after
the page was left.  Which entries are present and which pages are marked as left are its
parameters, so one induction serves the scans and the counters.
-/
import Parfs.Log

namespace Parfs

open Lib ByteMem

/-- An address of a page, not the null address. -/
def IsPage (p : Nat) : Prop := p % 4096 = 0 ∧ p ≠ 0 ∧ p < 2 ^ 64

/-- Only bytes in the tails of these pages change. -/
def TailFrame (m m' : ByteMem) (ps : List Nat) : Prop :=
  ∀ x, (∀ p ∈ ps, x < p + 4064 ∨ p + 4096 ≤ x) → m' x = m x

/-- The pages are linked, the last one to `e`. -/
def LinkedTo (m : ByteMem) (e : Nat) : List Nat → Prop
  | [] => True
  | p :: ps => nextPage m p = ps.headD e ∧ LinkedTo m e ps

section Tails

variable {m m' m'' : ByteMem} {p q e x : Nat} {ps qs : List Nat}

theorem TailFrame.refl : TailFrame m m ps := fun _ _ => rfl

theorem TailFrame.trans (h : TailFrame m m' ps) (h' : TailFrame m' m'' ps) : TailFrame m m'' ps :=
  fun x hx => (h' x hx).trans (h x hx)

theorem TailFrame.mono (h : TailFrame m m' ps) (hsub : ∀ p ∈ ps, p ∈ qs) : TailFrame m m' qs :=
  fun x hx => h x fun p hp => hx p (hsub p hp)

/-- Storing a word inside a page's tail. -/
theorem TailFrame.setWord {a k v : Nat} (h1 : p + 4064 ≤ a) (h2 : a + k ≤ p + 4096) :
    TailFrame m (m.setWord a k v) [p] := by
  intro x hx
  have := hx p (List.mem_singleton_self p)
  exact setWord_of_outside (by omega)

/-- Any other page keeps its tail. -/
theorem TailFrame.other (h : TailFrame m m' ps) (hps : ∀ p ∈ ps, p % 4096 = 0) (hq : q % 4096 = 0)
    (hnot : q ∉ ps) (h1 : q ≤ x) (h2 : x < q + 4096) : m' x = m x := by
  refine h x fun p hp => ?_
  have halign := hps p hp
  have hne : p ≠ q := by
    rintro rfl
    exact hnot hp
  omega

theorem TailFrame.nextPage (h : TailFrame m m' ps) (hps : ∀ p ∈ ps, p % 4096 = 0)
    (hq : q % 4096 = 0) (hnot : q ∉ ps) : nextPage m' q = nextPage m q := by
  refine word_congr fun x h1 h2 => h.other hps hq hnot ?_ ?_ <;>
    · unfold logBlockTail at *
      omega

theorem TailFrame.numEntries (h : TailFrame m m' ps) (hps : ∀ p ∈ ps, p % 4096 = 0)
    (hq : q % 4096 = 0) (hnot : q ∉ ps) : numEntries m' q = numEntries m q := by
  refine word_congr fun x h1 h2 => h.other hps hq hnot ?_ ?_ <;>
    · unfold logBlockTail at *
      omega

theorem TailFrame.invalidEntries (h : TailFrame m m' ps) (hps : ∀ p ∈ ps, p % 4096 = 0)
    (hq : q % 4096 = 0) (hnot : q ∉ ps) : invalidEntries m' q = invalidEntries m q := by
  refine word_congr fun x h1 h2 => h.other hps hq hnot ?_ ?_ <;>
    · unfold logBlockTail at *
      omega

theorem TailFrame.alterPage (h : TailFrame m m' ps) (hps : ∀ p ∈ ps, p % 4096 = 0)
    (hq : q % 4096 = 0) (hnot : q ∉ ps) : alterPage m' q = alterPage m q := by
  refine word_congr fun x h1 h2 => h.other hps hq hnot ?_ ?_ <;>
    · unfold logBlockTail at *
      omega

/-- A byte outside all page tails is never touched. -/
theorem TailFrame.body (h : TailFrame m m' ps) (hps : ∀ p ∈ ps, p % 4096 = 0)
    (hx : x % 4096 < 4064) : m' x = m x := by
  refine h x fun p hp => ?_
  have := hps p hp
  omega

/-! ### Linked pages -/

theorem linkedTo_append : LinkedTo m e (ps ++ qs) ↔ LinkedTo m (qs.headD e) ps ∧ LinkedTo m e qs := by
  induction ps with
  | nil => simp [LinkedTo]
  | cons p ps ih =>
      rw [List.cons_append, LinkedTo, LinkedTo, ih, and_assoc]
      cases ps with
      | nil => rfl
      | cons => rfl

theorem LinkedTo.congr (h : LinkedTo m e ps) (heq : ∀ p ∈ ps, Parfs.nextPage m' p = Parfs.nextPage m p) :
    LinkedTo m' e ps := by
  induction ps with
  | nil => trivial
  | cons p ps ih =>
      exact ⟨(heq p List.mem_cons_self).trans h.1,
        ih h.2 fun q hq => heq q (List.mem_cons_of_mem _ hq)⟩

/-- A chain is not disturbed by changes of other pages' tails. -/
theorem LinkedTo.frame (h : LinkedTo m e qs) (hf : TailFrame m m' ps)
    (hps : ∀ p ∈ ps, p % 4096 = 0) (hqs : ∀ q ∈ qs, q % 4096 = 0) (hdisj : ∀ q ∈ qs, q ∉ ps) :
    LinkedTo m' e qs :=
  h.congr fun q hq => hf.nextPage hps (hqs q hq) (hdisj q hq)

/-- The successor of a page in a chain. -/
theorem LinkedTo.next {i : Nat} (h : LinkedTo m e ps) (hi : i < ps.length) :
    Parfs.nextPage m (ps.getD i 0) = ps.getD (i + 1) e := by
  induction ps generalizing i with
  | nil => cases hi
  | cons p ps ih =>
      cases i with
      | zero =>
          have := h.1
          cases ps with
          | nil => exact this
          | cons => exact this
      | succ i => exact ih h.2 (Nat.lt_of_succ_lt_succ hi)

/-- Relinking the last page of a chain. -/
theorem LinkedTo.relink {init : List Nat} (h : LinkedTo m e (init ++ [p])) (hp : p % 4096 = 0)
    (hinit : ∀ q ∈ init, q % 4096 = 0) (hnot : p ∉ init) {e' : Nat} (he' : e' < 2 ^ 64) :
    LinkedTo (novaSetNextPageAddress m p e') e' (init ++ [p]) := by
  have hframe : TailFrame m (novaSetNextPageAddress m p e') [p] :=
    TailFrame.setWord (by unfold logBlockTail; omega) (by unfold logBlockTail; omega)
  rw [linkedTo_append] at h ⊢
  refine ⟨h.1.frame hframe ?_ hinit ?_, ?_, trivial⟩
  · intro q hq
    rw [List.mem_singleton.mp hq]
    exact hp
  · intro q hq hqp
    rw [List.mem_singleton.mp hqp] at hq
    exact hnot hq
  · exact word_setWord (by omega)

/-! ### Setters -/

theorem coalescePage_spec (he : e < 2 ^ 64) :
    TailFrame m (coalescePage m p e) [p] ∧ nextPage (coalescePage m p e) p = e ∧
      numEntries (coalescePage m p e) p = 0 ∧ invalidEntries (coalescePage m p e) p = 0 := by
  unfold coalescePage novaSetNextPageAddress novaSetPageInvalidEntries novaSetPageNumEntries
  refine ⟨?_, ?_, ?_, ?_⟩
  · refine ((TailFrame.setWord ?_ ?_).trans (TailFrame.setWord ?_ ?_)).trans
      (TailFrame.setWord ?_ ?_) <;>
    · unfold logBlockTail
      omega
  · exact word_setWord (by omega)
  · unfold numEntries
    rw [word_setWord_of_disjoint (by omega), word_setWord_of_disjoint (by omega)]
    exact word_setWord (by decide)
  · unfold invalidEntries
    rw [word_setWord_of_disjoint (by omega)]
    exact word_setWord (by decide)

theorem novaSetNextPageFlag_frame (hx : x ≠ p ∨ 4064 ≤ p % 4096) :
    novaSetNextPageFlag m p x = m x := by
  unfold novaSetNextPageFlag entryLoc logBlockTail
  split
  · rfl
  · exact setWord_of_outside (by omega)

theorem novaGetEntryType_setWord {v : Nat} (hv : v < 256) :
    novaGetEntryType (m.setWord p 1 v) p = v := by
  have hword : (m.setWord p 1 v).word p 1 = v := word_setWord (by omega)
  simpa [ByteMem.word, ByteMem.read, leValue, novaGetEntryType] using hword

theorem novaSetNextPageFlag_goto : gotoNextPage (novaSetNextPageFlag m p) p = true := by
  unfold gotoNextPage novaSetNextPageFlag
  split
  · rename_i hlast
    have hend : entryLoc p + 32 > logBlockTail := by omega
    simp [hend]
  · simp [novaGetEntryType_setWord, NovaEntryType.code]

end Tails

/-! ### Allocating pages -/

/-- The pages of `n` blocks from block `b` on. -/
def pagesFrom (b n : Nat) : List Nat := (List.range n).map fun i => logBlockOff (b + i)

/-- All the pages the allocator is going to grant. -/
def grantPages (gs : Grants) : List Nat :=
  gs.flatMap fun g => match g with
    | none => []
    | some g => pagesFrom g.1 g.2

/-- What the allocator promises beside the pages in use. -/
structure Fresh (used : List Nat) (gs : Grants) : Prop where
  pages : ∀ p ∈ grantPages gs, IsPage p
  nodup : (used ++ grantPages gs).Nodup
  /-- a grant that is no refusal holds a block -/
  nonempty : ∀ g, some g ∈ gs → 0 < g.2

/-- The counters of all these pages are zero. -/
def Clear (m : ByteMem) (ps : List Nat) : Prop :=
  ∀ p ∈ ps, numEntries m p = 0 ∧ invalidEntries m p = 0

section Alloc

variable {m m' : ByteMem} {b n : Nat} {ps used : List Nat} {gs : Grants}

theorem pagesFrom_succ : pagesFrom b (n + 1) = pagesFrom b n ++ [logBlockOff (b + n)] := by
  simp [pagesFrom, List.range_succ]

@[simp] theorem pagesFrom_length : (pagesFrom b n).length = n := by simp [pagesFrom]

theorem mem_pagesFrom {p : Nat} : p ∈ pagesFrom b n ↔ ∃ i < n, p = (b + i) * 4096 := by
  simp only [pagesFrom, logBlockOff, List.mem_map, List.mem_range]
  exact ⟨fun ⟨i, hi, h⟩ => ⟨i, hi, h.symm⟩, fun ⟨i, hi, h⟩ => ⟨i, hi, h.symm⟩⟩

theorem pagesFrom_aligned : ∀ p ∈ pagesFrom b n, p % 4096 = 0 := by
  intro p hp
  obtain ⟨i, -, rfl⟩ := mem_pagesFrom.mp hp
  omega

theorem pagesFrom_headD {e : Nat} (hn : 0 < n) : (pagesFrom b n).headD e = logBlockOff b := by
  cases n with
  | zero => omega
  | succ n => simp [pagesFrom, List.range_succ_eq_map]

theorem Clear.frame (h : Clear m ps) {qs : List Nat} (hf : TailFrame m m' qs)
    (hqs : ∀ q ∈ qs, q % 4096 = 0) (hps : ∀ p ∈ ps, p % 4096 = 0) (hdisj : ∀ p ∈ ps, p ∉ qs) :
    Clear m' ps := by
  intro p hp
  rw [hf.numEntries hqs (hps p hp) (hdisj p hp), hf.invalidEntries hqs (hps p hp) (hdisj p hp)]
  exact h p hp

/-- Adding one page to a chain that already points to it. -/
theorem coalescePage_snoc {p e : Nat} (he : e < 2 ^ 64) (hp : p % 4096 = 0)
    (hps : ∀ q ∈ ps, q % 4096 = 0) (hnot : p ∉ ps) (hlink : LinkedTo m p ps) (hclear : Clear m ps) :
    LinkedTo (coalescePage m p e) e (ps ++ [p]) ∧ Clear (coalescePage m p e) (ps ++ [p]) ∧
      TailFrame m (coalescePage m p e) (ps ++ [p]) := by
  obtain ⟨hf, hnext, hnum, hinv⟩ := coalescePage_spec (m := m) (p := p) he
  have halign : ∀ q ∈ [p], q % 4096 = 0 := by
    intro q hq
    rw [List.mem_singleton.mp hq]
    exact hp
  have hdisj : ∀ q ∈ ps, q ∉ [p] := by
    intro q hq hqp
    rw [List.mem_singleton.mp hqp] at hq
    exact hnot hq
  refine ⟨linkedTo_append.mpr ⟨hlink.frame hf halign hps hdisj, hnext, trivial⟩, ?_,
    hf.mono fun q hq => List.mem_append_right _ hq⟩
  intro q hq
  rcases List.mem_append.mp hq with hq | hq
  · exact hclear.frame hf halign hps hdisj q hq
  · rw [List.mem_singleton.mp hq]
    exact ⟨hnum, hinv⟩

theorem mem_pagesFrom_succ_ne {i : Nat} (h : n ≤ i) : logBlockOff (b + i) ∉ pagesFrom b n := by
  intro hmem
  obtain ⟨j, hj, heq⟩ := mem_pagesFrom.mp hmem
  unfold logBlockOff at heq
  omega

/-- The loop links the pages before the last one. -/
theorem coalesceLoop_spec (k : Nat) (hlt : b + k < 2 ^ 52) :
    let m' := (List.range k).foldl (fun m i =>
      coalescePage m (logBlockOff (b + i)) (logBlockOff (b + i + 1))) m
    LinkedTo m' (logBlockOff (b + k)) (pagesFrom b k) ∧ Clear m' (pagesFrom b k) ∧
      TailFrame m m' (pagesFrom b k) := by
  induction k with
  | zero => exact ⟨trivial, by simp [Clear, pagesFrom], TailFrame.refl⟩
  | succ k ih =>
      have hlt' : b + k < 2 ^ 52 := by omega
      obtain ⟨hlink, hclear, hf⟩ := ih hlt'
      rw [List.range_succ, List.foldl_append, List.foldl_cons, List.foldl_nil, pagesFrom_succ]
      obtain ⟨hlink', hclear', hf'⟩ := coalescePage_snoc (e := logBlockOff (b + k + 1))
        (by unfold logBlockOff; omega) (by unfold logBlockOff; omega) pagesFrom_aligned
        (mem_pagesFrom_succ_ne (le_refl k)) hlink hclear
      exact ⟨hlink', hclear', (hf.mono fun q hq => List.mem_append_left _ hq).trans hf'⟩

/-- **New pages that follow no page.** -/
theorem novaCoalesceLogPages_zero (hn : 0 < n) (hlt : b + n ≤ 2 ^ 52) :
    LinkedTo (novaCoalesceLogPages m 0 b n) 0 (pagesFrom b n) ∧
      Clear (novaCoalesceLogPages m 0 b n) (pagesFrom b n) ∧
      TailFrame m (novaCoalesceLogPages m 0 b n) (pagesFrom b n) := by
  obtain ⟨k, rfl⟩ : ∃ k, n = k + 1 := ⟨n - 1, by omega⟩
  have hlt' : b + k < 2 ^ 52 := by omega
  obtain ⟨hlink, hclear, hf⟩ := coalesceLoop_spec (m := m) k hlt'
  obtain ⟨hlink', hclear', hf'⟩ := coalescePage_snoc (e := 0) (by decide)
    (by unfold logBlockOff; omega) pagesFrom_aligned (mem_pagesFrom_succ_ne (le_refl k)) hlink hclear
  rw [← pagesFrom_succ] at hlink' hclear' hf'
  have hsub : ∀ q ∈ pagesFrom b k, q ∈ pagesFrom b (k + 1) := by
    intro q hq
    rw [pagesFrom_succ]
    exact List.mem_append_left _ hq
  exact ⟨hlink', hclear', (hf.mono hsub).trans hf'⟩

/-- **New pages that follow a chain.** -/
theorem novaCoalesceLogPages_append {prev : Nat} {init : List Nat} (hn : 0 < n)
    (hlt : b + n ≤ 2 ^ 52) (hprev : prev ≠ 0)
    (hps : ∀ p ∈ init ++ [logBlockOff prev], p % 4096 = 0)
    (hnodup : (init ++ [logBlockOff prev] ++ pagesFrom b n).Nodup)
    (hlink : LinkedTo m 0 (init ++ [logBlockOff prev])) (hclear : Clear m (init ++ [logBlockOff prev])) :
    LinkedTo (novaCoalesceLogPages m prev b n) 0 (init ++ [logBlockOff prev] ++ pagesFrom b n) ∧
      Clear (novaCoalesceLogPages m prev b n) (init ++ [logBlockOff prev] ++ pagesFrom b n) ∧
      TailFrame m (novaCoalesceLogPages m prev b n) (init ++ [logBlockOff prev] ++ pagesFrom b n) := by
  have hsplit : novaCoalesceLogPages m prev b n =
      novaCoalesceLogPages (novaSetNextPageAddress m (logBlockOff prev) (logBlockOff b)) 0 b n := by
    unfold novaCoalesceLogPages
    simp [hprev]
  have hpv := hps (logBlockOff prev) (by simp)
  have hinit : ∀ q ∈ init, q % 4096 = 0 := fun q hq => hps q (List.mem_append_left _ hq)
  obtain ⟨hnd, -, hdis⟩ := List.nodup_append.mp hnodup
  have hnot : logBlockOff prev ∉ init := fun hmem =>
    (List.nodup_append.mp hnd).2.2 _ hmem _ (List.mem_singleton_self _) rfl
  have hb : logBlockOff b < 2 ^ 64 := by
    unfold logBlockOff
    omega
  have hrelink := hlink.relink hpv hinit hnot hb
  have hset : TailFrame m (novaSetNextPageAddress m (logBlockOff prev) (logBlockOff b))
      [logBlockOff prev] :=
    TailFrame.setWord (by unfold logBlockTail; omega) (by unfold logBlockTail; omega)
  have hclear' : Clear (novaSetNextPageAddress m (logBlockOff prev) (logBlockOff b))
      (init ++ [logBlockOff prev]) := by
    intro p hp
    obtain ⟨hnum, hinv⟩ := hclear p hp
    unfold novaSetNextPageAddress numEntries invalidEntries
    rw [word_setWord_of_disjoint, word_setWord_of_disjoint]
    · exact ⟨hnum, hinv⟩
    · have := hps p hp
      unfold logBlockTail
      by_cases hpq : p = logBlockOff prev <;> omega
    · have := hps p hp
      unfold logBlockTail
      by_cases hpq : p = logBlockOff prev <;> omega
  obtain ⟨hlink₂, hclear₂, hf₂⟩ := novaCoalesceLogPages_zero
    (m := novaSetNextPageAddress m (logBlockOff prev) (logBlockOff b)) hn hlt
  have hdisj : ∀ p ∈ init ++ [logBlockOff prev], p ∉ pagesFrom b n :=
    fun p hp hq => hdis p hp p hq rfl
  rw [hsplit]
  refine ⟨linkedTo_append.mpr ⟨?_, hlink₂⟩, ?_, ?_⟩
  · rw [pagesFrom_headD hn]
    exact hrelink.frame hf₂ pagesFrom_aligned hps hdisj
  · intro p hp
    rcases List.mem_append.mp hp with hp | hp
    · exact hclear'.frame hf₂ pagesFrom_aligned hps hdisj p hp
    · exact hclear₂ p hp
  · refine TailFrame.trans (hset.mono ?_) (hf₂.mono fun q hq => List.mem_append_right _ hq)
    intro q hq
    exact List.mem_append_left _ (List.mem_append_right _ hq)

/-- What an allocation of log pages leaves behind: the pages `ps` it had already and the
pages `qs` it got, linked and clear. -/
structure LogAlloc.Ok (m : ByteMem) (gs : Grants) (a : LogAlloc) (ps qs : List Nat) : Prop where
  granted : grantPages gs = qs ++ grantPages a.grants
  suffix : a.grants <:+ gs
  count : a.retPages = (ps ++ qs).length
  head : ps ++ qs ≠ [] → a.newBlock = (ps ++ qs).headD 0
  linked : LinkedTo a.mem 0 (ps ++ qs)
  clear : Clear a.mem (ps ++ qs)
  frame : TailFrame m a.mem (ps ++ qs)

/-- An allocation that stops here. -/
theorem LogAlloc.Ok.stop {m₀ : ByteMem} {rest : Grants} {newBlock ret : Nat}
    (hrest : grantPages gs = grantPages rest) (hsuf : rest <:+ gs) (hret : ret = ps.length)
    (hnew : ps ≠ [] → newBlock = ps.headD 0) (hlink : LinkedTo m 0 ps) (hclear : Clear m ps)
    (hf : TailFrame m₀ m ps) : LogAlloc.Ok m₀ gs ⟨m, rest, newBlock, ret⟩ ps [] := by
  refine ⟨hrest, hsuf, ?_, ?_, ?_, ?_, ?_⟩ <;> rw [List.append_nil]
  · exact hret
  · exact hnew
  · exact hlink
  · exact hclear
  · exact hf

theorem Fresh.tail {g : Option (Nat × Nat)} (h : Fresh used (g :: gs)) {ps : List Nat}
    (hg : grantPages (g :: gs) = ps ++ grantPages gs) : Fresh (used ++ ps) gs where
  pages := fun p hp => h.pages p (by rw [hg]; exact List.mem_append_right _ hp)
  nodup := by
    rw [List.append_assoc, ← hg]
    exact h.nodup
  nonempty := fun g' hg' => h.nonempty g' (List.mem_cons_of_mem _ hg')

theorem grantPages_some {g : Nat × Nat} :
    grantPages (some g :: gs) = pagesFrom g.1 g.2 ++ grantPages gs := rfl

theorem grantPages_none : grantPages (none :: gs) = grantPages gs := rfl

/-- The blocks of a grant are blocks. -/
theorem Fresh.bounds {g : Nat × Nat} (h : Fresh used (some g :: gs)) :
    0 < g.2 ∧ g.1 + g.2 - 1 ≠ 0 ∧ g.1 + g.2 ≤ 2 ^ 52 := by
  have hn := h.nonempty g List.mem_cons_self
  have hlast := h.pages ((g.1 + (g.2 - 1)) * 4096) (by
    rw [grantPages_some]
    exact List.mem_append_left _ (mem_pagesFrom.mpr ⟨g.2 - 1, by omega, rfl⟩))
  obtain ⟨-, h0, hlt⟩ := hlast
  refine ⟨hn, ?_, ?_⟩ <;> omega

theorem pagesFrom_last (hn : 0 < n) : pagesFrom b n = pagesFrom b (n - 1) ++ [logBlockOff (b + n - 1)] := by
  obtain ⟨k, rfl⟩ : ∃ k, n = k + 1 := ⟨n - 1, by omega⟩
  rw [pagesFrom_succ]
  rfl

theorem allocateRemaining_spec (newBlock : Nat) (gs : Grants) :
    ∀ {m₀ m : ByteMem} {init : List Nat} (num : Nat) {prev ret : Nat}, prev ≠ 0 →
      (∀ p ∈ init ++ [logBlockOff prev], p % 4096 = 0) → newBlock = (init ++ [logBlockOff prev]).headD 0 →
      ret = (init ++ [logBlockOff prev]).length → Fresh (init ++ [logBlockOff prev]) gs →
      LinkedTo m 0 (init ++ [logBlockOff prev]) → Clear m (init ++ [logBlockOff prev]) →
      TailFrame m₀ m (init ++ [logBlockOff prev]) →
      ∃ qs, (allocateRemaining newBlock gs m num prev ret).Ok m₀ gs (init ++ [logBlockOff prev]) qs := by
  induction gs with
  | nil =>
      intro m₀ m init num prev ret _ _ hnew hret _ hlink hclear hf
      exact ⟨[], LogAlloc.Ok.stop rfl (List.suffix_refl _) hret (fun _ => hnew) hlink hclear hf⟩
  | cons g gs ih =>
      intro m₀ m init num prev ret hprev hps hnew hret hfresh hlink hclear hf
      by_cases hnum : num = 0
      · -- all pages are there
        have heq : allocateRemaining newBlock (g :: gs) m num prev ret = ⟨m, g :: gs, newBlock, ret⟩ := by
          cases g <;> simp [allocateRemaining, hnum]
        rw [heq]
        exact ⟨[], LogAlloc.Ok.stop rfl (List.suffix_refl _) hret (fun _ => hnew) hlink hclear hf⟩
      cases g with
      | none =>
          have heq : allocateRemaining newBlock (none :: gs) m num prev ret = ⟨m, gs, newBlock, ret⟩ := by
            simp [allocateRemaining, hnum]
          rw [heq]
          exact ⟨[], LogAlloc.Ok.stop rfl (List.suffix_cons _ _) hret (fun _ => hnew) hlink hclear hf⟩
      | some g =>
          obtain ⟨hn, hlast, hlt⟩ := hfresh.bounds
          have hnodup : (init ++ [logBlockOff prev] ++ pagesFrom g.1 g.2).Nodup := by
            have := hfresh.nodup
            rw [grantPages_some, ← List.append_assoc] at this
            exact (List.nodup_append.mp this).1
          obtain ⟨hlink', hclear', hf'⟩ :=
            novaCoalesceLogPages_append hn hlt hprev hps hnodup hlink hclear
          have hreshape : init ++ [logBlockOff prev] ++ pagesFrom g.1 g.2 =
              (init ++ [logBlockOff prev] ++ pagesFrom g.1 (g.2 - 1)) ++
                [logBlockOff (g.1 + g.2 - 1)] := by
            rw [pagesFrom_last hn]
            simp
          have hcount : ret + g.2 = (init ++ [logBlockOff prev] ++ pagesFrom g.1 g.2).length := by
            rw [hret]
            simp only [List.length_append, pagesFrom_length]
          have hhead : newBlock = (init ++ [logBlockOff prev] ++ pagesFrom g.1 g.2).headD 0 := by
            rw [hnew]
            cases init with
            | nil => rfl
            | cons => rfl
          have halign : ∀ p ∈ init ++ [logBlockOff prev] ++ pagesFrom g.1 g.2, p % 4096 = 0 := by
            intro p hp
            rcases List.mem_append.mp hp with hp | hp
            · exact hps p hp
            · exact pagesFrom_aligned p hp
          have hsub : ∀ q ∈ init ++ [logBlockOff prev],
              q ∈ init ++ [logBlockOff prev] ++ pagesFrom g.1 g.2 :=
            fun q hq => List.mem_append_left _ hq
          have hframe := (hf.mono hsub).trans hf'
          have hfresh' := hfresh.tail grantPages_some
          rw [hreshape] at hlink' hclear' hframe hfresh' hcount hhead halign
          obtain ⟨qs, hok⟩ :=
            ih (num - g.2) hlast halign hhead hcount hfresh' hlink' hclear' hframe
          have heq : allocateRemaining newBlock (some g :: gs) m num prev ret =
              allocateRemaining newBlock gs (novaCoalesceLogPages m prev g.1 g.2) (num - g.2)
                (g.1 + g.2 - 1) (ret + g.2) := by
            simp [allocateRemaining, hnum]
          have hassoc : init ++ [logBlockOff prev] ++ pagesFrom g.1 (g.2 - 1) ++
              [logBlockOff (g.1 + g.2 - 1)] ++ qs =
              init ++ [logBlockOff prev] ++ (pagesFrom g.1 g.2 ++ qs) := by
            rw [← hreshape, List.append_assoc]
          rw [heq]
          refine ⟨pagesFrom g.1 g.2 ++ qs, ?_, hok.suffix.trans (List.suffix_cons _ _), ?_, ?_, ?_, ?_, ?_⟩
          · rw [grantPages_some, List.append_assoc, ← hok.granted]
          · rw [← hassoc]
            exact hok.count
          · rw [← hassoc]
            exact hok.head
          · rw [← hassoc]
            exact hok.linked
          · rw [← hassoc]
            exact hok.clear
          · rw [← hassoc]
            exact hok.frame

/-- **Allocating log pages.**  Whatever the allocator answers, the result is a chain of
clear pages in the order they were granted, and nothing else is touched. -/
theorem novaAllocateInodeLogPages_ok (num : Nat) (hfresh : Fresh used gs) :
    ∃ qs, (novaAllocateInodeLogPages m gs num).Ok m gs [] qs := by
  have hnone : ∀ rest, grantPages gs = grantPages rest → rest <:+ gs →
      LogAlloc.Ok m gs ⟨m, rest, 0, 0⟩ [] [] := by
    intro rest hrest hsuf
    exact LogAlloc.Ok.stop hrest hsuf rfl (fun h => absurd rfl h) trivial (by simp [Clear])
      TailFrame.refl
  match gs with
  | [] => exact ⟨[], hnone [] rfl (List.suffix_refl _)⟩
  | none :: gs => exact ⟨[], hnone gs rfl (List.suffix_cons _ _)⟩
  | some g :: gs =>
      obtain ⟨hn, hlast, hlt⟩ := hfresh.bounds
      obtain ⟨hlink, hclear, hf⟩ := novaCoalesceLogPages_zero (m := m) hn hlt
      have hfresh' := hfresh.tail grantPages_some
      have hfresh₂ : Fresh (pagesFrom g.1 g.2) gs := by
        refine ⟨hfresh'.pages, ?_, hfresh'.nonempty⟩
        have := hfresh'.nodup
        rw [List.append_assoc] at this
        exact (List.nodup_append.mp this).2.1
      have hnew : logBlockOff g.1 = (pagesFrom g.1 g.2).headD 0 := (pagesFrom_headD hn).symm
      have hret : g.2 = (pagesFrom g.1 g.2).length := pagesFrom_length.symm
      have halign := pagesFrom_aligned (b := g.1) (n := g.2)
      rw [pagesFrom_last hn] at hlink hclear hf hfresh₂ hnew hret halign
      obtain ⟨qs, hok⟩ := allocateRemaining_spec (logBlockOff g.1) gs (num - g.2) hlast halign hnew
        hret hfresh₂ hlink hclear hf
      rw [← pagesFrom_last hn] at hok
      refine ⟨pagesFrom g.1 g.2 ++ qs, ?_, hok.suffix.trans (List.suffix_cons _ _), hok.count, ?_,
        hok.linked, hok.clear, hok.frame⟩
      · rw [grantPages_some, List.append_assoc]
        exact congrArg _ hok.granted
      · exact hok.head

end Alloc

/-! ### Entries in their places -/

/-- The entries of a log, in the order they were appended, up to place `l` of page number
`k`.  `At` says that an entry is present, `Left` that a page was left at an address. -/
inductive Laid (At : Nat → NovaLogEntryInfo → Prop) (Left : Nat → Prop) (pages : List Nat) :
    List (Nat × NovaLogEntryInfo) → Nat → Nat → Prop
  | nil : Laid At Left pages [] 0 0
  | here {es : List (Nat × NovaLogEntryInfo)} {k l : Nat} {e : NovaLogEntryInfo}
      (h : Laid At Left pages es k l) (hfit : l + e.size ≤ 4064) (hat : At (pages.getD k 0 + l) e) :
      Laid At Left pages (es ++ [(pages.getD k 0 + l, e)]) k (l + e.size)
  | next {es : List (Nat × NovaLogEntryInfo)} {k l : Nat} {e : NovaLogEntryInfo}
      (h : Laid At Left pages es k l) (hleft : Left (pages.getD k 0 + l)) (hk : k + 1 < pages.length)
      (hfit : e.size ≤ 4064) (hat : At (pages.getD (k + 1) 0) e) :
      Laid At Left pages (es ++ [(pages.getD (k + 1) 0, e)]) (k + 1) e.size

section Laid

variable {At At' : Nat → NovaLogEntryInfo → Prop} {Left Left' : Nat → Prop} {pages qs : List Nat}
  {es : List (Nat × NovaLogEntryInfo)} {k l : Nat}

theorem Laid.place_le (h : Laid At Left pages es k l) : l ≤ 4064 := by
  cases h with
  | nil => omega
  | here _ hfit => exact hfit
  | next _ _ _ hfit => exact hfit

theorem Laid.page_lt (h : Laid At Left pages es k l) (hne : pages ≠ []) : k < pages.length := by
  induction h with
  | nil => exact List.length_pos_of_ne_nil hne
  | here _ _ _ ih => exact ih
  | next _ _ hk => exact hk

/-- What holds of the entries and the places left behind may change in step with the
memory.  An entry lies in a page before page `k`, or in page `k` before place `l`. -/
theorem Laid.imp (h : Laid At Left pages es k l)
    (hat : ∀ i o e, i ≤ k → o + e.size ≤ 4064 → (i = k → o + e.size ≤ l) →
      At (pages.getD i 0 + o) e → At' (pages.getD i 0 + o) e)
    (hleft : ∀ i o, i < k → o ≤ 4064 → Left (pages.getD i 0 + o) → Left' (pages.getD i 0 + o)) :
    Laid At' Left' pages es k l := by
  induction h with
  | nil => exact Laid.nil
  | @here es k l e h hfit hent ih =>
      refine Laid.here (ih ?_ hleft) hfit (hat k l e (le_refl k) hfit (fun _ => le_refl _) hent)
      intro i o e' hi ho hik
      exact hat i o e' hi ho fun hk => (hik hk).trans (Nat.le_add_right _ _)
  | @next es k l e h hl hk hfit hent ih =>
      have hplace := h.place_le
      refine Laid.next (ih ?_ ?_) (hleft k l (Nat.lt_succ_self k) hplace hl) hk hfit ?_
      · intro i o e' hi ho _
        exact hat i o e' (by omega) ho fun hik => by omega
      · intro i o hi
        exact hleft i o (by omega)
      · exact hat (k + 1) 0 e (le_refl _) (by omega) (fun _ => by omega) hent

/-- More pages behind the last one. -/
theorem Laid.extend (h : Laid At Left pages es k l) (hne : pages ≠ []) :
    Laid At Left (pages ++ qs) es k l := by
  induction h with
  | nil => exact Laid.nil
  | @here es k l e h hfit hent ih =>
      have hk := h.page_lt hne
      have hpage : (pages ++ qs).getD k 0 = pages.getD k 0 := List.getD_append _ _ _ _ hk
      rw [← hpage] at hent ⊢
      exact Laid.here ih hfit hent
  | @next es k l e h hl hk hfit hent ih =>
      have hpage : (pages ++ qs).getD k 0 = pages.getD k 0 :=
        List.getD_append _ _ _ _ (h.page_lt hne)
      have hpage' : (pages ++ qs).getD (k + 1) 0 = pages.getD (k + 1) 0 :=
        List.getD_append _ _ _ _ hk
      rw [← hpage] at hl
      rw [← hpage'] at hent ⊢
      refine Laid.next ih hl ?_ hfit hent
      rw [List.length_append]
      omega

theorem Laid.nil_pages (h : Laid At Left pages es k l) (hes : es = []) : k = 0 ∧ l = 0 := by
  cases h with
  | nil => exact ⟨rfl, rfl⟩
  | here => simp at hes
  | next => simp at hes

/-- Where an entry lies. -/
theorem Laid.mem (h : Laid At Left pages es k l) {p : Nat} {e : NovaLogEntryInfo} (he : (p, e) ∈ es) :
    ∃ i o, p = pages.getD i 0 + o ∧ i ≤ k ∧ o + e.size ≤ 4064 ∧ (i = k → o + e.size ≤ l) ∧
      (i < k → i < pages.length) ∧ At p e := by
  induction h with
  | nil => cases he
  | @here es k l e' h hfit hent ih =>
      rcases List.mem_append.mp he with he | he
      · obtain ⟨i, o, hp, hi, ho, hik, hlen, hent'⟩ := ih he
        exact ⟨i, o, hp, hi, ho, fun hk => (hik hk).trans (Nat.le_add_right _ _), hlen, hent'⟩
      · obtain ⟨rfl, rfl⟩ := Prod.mk.inj (List.mem_singleton.mp he)
        exact ⟨k, l, rfl, le_refl k, hfit, fun _ => le_refl _, fun hk => absurd hk (lt_irrefl k), hent⟩
  | @next es k l e' h hl hk hfit hent ih =>
      rcases List.mem_append.mp he with he | he
      · obtain ⟨i, o, hp, hi, ho, -, -, hent'⟩ := ih he
        exact ⟨i, o, hp, by omega, ho, fun hik => by omega, fun _ => by omega, hent'⟩
      · obtain ⟨rfl, rfl⟩ := Prod.mk.inj (List.mem_singleton.mp he)
        exact ⟨k + 1, 0, rfl, le_refl _, by omega, fun _ => by omega, fun h => absurd h (lt_irrefl _),
          hent⟩

end Laid

end Parfs
