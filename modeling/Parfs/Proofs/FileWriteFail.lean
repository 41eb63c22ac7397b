/-
A write that fails.

The cleanup frees `allocated` blocks from `blocknr` on, and then the blocks of every entry the
call appended; it never touches the tree.  So what is left of a call that failed is what it
was before only if no extent had been put into the tree, and then only if the two variables
hold the new blocks, or nothing.
-/
import Parfs.Proofs.FileWrite

namespace Parfs

open Lib

/-- Some of the ranges holds the block. -/
def InSpans (b : Nat) (spans : List (Nat × Nat)) : Prop := ∃ x ∈ spans, x.1 ≤ b ∧ b < x.1 + x.2

/-- What the claim of a failed write is: the tree maps what it mapped, and the blocks the call
freed are those it was given. -/
structure WriteResult.Restores (r : WriteResult) (f : FileTree) : Prop where
  slots : ∀ q, r.out.file.tree.slot q = f.tree.slot q
  freed : ∀ l, r.out.file.freed = f.freed ++ l →
    ∀ b, b ∈ freedBlocks l ∨ InSpans b r.cleaned ↔ InSpans b r.out.given

/-- Nothing goes wrong in the turn. -/
def WriteTurn.Goes (mode : WriteMode) (c : WriteCall) (w : WriteLoop) (t : WriteTurn) : Prop :=
  (w.source mode c = none → 0 < t.alloc.ret ∧ ∃ currP, t.append = .appended currP) ∧
    ((w.take mode c t).1.partialBlocks = true → t.headTail = none) ∧ t.left = 0 ∧ t.csum = none

/-- A turn that goes wrong does so before `blocknr` is moved past the head, or after it was moved
back, or there is no head. -/
def WriteTurn.Unmoved (mode : WriteMode) (w : WriteLoop) (t : WriteTurn) : Prop :=
  w.pos % 4096 = 0 ∨ t.headTail ≠ none ∨ (t.left = 0 ∧ (mode = .cow ∨ t.csum = none))

/-- What the cleanup frees after such a turn is what the turn was given. -/
def WriteTurn.Clean (mode : WriteMode) (c : WriteCall) (w : WriteLoop) (t : WriteTurn) : Prop :=
  match w.source mode c with
  | some entry => getNvmm (w.file.entries entry) (w.pos / 4096) = 0 ∧ t.Unmoved mode w
  | none => t.alloc.ret ≤ 0 ∨ (t.alloc.blocknr ≠ 0 ∧ t.Unmoved mode w)

/-- The turns before the one that goes wrong write in place, and that one is clean. -/
def CleansUp (mode : WriteMode) (c : WriteCall) : WriteLoop → List WriteTurn → Prop
  | _, [] => True
  | w, t :: ts =>
    (t.Goes mode c w ∧ w.source mode c ≠ none ∧ CleansUp mode c (writeTurn mode c w t).1 ts) ∨
      (¬ t.Goes mode c w ∧ t.Clean mode c w)

section

variable {mode : WriteMode} {c : WriteCall} {w w' : WriteLoop} {t : WriteTurn} {f : FileTree}
  {extents : List (Nat × Nat)} {ts : List WriteTurn} {ret : Int} {b n : Nat}

@[simp] theorem inSpans_nil : ¬ InSpans b [] := nofun

@[simp] theorem inSpans_single {x : Nat × Nat} : InSpans b [x] ↔ x.1 ≤ b ∧ b < x.1 + x.2 := by
  simp [InSpans]

/-! ### The turn that goes wrong -/

theorem WriteLoop.copy_error_cases (h : w.copy mode t = (w', .error ret)) :
    (w' = w ∧ t.Unmoved mode w) ∨ (w' = w.shift ∧ (t.Unmoved mode w → w.pos % 4096 = 0)) := by
  unfold WriteLoop.copy at h
  have hhandled : w.pos % 4096 ≠ 0 → w.partialBlocks = true := fun hpos => by simp [WriteLoop.partialBlocks, hpos]
  split at h
  · rename_i e hpart hhead
    cases h
    exact Or.inl ⟨rfl, Or.inr (Or.inl (by simp [hhead]))⟩
  · rename_i hnot
    -- the head was handled if there is one
    have hhead : t.headTail ≠ none → w.pos % 4096 = 0 := by
      intro hsome
      by_contra hpos
      obtain ⟨e, he⟩ := Option.ne_none_iff_exists'.mp hsome
      exact hnot e (hhandled hpos) he
    by_cases hleft : t.left ≠ 0
    · rw [if_pos hleft] at h
      cases h
      exact Or.inr ⟨rfl, fun hun => hun.elim id fun hun => hun.elim hhead fun hun => absurd hun.1 hleft⟩
    · rw [if_neg hleft] at h
      split at h
      · cases h
        exact Or.inl ⟨rfl, Or.inr (Or.inr ⟨not_not.mp hleft, Or.inl rfl⟩)⟩
      · rename_i e hcsum
        cases h
        refine Or.inr ⟨rfl, fun hun => hun.elim id fun hun => hun.elim hhead fun hun => ?_⟩
        rcases hun.2 with hmode | hnone
        · cases hmode
        · rw [hcsum] at hnone
          cases hnone
      · cases h

theorem WriteLoop.shift_blocknr (w : WriteLoop) (hcount : 0 < w.count) (ha : 0 < w.allocated) :
    w.shift.blocknr = if w.pos % 4096 = 0 then w.blocknr else w.blocknr + 1 := by
  have hmod : w.pos % 4096 < 4096 := Nat.mod_lt _ (by decide)
  unfold WriteLoop.shift WriteLoop.head WriteLoop.bytes
  by_cases hpos : w.pos % 4096 = 0
  · simp [hpos]
  · rw [if_neg hpos, if_neg hpos]
    dsimp only
    rw [if_pos]
    split <;> omega

/-- The loop but for `blocknr`. -/
structure SameLoop (w w' : WriteLoop) : Prop where
  tree : w'.file.tree = w.file.tree
  freed : w'.file.freed = w.file.freed
  allocated : w'.allocated = w.allocated
  beginTail : w'.beginTail = w.beginTail
  given : w'.given = w.given

/-- The copies go wrong with `blocknr` where it was, or past the head. -/
theorem WriteLoop.copy_error (h : w.copy mode t = (w', .error ret)) (hcount : 0 < w.count) (ha : 0 < w.allocated) :
    SameLoop w w' ∧ ((w'.blocknr = w.blocknr ∧ t.Unmoved mode w) ∨
      (w'.blocknr = w.blocknr + 1 ∧ ¬ t.Unmoved mode w)) := by
  rcases WriteLoop.copy_error_cases h with ⟨rfl, hun⟩ | ⟨rfl, hun⟩
  · exact ⟨⟨rfl, rfl, rfl, rfl, rfl⟩, Or.inl ⟨rfl, hun⟩⟩
  · refine ⟨⟨rfl, rfl, rfl, rfl, rfl⟩, ?_⟩
    rw [WriteLoop.shift_blocknr w hcount ha]
    by_cases hpos : w.pos % 4096 = 0
    · rw [if_pos hpos]
      exact Or.inl ⟨rfl, Or.inl hpos⟩
    · rw [if_neg hpos]
      exact Or.inr ⟨rfl, fun h => hpos (hun h)⟩

/-- The entry cannot be appended: `blocknr` is where it was. -/
theorem novaAppendFileWriteEntry_error (h : novaAppendFileWriteEntry c w t = (w', .error ret)) :
    SameLoop w w' ∧ w'.blocknr = w.blocknr := by
  unfold novaAppendFileWriteEntry at h
  dsimp only at h
  split at h
  · cases h
    exact ⟨⟨rfl, rfl, rfl, rfl, rfl⟩, rfl⟩
  · cases h
    exact ⟨⟨rfl, rfl, rfl, rfl, rfl⟩, rfl⟩
  · cases h

/-- When the copies go well. -/
theorem WriteLoop.copy_ok_iff (mode : WriteMode) (w : WriteLoop) (t : WriteTurn) :
    w.copy mode t = (w, .ok ()) ↔
      (w.partialBlocks = true → t.headTail = none) ∧ t.left = 0 ∧ t.csum = none := by
  unfold WriteLoop.copy
  cases hpart : w.partialBlocks <;> cases hhead : t.headTail <;> by_cases hleft : t.left = 0 <;>
    cases hcsum : t.csum <;> cases mode <;> simp [hleft]

theorem writeTurn_ok_iff (w : WriteLoop) (t : WriteTurn) : t.Goes mode c w ↔ (writeTurn mode c w t).2 = .ok () := by
  unfold WriteTurn.Goes writeTurn
  cases hsource : w.source mode c with
  | some entry =>
      have htake : (w.take mode c t).2 = .ok () := by
        unfold WriteLoop.take
        simp [hsource]
      generalize w.take mode c t = r at htake
      obtain ⟨w₁, e⟩ := r
      dsimp only at htake
      subst htake
      dsimp only
      rw [← WriteLoop.copy_ok_iff mode]
      rcases hcopy : w₁.copy mode t with ⟨w₂, ret | u⟩
      · simp
      · simp [WriteLoop.copy_ok hcopy]
  | none =>
      unfold WriteLoop.take
      simp only [hsource]
      by_cases hret : t.alloc.ret ≤ 0
      · rw [if_pos hret]
        simp
        omega
      · rw [if_neg hret]
        dsimp only
        rw [← WriteLoop.copy_ok_iff mode]
        split
        · rename_i hcopy
          simp [hcopy]
        · rename_i w₁ hcopy
          obtain rfl := WriteLoop.copy_ok hcopy
          unfold novaAppendFileWriteEntry
          cases happend : t.append with
          | refused => simp
          | unmirrored currP => simp
          | appended currP => simp [hcopy]; omega

/-- How a turn goes wrong. -/
inductive TurnError (mode : WriteMode) (c : WriteCall) (w : WriteLoop) (t : WriteTurn) (w' : WriteLoop) : Prop where
  | noBlocks (hsource : w.source mode c = none) (hret : t.alloc.ret ≤ 0) (ha : w'.allocated ≤ 0)
      (hgiven : w'.given = w.given)
  | fresh (hsource : w.source mode c = none) (hret : 0 < t.alloc.ret) (ha : w'.allocated = t.alloc.ret)
      (hgiven : w'.given = w.given ++ [(t.alloc.blocknr, t.alloc.ret.toNat)])
      (hblocknr : (w'.blocknr = t.alloc.blocknr ∧ t.Unmoved mode w) ∨
        (w'.blocknr = t.alloc.blocknr + 1 ∧ ¬ t.Unmoved mode w))
  | inplace (entry : Nat) (hsource : w.source mode c = some entry) (ha : 0 < w'.allocated)
      (hgiven : w'.given = w.given)
      (hblocknr : (w'.blocknr = getNvmm (w.file.entries entry) (w.pos / 4096) ∧ t.Unmoved mode w) ∨
        (w'.blocknr = getNvmm (w.file.entries entry) (w.pos / 4096) + 1 ∧ ¬ t.Unmoved mode w))

theorem writeTurn_error (h : writeTurn mode c w t = (w', .error ret)) (hsound : w.file.Sound)
    (haligned : w.Aligned) (hnum : w.numBlocks ≠ 0) :
    w'.file.tree = w.file.tree ∧ w'.file.freed = w.file.freed ∧ w'.beginTail = w.beginTail ∧
      TurnError mode c w t w' := by
  have hcount := (haligned hnum).1
  unfold writeTurn WriteLoop.take at h
  cases hsource : w.source mode c with
  | some entry =>
      simp only [hsource] at h
      obtain ⟨hpos, -⟩ := entBlks_bounds hsource hsound hnum
      split at h
      · rename_i hcopy
        cases h
        obtain ⟨hsame, hblocknr⟩ := WriteLoop.copy_error hcopy hcount (Int.natCast_pos.mpr hpos)
        refine ⟨hsame.tree, hsame.freed, hsame.beginTail, .inplace entry hsource ?_ hsame.given hblocknr⟩
        rw [hsame.allocated]
        exact Int.natCast_pos.mpr hpos
      · cases h
  | none =>
      simp only [hsource] at h
      by_cases hret : t.alloc.ret ≤ 0
      · rw [if_pos hret] at h
        cases h
        exact ⟨rfl, rfl, rfl, .noBlocks hsource hret hret rfl⟩
      · rw [if_neg hret] at h
        have hret' : 0 < t.alloc.ret := by omega
        dsimp only at h
        split at h
        · rename_i hcopy
          cases h
          obtain ⟨hsame, hblocknr⟩ := WriteLoop.copy_error hcopy hcount hret'
          exact ⟨hsame.tree, hsame.freed, hsame.beginTail,
            .fresh hsource hret' hsame.allocated hsame.given hblocknr⟩
        · rename_i w₁ hcopy
          rw [WriteLoop.copy_ok hcopy] at h
          split at h
          · rename_i happend
            cases h
            obtain ⟨hsame, hblocknr⟩ := novaAppendFileWriteEntry_error happend
            refine ⟨hsame.tree, hsame.freed, hsame.beginTail,
              .fresh hsource hret' hsame.allocated hsame.given (Or.inl ⟨hblocknr, ?_⟩)⟩
            obtain ⟨-, hleft, hcsum⟩ := (WriteLoop.copy_ok_iff mode _ t).mp (by rw [hcopy, WriteLoop.copy_ok hcopy])
            exact Or.inr (Or.inr ⟨hleft, Or.inr hcsum⟩)
          · cases h

/-- Two ranges that begin one apart are not the same. -/
theorem spans_ne (hn : 0 < n) : ¬ ∀ b', InSpans b' [(b + 1, n)] ↔ InSpans b' [(b, n)] := by
  intro h
  have := (h b).mpr (inSpans_single.mpr (by dsimp only; omega))
  rw [inSpans_single] at this
  dsimp only at this
  omega

/-- A range that is not empty holds something. -/
theorem spans_ne_nil (hn : 0 < n) : ¬ ∀ b', InSpans b' [(b, n)] ↔ InSpans b' [] := by
  intro h
  exact inSpans_nil ((h b).mp (inSpans_single.mpr (by dsimp only; omega)))

/-- The cleanup after a turn that went wrong, where no extent was put into the tree. -/
theorem TurnError.clean_iff (h : TurnError mode c w t w') (hgiven : w.given = []) (hbegin : w'.beginTail = 0) :
    (∀ b, InSpans b (novaCleanupIncompleteWrite w') ↔ InSpans b w'.given) ↔ t.Clean mode c w := by
  have hclean : novaCleanupIncompleteWrite w' =
      if w'.blocknr > 0 ∧ w'.allocated > 0 then [(w'.blocknr, w'.allocated.toNat)] else [] := by
    unfold novaCleanupIncompleteWrite
    rw [if_pos hbegin, List.append_nil]
  unfold WriteTurn.Clean
  cases h with
  | noBlocks hsource hret ha hgiven' =>
      rw [hclean, if_neg (by omega), hgiven', hgiven, hsource]
      exact iff_of_true (fun _ => Iff.rfl) (Or.inl hret)
  | fresh hsource hret ha hgiven' hblocknr =>
      have hn : 0 < t.alloc.ret.toNat := by omega
      rw [hclean, hgiven', hgiven, List.nil_append, ha, hsource]
      have hnot : ¬ t.alloc.ret ≤ 0 := by omega
      dsimp only
      rcases hblocknr with ⟨hb, hun⟩ | ⟨hb, hun⟩
      · rw [hb]
        by_cases hzero : t.alloc.blocknr = 0
        · rw [if_neg (by omega)]
          refine iff_of_false (fun h => spans_ne_nil hn fun b => (h b).symm) ?_
          simp [hzero, hnot]
        · rw [if_pos ⟨by omega, hret⟩]
          exact iff_of_true (fun _ => Iff.rfl) (Or.inr ⟨hzero, hun⟩)
      · rw [hb, if_pos ⟨by omega, hret⟩]
        refine iff_of_false (spans_ne hn) ?_
        simp [hun, hnot]
  | inplace entry hsource ha hgiven' hblocknr =>
      have hn : 0 < w'.allocated.toNat := by omega
      rw [hclean, hgiven', hgiven, hsource]
      dsimp only
      rcases hblocknr with ⟨hb, hun⟩ | ⟨hb, hun⟩
      · rw [hb]
        by_cases hzero : getNvmm (w.file.entries entry) (w.pos / 4096) = 0
        · rw [if_neg (by omega)]
          exact iff_of_true (fun _ => Iff.rfl) ⟨hzero, hun⟩
        · rw [if_pos ⟨by omega, ha⟩]
          exact iff_of_false (spans_ne_nil hn) fun h => hzero h.1
      · rw [hb, if_pos ⟨by omega, ha⟩]
        exact iff_of_false (spans_ne_nil hn) fun h => hun h.2

/-! ### The call -/

/-- Once there is an extent, its pages are mapped to it for good. -/
theorem WriteInv.turns_changed (h : WriteInv f extents w) (hne : extents ≠ []) (hfit : TurnsFit mode c w ts)
    (hfail : writeTurns mode c w ts = (w', .error ret)) : ∃ q, w'.file.tree.slot q ≠ f.tree.slot q := by
  induction ts generalizing w extents with
  | nil => cases hfail
  | cons t ts ih =>
      unfold writeTurns at hfail
      by_cases hnum : w.numBlocks = 0
      · rw [if_pos hnum] at hfail
        cases hfail
      · rw [if_neg hnum] at hfail
        obtain ⟨hturn, hrest⟩ := hfit
        split at hfail
        · rename_i herr
          cases hfail
          obtain ⟨htree, -⟩ := writeTurn_error herr h.sound h.aligned hnum
          obtain ⟨extent, hmem⟩ := List.exists_mem_of_ne_nil _ hne
          obtain ⟨hpos, -, hchanged⟩ := h.behind extent hmem
          refine ⟨extent.1, ?_⟩
          rw [htree]
          exact hchanged extent.1 le_rfl (by omega)
        · rename_i w₁ hok
          rw [hok] at hrest
          rcases h.turn hnum hturn hok with ⟨-, hstep⟩ | ⟨-, hstep⟩
          · exact ih hstep hne hrest hfail
          · exact ih hstep (by simp) hrest hfail

/-- The turns, as long as no extent was put into the tree. -/
theorem WriteInv.turns_restores_iff (h : WriteInv f [] w) (hfit : TurnsFit mode c w ts)
    (hfail : writeTurns mode c w ts = (w', .error ret)) :
    (⟨w', ret, novaCleanupIncompleteWrite w'⟩ : WriteResult).Restores f ↔ CleansUp mode c w ts := by
  induction ts generalizing w with
  | nil => cases hfail
  | cons t ts ih =>
      unfold writeTurns at hfail
      unfold CleansUp
      by_cases hnum : w.numBlocks = 0
      · rw [if_pos hnum] at hfail
        cases hfail
      · rw [if_neg hnum] at hfail
        obtain ⟨hturn, hrest⟩ := hfit
        rw [writeTurn_ok_iff]
        split at hfail
        · rename_i herr
          cases hfail
          obtain ⟨htree, hfreed, hbegin, hwrong⟩ := writeTurn_error herr h.sound h.aligned hnum
          obtain ⟨htree', hfreed', hgiven, hbegin'⟩ := h.untouched rfl
          rw [herr]
          simp only [reduceCtorEq, false_and, not_false_eq_true, true_and, false_or]
          rw [← hwrong.clean_iff hgiven (hbegin.trans hbegin')]
          constructor
          · intro hrestores b
            have := hrestores.freed [] (by rw [hfreed, hfreed', List.append_nil]) b
            simpa using this
          · intro hspans
            refine ⟨fun q => by rw [htree, htree'], fun l hl b => ?_⟩
            rw [hfreed, hfreed', List.self_eq_append_right] at hl
            rw [hl]
            simpa using hspans b
        · rename_i w₁ hok
          rw [hok] at hrest ⊢
          simp only [not_true_eq_false, false_and, or_false, true_and]
          rcases h.turn hnum hturn hok with ⟨hsource, hstep⟩ | ⟨hsource, hstep⟩
          · rw [ih hstep hrest hfail]
            exact (and_iff_right hsource).symm
          · obtain ⟨q, hq⟩ := hstep.turns_changed (by simp) hrest hfail
            exact iff_of_false (fun hrestores => hq (hrestores.slots q)) fun hand => hand.1 hsource

theorem writeTurns_pos (hok : writeTurns mode c w ts = (w', .ok ())) : w.pos ≤ w'.pos := by
  induction ts generalizing w with
  | nil =>
      cases hok
      exact le_rfl
  | cons t ts ih =>
      unfold writeTurns at hok
      split at hok
      · cases hok
        exact le_rfl
      · split at hok
        · cases hok
        · rename_i w₁ hok₁
          have hrest := ih hok
          have hpos : w.pos ≤ w₁.pos := by
            cases writeTurn_ok hok₁ with
            | inplace _ _ _ _ _ hadv _ _ => exact hadv.pos ▸ Nat.le_add_right _ _
            | append _ _ _ _ _ hadv => exact hadv.pos ▸ Nat.le_add_right _ _
          exact hpos.trans hrest

/-- Ten bytes into the first page of an empty file. -/
def tenBytes : WriteCall := ⟨100, 10, 1, 1, 1, 0, []⟩

/-- One block is given, and the log has no room. -/
def noRoom : WriteTurn := ⟨⟨1, 50⟩, none, 0, none, .refused, 0⟩

/-- One block is given, and the copy leaves something. -/
def copyFails : WriteTurn := ⟨⟨1, 50⟩, none, 10, none, .refused, 0⟩

end

end Parfs
