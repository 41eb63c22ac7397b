/-
Bytes of a write in place.

A turn that has an entry to write to goes by its first page alone: it is right when the pages after
it are the entry's too.  A turn that takes new blocks is right about what it stores, and what it
leaves out of their first and their last page is what the blocks held.  That is the rest of zeros
that are not fours and, once a page was a hole, all that is behind the data when the turn starts
with a page: the write takes it for the end of the file.  What was in a page behind the end of the
file comes into it as it is.
-/
import Parfs.Proofs.CowWrite

namespace Parfs

open Lib

/-! ### What new blocks are left with -/

/-- How much of `len` bytes of a page is stored when they are brought from before. -/
def oldStored (g : CopyConfig) (f : FileTree) (index len : Nat) : Nat :=
  if f.tree.slot index = none ∧ ¬(g.writeDeleSize ≤ len ∧ g.supportClwb = false) then len / 4 * 4 else len

/-- The bytes of the first page and of the last one that no copy stores to: those at the end of the zeros, or,
with `append`, all that is around the data. -/
def LeftOut (g : CopyConfig) (f : FileTree) (pos bytes : Nat) (append : Bool) (x : Nat) : Prop :=
  (x < pos ∧ x / 4096 = pos / 4096 ∧ (append = true ∨ oldStored g f (pos / 4096) (pos % 4096) ≤ x % 4096)) ∨
    (pos + bytes ≤ x ∧ x / 4096 = (pos + bytes) / 4096 ∧ (pos + bytes) % 4096 ≠ 0 ∧
      (append = true ∨ (pos + bytes) % 4096 + oldStored g f ((pos + bytes) / 4096) (4096 - (pos + bytes) % 4096) ≤ x % 4096))

section

variable {g : CopyConfig} {f : FileTree} {user : Nat → UInt8} {data : Nat → Nat → UInt8} {v : NvmmWrite}
  {pos bytes blocknr ubuf b o x : Nat} {append tryDele : Bool} {ws : List NvmmWrite}

theorem oldWrite_oldStored {index offset len : Nat} :
    (oldWrite g f index offset blocknr len true).stored g = oldStored g f index len := by
  unfold oldStored NvmmWrite.stored oldWrite doNovaNvmmWrite
  cases f.tree.slot index with
  | some entry => simp
  | none =>
      have hif : (if (!(decide (len < g.writeDeleSize) || !true) && !g.supportClwb) = true then len else len / 4 * 4) =
          if (none : Option Nat) = none ∧ ¬(g.writeDeleSize ≤ len ∧ g.supportClwb = false) then len / 4 * 4 else len := by
        by_cases hdele : g.writeDeleSize ≤ len ∧ g.supportClwb = false
        · rw [if_pos (by simp [hdele.1, hdele.2]), if_neg (by simp [hdele.1, hdele.2])]
        · rw [if_neg (fun hc => hdele (by simpa using hc)), if_pos ⟨rfl, hdele⟩]
      exact hif

theorem oldStored_le {index len : Nat} : oldStored g f index len ≤ len := by
  unfold oldStored
  split <;> omega

/-- What is not stored in fours was not mapped. -/
theorem oldStored_lt {index len : Nat} (h : oldStored g f index len < len) : f.tree.slot index = none := by
  unfold oldStored at h
  split at h
  · rename_i hnone
    exact hnone.1
  · omega

/-- A byte in the pages of a turn is the user's, is left out, or is stored from what was before. -/
theorem turnWrites_covers (hbytes : 0 < bytes) (hlo : pos / 4096 ≤ x / 4096) (hhi : x / 4096 ≤ (pos + bytes - 1) / 4096)
    (hleft : ¬LeftOut g f pos bytes append x) :
    ∃ v ∈ turnWrites g f pos bytes blocknr ubuf append true, v.Covers g (blocknr + (x / 4096 - pos / 4096)) (x % 4096) := by
  by_cases hstart : pos ≤ x
  · by_cases hstop : x < pos + bytes
    · exact turnWrites_user hbytes hstart hstop
    · have hend : (pos + bytes) % 4096 ≠ 0 := by omega
      have hpage : x / 4096 = (pos + bytes) / 4096 := by omega
      have hnot := fun happend => hleft (Or.inr ⟨by omega, hpage, hend, happend⟩)
      obtain rfl : append = false := by
        by_contra happend
        exact hnot (Or.inl (by simpa using happend))
      obtain ⟨htail, hnum⟩ := tailPage hbytes hend
      refine ⟨oldWrite g f ((pos + bytes) / 4096) ((pos + bytes) % 4096)
        (blocknr + ((pos + bytes) / 4096 - pos / 4096)) (4096 - (pos + bytes) % 4096) true, ?_, ?_, ?_⟩
      · unfold turnWrites partWrites
        rw [if_pos hend, htail, hnum]
        simp
      · show 4096 * (blocknr + ((pos + bytes) / 4096 - pos / 4096)) + (pos + bytes) % 4096 ≤ _
        omega
      · show _ < 4096 * (blocknr + ((pos + bytes) / 4096 - pos / 4096)) + (pos + bytes) % 4096 + _
        rw [oldWrite_oldStored]
        have hstored := Nat.lt_of_not_le fun hle => hnot (Or.inr hle)
        omega
  · have hpos : pos % 4096 ≠ 0 := by omega
    have hpage : x / 4096 = pos / 4096 := by omega
    have hnot := fun happend => hleft (Or.inl ⟨by omega, hpage, happend⟩)
    obtain rfl : append = false := by
      by_contra happend
      exact hnot (Or.inl (by simpa using happend))
    refine ⟨oldWrite g f (pos / 4096) 0 blocknr (pos % 4096) true, ?_, ?_, ?_⟩
    · unfold turnWrites partWrites
      rw [if_pos hpos]
      simp
    · show 4096 * blocknr + 0 ≤ _
      omega
    · show _ < 4096 * blocknr + 0 + _
      rw [oldWrite_oldStored]
      have hstored := Nat.lt_of_not_le fun hle => hnot (Or.inr hle)
      omega

/-- A copy of the user's data, by the place in the file of what it brings. -/
theorem CopyOf.user_value {w : NvmmWrite} {k : Nat} (hsrc : w.src = .user (ubuf + k))
    (hplace : 4096 * w.blocknr + w.offset = 4096 * blocknr + pos % 4096 + k) (hlen : k + w.len ≤ bytes)
    (hcov : w.Covers g b o) :
    ∃ y, pos ≤ y ∧ y < pos + bytes ∧ y + 4096 * blocknr = 4096 * (pos / 4096) + 4096 * b + o ∧
      ∀ user data, w.value user data b o = user (ubuf + (y - pos)) := by
  obtain ⟨hlo, hhi⟩ := hcov
  have hstored : w.stored g = w.len := by
    unfold NvmmWrite.stored
    rw [hsrc]
  rw [hplace] at hlo hhi
  rw [hstored] at hhi
  refine ⟨4096 * b + o - 4096 * blocknr + 4096 * (pos / 4096), by omega, by omega, by omega, fun user data => ?_⟩
  unfold NvmmWrite.value
  rw [hsrc, hplace]
  dsimp only
  congr 1
  omega

/-- What is left out is not stored to. -/
theorem LeftOut.not_covered (h : LeftOut g f pos bytes append x) (hbytes : 0 < bytes)
    (hv : v ∈ turnWrites g f pos bytes blocknr ubuf append true) :
    ¬v.Covers g (blocknr + (x / 4096 - pos / 4096)) (x % 4096) := by
  intro hcov
  have hcopy := CopyOf.mem hbytes hv hcov
  have hmod : x % 4096 < 4096 := Nat.mod_lt _ (by decide)
  have hstored := hcov.2
  have hlow := hcov.1
  cases hcopy with
  | user w k hsrc hplace hlen =>
      obtain ⟨y, hlo, hhi, hy, -⟩ := CopyOf.user_value hsrc hplace hlen hcov
      rcases h with ⟨hlt, hpage, -⟩ | ⟨hge, hpage, hend, -⟩ <;> omega
  | head happend hpos =>
      change 4096 * (blocknr + (x / 4096 - pos / 4096)) + x % 4096 < 4096 * blocknr + 0 + _ at hstored
      rw [oldWrite_oldStored] at hstored
      have hle : oldStored g f (pos / 4096) (pos % 4096) ≤ pos % 4096 := oldStored_le
      rcases h with ⟨hlt, hpage, happend' | hleft⟩ | ⟨hge, hpage, -, -⟩
      · simp [happend] at happend'
      · omega
      · omega
  | tail happend hend =>
      change 4096 * (blocknr + (x / 4096 - pos / 4096)) + x % 4096 <
        4096 * (blocknr + ((pos + bytes) / 4096 - pos / 4096)) + (pos + bytes) % 4096 + _ at hstored
      change 4096 * (blocknr + ((pos + bytes) / 4096 - pos / 4096)) + (pos + bytes) % 4096 ≤ _ at hlow
      rw [oldWrite_oldStored] at hstored
      rcases h with ⟨hlt, hpage, -⟩ | ⟨hge, hpage, -, happend' | hleft⟩
      · omega
      · simp [happend] at happend'
      · omega

/-- Copies into blocks of the file bring the user's data only. -/
theorem CopyOf.only_user (h : CopyOf g f pos bytes blocknr ubuf true tryDele v) :
    ∃ k, v.src = .user (ubuf + k) ∧ 4096 * v.blocknr + v.offset = 4096 * blocknr + pos % 4096 + k ∧ k + v.len ≤ bytes := by
  cases h with
  | user w k hsrc hplace hlen => exact ⟨k, hsrc, hplace, hlen⟩
  | head happend => cases happend
  | tail happend => cases happend

/-- A byte that copies store to is what it was or one of what they bring. -/
theorem applyWrites_among {P : UInt8 → Prop} (h : ∀ v ∈ ws, v.Covers g b o → ∀ data, P (v.value user data b o))
    (hdata : P (data b o)) : P (applyWrites g user ws data b o) := by
  induction ws generalizing data with
  | nil => exact hdata
  | cons v ws ih =>
      refine ih (fun v' hv' => h v' (List.mem_cons_of_mem _ hv')) ?_
      show P (v.apply g user data b o)
      by_cases hcov : v.Covers g b o
      · rw [NvmmWrite.apply_inside hcov]
        exact h v List.mem_cons_self hcov data
      · rw [NvmmWrite.apply_outside hcov]
        exact hdata

end

/-! ### One turn -/

/-- `append`, in a turn that takes new blocks -/
def CopyLoop.appends (s : CopyLoop) (w : WriteLoop) : Bool := s.fair w && w.pos % 4096 = 0

/-- A turn copies the data of the next `n` pages to the blocks from `blocknr` on, and leaves the other pages. -/
structure TurnCopied (g : CopyConfig) (c : WriteCall) (w : WriteLoop) (n blocknr : Nat) (append tryDele : Bool)
    (vs : List NvmmWrite) (w' : WriteLoop) : Prop extends Spanned w n w' where
  writes : vs = turnWrites g w.file w.pos (spanBytes w n) blocknr (w.pos - c.pos) append tryDele
  others : ∀ q, ¬(w.pos / 4096 ≤ q ∧ q < w.pos / 4096 + n) → w'.file.tree.slot q = w.file.tree.slot q ∧
    ∀ x, w.file.tree.slot q = some x → getNvmm (w'.file.entries x) q = getNvmm (w.file.entries x) q
  sound : w'.file.Sound
  apart : w'.file.BlocksApart

/-- What a turn of a write in place does to the file, with its copies. -/
inductive InplaceTurn (g : CopyConfig) (c : WriteCall) (w : WriteLoop) (s : CopyLoop) (t : WriteTurn) (vs : List NvmmWrite)
    (w' : WriteLoop) : Prop where
  | fresh (hsource : w.source .inplace c = none)
      (h : TurnCopied g c w t.alloc.ret.toNat t.alloc.blocknr (s.appends w) true vs w')
      (hfresh : FreshBlocks w.file t.alloc.blocknr t.alloc.ret.toNat)
      (hextent : ∃ currP, ∀ q, w.pos / 4096 ≤ q → q < w.pos / 4096 + t.alloc.ret.toNat →
        w'.file.tree.slot q = some currP ∧
          getNvmm (w'.file.entries currP) q = t.alloc.blocknr + (q - w.pos / 4096))
  | inplace (entry : Nat) (hsource : w.source .inplace c = some entry)
      (h : TurnCopied g c w (entBlks (w.file.entries entry) w.numBlocks (w.pos / 4096))
        (getNvmm (w.file.entries entry) (w.pos / 4096)) true false vs w')
      (hsame : ∀ q, w'.file.tree.slot q = w.file.tree.slot q ∧
        ∀ x, w.file.tree.slot q = some x → getNvmm (w'.file.entries x) q = getNvmm (w.file.entries x) q)

section

variable {g : CopyConfig} {c : WriteCall} {w w' : WriteLoop} {s : CopyLoop} {t : WriteTurn}

/-- New blocks are nobody else's. -/
theorem FreshBlocks.apart {f f' : FileTree} {p n blocknr currP : Nat} (h : FreshBlocks f blocknr n) (hf : f.BlocksApart)
    (hextent : ∀ q, p ≤ q → q < p + n → f'.tree.slot q = some currP ∧ getNvmm (f'.entries currP) q = blocknr + (q - p))
    (hothers : ∀ q, ¬(p ≤ q ∧ q < p + n) → f'.tree.slot q = f.tree.slot q ∧
      ∀ x, f.tree.slot q = some x → getNvmm (f'.entries x) q = getNvmm (f.entries x) q) : f'.BlocksApart := by
  have hblock : ∀ q x, f'.tree.slot q = some x →
      (p ≤ q ∧ q < p + n ∧ getNvmm (f'.entries x) q = blocknr + (q - p)) ∨
        (f.tree.slot q = some x ∧ getNvmm (f'.entries x) q = getNvmm (f.entries x) q) := by
    intro q x hq
    by_cases hin : p ≤ q ∧ q < p + n
    · obtain ⟨hslot, hnvmm⟩ := hextent q hin.1 hin.2
      obtain rfl := Option.some.inj (hslot.symm.trans hq)
      exact Or.inl ⟨hin.1, hin.2, hnvmm⟩
    · obtain ⟨hslot, hnvmm⟩ := hothers q hin
      rw [hslot] at hq
      exact Or.inr ⟨hq, hnvmm x hq⟩
  intro q r x y hq hr heq
  rcases hblock q x hq with ⟨hlo, hhi, hnvmm⟩ | ⟨hslot, hnvmm⟩ <;>
    rcases hblock r y hr with ⟨hlo', hhi', hnvmm'⟩ | ⟨hslot', hnvmm'⟩
  · omega
  · have := h r y hslot'
    omega
  · have := h q x hslot
    omega
  · exact hf q r x y hslot hslot' (by omega)

/-- **A turn that goes well.** -/
theorem inplaceTurn_of_ok (hsound : w.file.Sound) (hapart : w.file.BlocksApart) (haligned : w.Aligned) (hnum : w.numBlocks ≠ 0)
    (hfit : t.FitsFresh w) (hok : writeTurn .inplace c w (t.copied (w.turnCopies .inplace c g s t)) = (w', .ok ())) :
    ∃ vs, (s.after w (w.turnCopies .inplace c g s t)).writes = s.writes ++ vs ∧ InplaceTurn g c w s t vs w' := by
  obtain ⟨hcount, -⟩ := haligned hnum
  obtain ⟨w₁, htake, hcopies, herr, -⟩ := writeTurn_copies hok
  unfold WriteLoop.take at htake
  cases writeTurn_ok hok with
  | inplace entry e hsource hfile hsame hadv hgiven hbegin =>
      obtain ⟨hpos, hle⟩ := entBlks_bounds hsource hsound hnum
      have hspan : Spanned w _ w' := ⟨hnum, hpos, hle, haligned, hadv⟩
      have hpages : ∀ q, w'.file.tree.slot q = w.file.tree.slot q ∧
          ∀ x, w.file.tree.slot q = some x → getNvmm (w'.file.entries x) q = getNvmm (w.file.entries x) q := by
        intro q
        rw [hfile]
        exact ⟨rfl, fun x _ => hsame.getNvmm⟩
      simp only [hsource] at htake
      cases htake
      refine ⟨_, ?_, .inplace entry hsource
        { toSpanned := hspan
          writes := rfl
          others := fun q _ => hpages q
          sound := ?_
          apart := ?_ } hpages⟩
      · rw [hcopies]
        refine congrArg (s.writes ++ ·) ?_
        rw [hsource] at herr ⊢
        have hbytes : 0 < spanBytes w (entBlks (w.file.entries entry) w.numBlocks (w.pos / 4096)) := hspan.pages.1
        exact turnCopies_ok hbytes herr
      · rw [hfile]
        exact hsame.sound hsound rfl rfl
      · intro q r x y hq hr heq
        rw [(hpages q).1] at hq
        rw [(hpages r).1] at hr
        rw [(hpages q).2 x hq, (hpages r).2 y hr] at heq
        exact hapart q r x y hq hr heq
  | append currP hsource hret happend hfile hadv =>
      have halloc := hfit.alloc
      have hret : 0 < t.alloc.ret := hret
      have hspan : Spanned w t.alloc.ret.toNat w' := ⟨hnum, by omega, by omega, haligned, hadv⟩
      obtain ⟨hextent, hothers, hsound'⟩ := (hfit.unused currP (Or.inr happend)).1.assigned hsound hfile
      simp only [hsource, if_neg (show ¬t.alloc.ret ≤ 0 by omega)] at htake
      cases htake
      refine ⟨_, ?_, .fresh hsource
        { toSpanned := hspan
          writes := rfl
          others := hothers
          sound := hsound'
          apart := hfit.fresh.apart hapart hextent hothers } hfit.fresh ⟨currP, hextent⟩⟩
      rw [hcopies]
      refine congrArg (s.writes ++ ·) ?_
      rw [hsource] at herr ⊢
      have hbytes : 0 < spanBytes w t.alloc.ret.toNat := hspan.pages.1
      exact turnCopies_ok hbytes herr

end

/-! ### When a turn is right -/

/-- What the file is to hold up to its new size, of what the write does not bring. -/
def WriteCall.newSize (c : WriteCall) : Nat := max c.iSize (c.pos + c.count)

/-- A turn that writes to an entry has the blocks of its pages; and what a turn with new blocks leaves out is in
them already. -/
structure TurnKept (g : CopyConfig) (c : WriteCall) (data : Nat → Nat → UInt8) (w : WriteLoop) (s : CopyLoop)
    (t : WriteTurn) : Prop where
  own : ∀ entry, w.source .inplace c = some entry → ∀ q, w.pos / 4096 ≤ q →
    q < w.pos / 4096 + entBlks (w.file.entries entry) w.numBlocks (w.pos / 4096) →
    ∃ x, w.file.tree.slot q = some x ∧ getNvmm (w.file.entries x) q = getNvmm (w.file.entries entry) q
  left : w.source .inplace c = none → ∀ x < c.newSize, LeftOut g w.file w.pos (turnBytes w t) (s.appends w) x →
    data (t.alloc.blocknr + (x / 4096 - w.pos / 4096)) (x % 4096) = w.file.byte data x

/-- So in every turn. -/
def InplaceKept (g : CopyConfig) (c : WriteCall) (data : Nat → Nat → UInt8) : WriteLoop → CopyLoop → List WriteTurn → Prop
  | _, _, [] => True
  | w, s, t :: ts => w.numBlocks ≠ 0 → TurnKept g c data w s t ∧
      InplaceKept g c data (writeTurn .inplace c w (t.copied (w.turnCopies .inplace c g s t))).1
        (s.after w (w.turnCopies .inplace c g s t)) ts

/-- Blocks under the pages that are done. -/
def Behind (w : WriteLoop) (b : Nat) : Prop :=
  ∃ q x, q < w.pos / 4096 ∧ w.file.tree.slot q = some x ∧ getNvmm (w.file.entries x) q = b

section

variable {g : CopyConfig} {c : WriteCall} {w w₁ w' : WriteLoop} {s s' : CopyLoop} {t : WriteTurn} {vs ws : List NvmmWrite}
  {user : Nat → UInt8} {data data₀ : Nat → Nat → UInt8} {n blocknr b o x : Nat} {append tryDele : Bool} {ts : List WriteTurn}

/-- What its copies store to. -/
theorem TurnCopied.covers (h : TurnCopied g c w n blocknr append tryDele vs w') {v : NvmmWrite} (hv : v ∈ vs)
    (hcov : v.Covers g b o) (ho : o < 4096) : blocknr ≤ b ∧ b < blocknr + n := by
  obtain ⟨hbytes, hpages⟩ := h.pages
  rw [h.writes] at hv
  have hin := (CopyOf.mem hbytes hv hcov).within hbytes hcov ho
  rwa [hpages] at hin

/-- A page the turn does not go over is as it was when its block is not one of the turn's. -/
theorem TurnCopied.other (h : TurnCopied g c w n blocknr append tryDele vs w')
    (hout : ¬(w.pos / 4096 ≤ x / 4096 ∧ x / 4096 < w.pos / 4096 + n))
    (hblock : ∀ entry, w.file.tree.slot (x / 4096) = some entry →
      ¬(blocknr ≤ getNvmm (w.file.entries entry) (x / 4096) ∧ getNvmm (w.file.entries entry) (x / 4096) < blocknr + n)) :
    w'.file.byte (applyWrites g user vs data) x =
      overlay w.pos (spanBytes w n) (fun k => user (w.pos - c.pos + k)) (w.file.byte data) x := by
  obtain ⟨hbytes, hpages⟩ := h.pages
  obtain ⟨hslot, hnvmm⟩ := h.others (x / 4096) hout
  unfold overlay
  rw [if_neg (by unfold writeNumBlocks at hpages; omega)]
  unfold FileTree.byte
  rw [hslot]
  cases hx : w.file.tree.slot (x / 4096) with
  | none => rfl
  | some entry =>
      dsimp only
      rw [hnvmm entry hx]
      refine applyWrites_keep fun v hv hcov => ?_
      exact hblock entry hx (h.covers hv hcov (Nat.mod_lt _ (by decide)))

/-- The bytes of a page that stay where they were. -/
theorem byte_congr {f f' : FileTree} (hslot : f'.tree.slot (x / 4096) = f.tree.slot (x / 4096))
    (hnvmm : ∀ entry, f.tree.slot (x / 4096) = some entry →
      getNvmm (f'.entries entry) (x / 4096) = getNvmm (f.entries entry) (x / 4096))
    (hdata : ∀ entry, f.tree.slot (x / 4096) = some entry →
      data (getNvmm (f.entries entry) (x / 4096)) (x % 4096) = data₀ (getNvmm (f.entries entry) (x / 4096)) (x % 4096)) :
    f'.byte data x = f.byte data₀ x := by
  unfold FileTree.byte
  rw [hslot]
  cases hx : f.tree.slot (x / 4096) with
  | none => rfl
  | some entry =>
      dsimp only
      rw [hnvmm entry hx, hdata entry hx]

/-- The byte a page ahead holds is the one it held at the start. -/
theorem ahead_byte (hapart : w.file.BlocksApart) (hdata : ∀ b, ¬Behind w b → ∀ o < 4096, data b o = data₀ b o)
    (hx : w.pos / 4096 ≤ x / 4096) : w.file.byte data x = w.file.byte data₀ x := by
  refine byte_congr rfl (fun _ _ => rfl) fun entry hentry => hdata _ ?_ _ (Nat.mod_lt _ (by decide))
  rintro ⟨q, y, hq, hslot, hnvmm⟩
  have := hapart q (x / 4096) y entry hslot hentry hnvmm
  omega

/-- **The bytes after a turn** that is right. -/
theorem InplaceTurn.byte (h : InplaceTurn g c w s t vs w') (hsound : w.file.Sound) (hapart : w.file.BlocksApart)
    (hdata : ∀ b, ¬Behind w b → ∀ o < 4096, data b o = data₀ b o) (hkept : TurnKept g c data₀ w s t) (hx : x < c.newSize) :
    w'.file.byte (applyWrites g user vs data) x =
      overlay w.pos (w'.pos - w.pos) (fun k => user (w.pos - c.pos + k)) (w.file.byte data) x := by
  have hmod : x % 4096 < 4096 := Nat.mod_lt _ (by decide)
  cases h with
  | fresh hsource h hfresh hextent =>
      obtain ⟨hbytes, hpages⟩ := h.pages
      have hmoved : w'.pos - w.pos = spanBytes w t.alloc.ret.toNat := by
        have := h.moves.1
        omega
      rw [hmoved]
      by_cases hin : w.pos / 4096 ≤ x / 4096 ∧ x / 4096 < w.pos / 4096 + t.alloc.ret.toNat
      · obtain ⟨currP, hextent⟩ := hextent
        obtain ⟨hslot, hnvmm⟩ := hextent (x / 4096) hin.1 hin.2
        unfold FileTree.byte
        rw [hslot]
        dsimp only
        rw [hnvmm, h.writes]
        have hplace : 4096 * (w.pos / 4096 + (x / 4096 - w.pos / 4096)) + x % 4096 = x := by omega
        by_cases hleft : LeftOut g w.file w.pos (spanBytes w t.alloc.ret.toNat) (s.appends w) x
        · have hnot : ¬Behind w (t.alloc.blocknr + (x / 4096 - w.pos / 4096)) := by
            rintro ⟨q, y, -, hq, hb⟩
            rcases hfresh q y hq with hlt | hge <;> omega
          have hout : ¬(w.pos ≤ x ∧ x < w.pos + spanBytes w t.alloc.ret.toNat) := by
            rcases hleft with ⟨hlt, -⟩ | ⟨hge, -⟩ <;> omega
          rw [applyWrites_keep fun v hv => hleft.not_covered hbytes hv, hdata _ hnot _ hmod, hkept.left hsource x hx hleft,
            overlay, if_neg hout]
          exact (ahead_byte hapart hdata hin.1).symm
        · have hcov := @turnWrites_covers g w.file w.pos (spanBytes w t.alloc.ret.toNat) t.alloc.blocknr (w.pos - c.pos) x
            (s.appends w) hbytes hin.1 (by unfold writeNumBlocks at hpages; omega) hleft
          have hfresh' : FreshBlocks w.file t.alloc.blocknr (writeNumBlocks w.pos (spanBytes w t.alloc.ret.toNat)) := by
            rw [hpages]
            exact hfresh
          refine (turnWrites_byte hbytes hfresh' hmod hcov).trans ?_
          rw [hplace]
          rfl
      · refine h.other hin fun entry hentry hblock => ?_
        rcases hfresh (x / 4096) entry hentry with hlt | hge <;> omega
  | inplace entry hsource h hsame =>
      obtain ⟨n, hn⟩ : ∃ n, n = entBlks (w.file.entries entry) w.numBlocks (w.pos / 4096) := ⟨_, rfl⟩
      have hown := hkept.own entry hsource
      rw [← hn] at h hown
      obtain ⟨hbytes, hpages⟩ := h.pages
      have hmoved : w'.pos - w.pos = spanBytes w n := by
        have := h.moves.1
        omega
      have hpgoff := (hsound.within _ _ (WriteLoop.source_epoch hsource).1).1
      have hnvmm : ∀ q, w.pos / 4096 ≤ q →
          getNvmm (w.file.entries entry) q = getNvmm (w.file.entries entry) (w.pos / 4096) + (q - w.pos / 4096) := by
        intro q hq
        unfold getNvmm
        omega
      rw [hmoved]
      by_cases hin : w.pos / 4096 ≤ x / 4096 ∧ x / 4096 < w.pos / 4096 + n
      · obtain ⟨y, hslot, hblock⟩ := hown (x / 4096) hin.1 hin.2
        rw [hnvmm _ hin.1] at hblock
        have hcopies : ∀ v ∈ vs, v.Covers g (getNvmm (w.file.entries y) (x / 4096)) (x % 4096) →
            (w.pos ≤ x ∧ x < w.pos + spanBytes w n) ∧
              ∀ data, v.value user data (getNvmm (w.file.entries y) (x / 4096)) (x % 4096) = user (w.pos - c.pos + (x - w.pos)) := by
          intro v hv hcov
          rw [h.writes] at hv
          obtain ⟨k, hsrc, hplace, hlen⟩ := (CopyOf.mem hbytes hv hcov).only_user
          obtain ⟨z, hlo, hhi, hz, hvalue⟩ := CopyOf.user_value hsrc hplace hlen hcov
          obtain rfl : z = x := by omega
          exact ⟨⟨hlo, hhi⟩, hvalue user⟩
        unfold overlay
        unfold FileTree.byte
        rw [(hsame _).1, hslot]
        dsimp only
        rw [(hsame _).2 y hslot]
        by_cases hrange : w.pos ≤ x ∧ x < w.pos + spanBytes w n
        · rw [if_pos hrange]
          refine applyWrites_eq (P := fun _ => True) trivial (fun _ _ _ _ => trivial)
            (fun v hv hcov data' _ => (hcopies v hv hcov).2 data') (Or.inr ?_)
          rw [h.writes, hblock]
          exact turnWrites_user hbytes hrange.1 hrange.2
        · rw [if_neg hrange]
          exact applyWrites_keep fun v hv hcov => hrange (hcopies v hv hcov).1
      · refine h.other hin fun y hy hblock => ?_
        obtain ⟨z, hslot, hz⟩ := hown (w.pos / 4096 + (getNvmm (w.file.entries y) (x / 4096) -
          getNvmm (w.file.entries entry) (w.pos / 4096))) (by omega) (by omega)
        replace hz := hz.trans (hnvmm _ (by omega))
        have := hapart _ (x / 4096) z y hslot hy (by omega)
        omega

/-! ### All turns -/

/-- Turns that write all there is to write, with their copies. -/
inductive InplaceRun (g : CopyConfig) (c : WriteCall) : WriteLoop → CopyLoop → List WriteTurn → List NvmmWrite → WriteLoop → Prop
  | done (w : WriteLoop) (s : CopyLoop) (ts : List WriteTurn) (h : w.numBlocks = 0) : InplaceRun g c w s ts [] w
  | turn (w : WriteLoop) (s : CopyLoop) (t : WriteTurn) (ts : List WriteTurn) (vs : List NvmmWrite) (w₁ : WriteLoop)
      (ws : List NvmmWrite) (w' : WriteLoop) (hsound : w.file.Sound) (hapart : w.file.BlocksApart)
      (hok : writeTurn .inplace c w (t.copied (w.turnCopies .inplace c g s t)) = (w₁, .ok ()))
      (h : InplaceTurn g c w s t vs w₁)
      (rest : InplaceRun g c w₁ (s.after w (w.turnCopies .inplace c g s t)) ts ws w') :
      InplaceRun g c w s (t :: ts) (vs ++ ws) w'

/-- The pages a turn goes over. -/
theorem InplaceTurn.spans (h : InplaceTurn g c w s t vs w') : ∃ n blocknr append tryDele,
    TurnCopied g c w n blocknr append tryDele vs w' := by
  cases h with
  | fresh hsource h hfresh hextent => exact ⟨_, _, _, _, h⟩
  | inplace entry hsource h hsame => exact ⟨_, _, _, _, h⟩

theorem copyTurns_inplace (hsound : w.file.Sound) (hapart : w.file.BlocksApart) (haligned : w.Aligned)
    (hfit : CopiesFit .inplace c g w s ts) (hok : copyTurns .inplace c g w s ts = ((w', .ok ()), s'))
    (hdone : w'.numBlocks = 0) : ∃ ws, s'.writes = s.writes ++ ws ∧ InplaceRun g c w s ts ws w' := by
  induction ts generalizing w s with
  | nil =>
      cases hok
      exact ⟨[], (List.append_nil _).symm, .done _ _ _ hdone⟩
  | cons t ts ih =>
      unfold copyTurns at hok
      by_cases hnum : w.numBlocks = 0
      · rw [if_pos hnum] at hok
        cases hok
        exact ⟨[], (List.append_nil _).symm, .done _ _ _ hdone⟩
      · rw [if_neg hnum] at hok
        obtain ⟨hturn, hrest⟩ := hfit
        dsimp only at hok
        cases hok₁ : writeTurn .inplace c w (t.copied (w.turnCopies .inplace c g s t)) with
        | mk w₁ res =>
            rw [hok₁] at hok hrest
            cases res with
            | error ret => cases hok
            | ok u =>
                obtain ⟨vs, hvs, hstep⟩ := inplaceTurn_of_ok hsound hapart haligned hnum (hturn hnum) hok₁
                obtain ⟨n, blocknr, append, tryDele, hcopied⟩ := hstep.spans
                obtain ⟨ws, hwrites, hrun⟩ := ih hcopied.sound hcopied.apart hcopied.rest.1 hrest hok
                rw [hvs, List.append_assoc] at hwrites
                exact ⟨_, hwrites, .turn w s t ts vs w₁ ws w' hsound hapart hok₁ hstep hrun⟩

theorem InplaceRun.done_eq (h : InplaceRun g c w s ts ws w') (hnum : w.numBlocks = 0) : ws = [] ∧ w' = w := by
  cases h with
  | done _ _ _ h => exact ⟨rfl, rfl⟩
  | turn _ _ t ts vs w₁ ws _ hsound hapart hok h rest =>
      obtain ⟨n, blocknr, append, tryDele, hcopied⟩ := h.spans
      exact absurd hnum hcopied.num

/-- Pages that are done keep their blocks. -/
theorem TurnCopied.behind (h : TurnCopied g c w n blocknr append tryDele vs w') (hnum : w'.numBlocks ≠ 0) (hb : Behind w b) :
    Behind w' b := by
  obtain ⟨q, y, hq, hslot, hnvmm⟩ := hb
  obtain ⟨hslot', hnvmm'⟩ := h.others q (by omega)
  have hpage := (h.rest.2 hnum).1
  exact ⟨q, y, by omega, hslot'.trans hslot, (hnvmm' y hslot).trans hnvmm⟩

/-- A turn that is right stores only to blocks that are behind it then. -/
theorem InplaceTurn.stores (h : InplaceTurn g c w s t vs w') (hsound : w.file.Sound) (hkept : TurnKept g c data₀ w s t)
    (hnum : w'.numBlocks ≠ 0) {v : NvmmWrite} (hv : v ∈ vs) (hcov : v.Covers g b o) (ho : o < 4096) : Behind w' b := by
  cases h with
  | fresh hsource h hfresh hextent =>
      obtain ⟨hlo, hhi⟩ := h.covers hv hcov ho
      have hpage := (h.rest.2 hnum).1
      obtain ⟨currP, hextent⟩ := hextent
      obtain ⟨hslot, hnvmm⟩ := hextent (w.pos / 4096 + (b - t.alloc.blocknr)) (by omega) (by omega)
      exact ⟨_, currP, by omega, hslot, by omega⟩
  | inplace entry hsource h hsame =>
      obtain ⟨hlo, hhi⟩ := h.covers hv hcov ho
      have hpage := (h.rest.2 hnum).1
      have hpgoff := (hsound.within _ _ (WriteLoop.source_epoch hsource).1).1
      obtain ⟨y, hslot, hnvmm⟩ := hkept.own entry hsource
        (w.pos / 4096 + (b - getNvmm (w.file.entries entry) (w.pos / 4096))) (by omega) (by omega)
      refine ⟨_, y, ?_, (hsame _).1.trans hslot, ?_⟩
      · omega
      · rw [(hsame _).2 y hslot, hnvmm]
        unfold getNvmm at hlo ⊢
        omega

/-- **The bytes after the write**, when all turns are right. -/
theorem InplaceRun.byte (h : InplaceRun g c w s ts ws w') (hnum : w.numBlocks ≠ 0) (hpos : c.pos ≤ w.pos)
    (hdata : ∀ b, ¬Behind w b → ∀ o < 4096, data b o = data₀ b o) (hkept : InplaceKept g c data₀ w s ts) (hx : x < c.newSize) :
    w'.file.byte (applyWrites g user ws data) x =
      overlay w.pos w.count (fun k => user (w.pos - c.pos + k)) (w.file.byte data) x := by
  induction h generalizing data with
  | done w s ts h => exact absurd h hnum
  | turn w s t ts vs w₁ ws w' hsound hapart hok h rest ih =>
      obtain ⟨hturn, hrest⟩ := hkept hnum
      rw [hok] at hrest
      have hbyte := @InplaceTurn.byte _ _ _ _ _ _ _ user _ _ _ h hsound hapart hdata hturn hx
      obtain ⟨n, blocknr, append, tryDele, hcopied⟩ := h.spans
      obtain ⟨hmoved, hcount⟩ := hcopied.moves
      have hle : spanBytes w n ≤ w.count := Nat.min_le_right ..
      rw [applyWrites_append]
      by_cases hnum₁ : w₁.numBlocks = 0
      · obtain ⟨rfl, rfl⟩ := rest.done_eq hnum₁
        have hlast := hcopied.last hnum₁
        rw [show w'.pos - w.pos = w.count by omega] at hbyte
        exact hbyte
      · have hstored : ∀ b, ¬Behind w₁ b → ∀ o < 4096, applyWrites g user vs data b o = data₀ b o := by
          intro b hb o ho
          rw [applyWrites_keep fun v hv hcov => hb (h.stores hsound hturn hnum₁ hv hcov ho)]
          exact hdata b (fun hbehind => hb (hcopied.behind hnum₁ hbehind)) o ho
        rw [ih hnum₁ (by omega) hstored hrest]
        have hbuf : (fun k => user (w₁.pos - c.pos + k)) = fun k => user (w.pos - c.pos + (spanBytes w n + k)) := by
          funext k
          congr 1
          omega
        rw [show w₁.pos - w.pos = spanBytes w n by omega] at hbyte
        have hsum : w.count = spanBytes w n + w₁.count := by omega
        rw [hbuf, hmoved, hsum, ← overlay_overlay w.pos (spanBytes w n) w₁.count (fun k => user (w.pos - c.pos + k))]
        unfold overlay at hbyte ⊢
        rw [hbyte]

/-! ### Where a turn is not right -/

/-- A copy of a turn brings the user's data, or goes to new blocks. -/
theorem TurnCopied.brings (h : TurnCopied g c w n blocknr append tryDele vs w') (hpos : c.pos ≤ w.pos) {v : NvmmWrite}
    (hv : v ∈ vs) (hcov : v.Covers g b o) :
    (∃ z, w.pos ≤ z ∧ z < w'.pos ∧ z + 4096 * blocknr = 4096 * (w.pos / 4096) + 4096 * b + o ∧
      ∀ user data, v.value user data b o = user (z - c.pos)) ∨ append = false := by
  have hbytes := h.pages.1
  rw [h.writes] at hv
  cases CopyOf.mem hbytes hv hcov with
  | user w k hsrc hplace hlen =>
      obtain ⟨z, hlo, hhi, hz, hvalue⟩ := CopyOf.user_value hsrc hplace hlen hcov
      refine Or.inl ⟨z, hlo, by rw [h.moves.1]; exact hhi, hz, fun user data => (hvalue user data).trans ?_⟩
      congr 1
      omega
  | head happend => exact Or.inr happend
  | tail happend => exact Or.inr happend

/-- So what is mapped is given the user's data only. -/
theorem InplaceTurn.brings (h : InplaceTurn g c w s t vs w') (hpos : c.pos ≤ w.pos) {v : NvmmWrite} (hv : v ∈ vs)
    (hcov : v.Covers g b o) (ho : o < 4096) :
    (∃ z, w.pos ≤ z ∧ z < w'.pos ∧ ∀ user data, v.value user data b o = user (z - c.pos)) ∨
      ((∀ q x, w.file.tree.slot q = some x → getNvmm (w.file.entries x) q ≠ b) ∧ (w'.numBlocks ≠ 0 → Behind w' b)) := by
  cases h with
  | fresh hsource h hfresh hextent =>
      obtain ⟨hlo, hhi⟩ := h.covers hv hcov ho
      refine Or.inr ⟨fun q x hq hb => ?_, fun hnum => ?_⟩
      · rcases hfresh q x hq with hlt | hge <;> omega
      · have hpage := (h.rest.2 hnum).1
        obtain ⟨currP, hextent⟩ := hextent
        obtain ⟨hslot, hnvmm⟩ := hextent (w.pos / 4096 + (b - t.alloc.blocknr)) (by omega) (by omega)
        exact ⟨_, currP, by omega, hslot, by omega⟩
  | inplace entry hsource h hsame =>
      rcases h.brings hpos hv hcov with ⟨z, hlo, hhi, -, hvalue⟩ | happend
      · exact Or.inl ⟨z, hlo, hhi, hvalue⟩
      · cases happend

/-- A page that is done stays as it is. -/
theorem InplaceRun.behind (h : InplaceRun g c w s ts ws w') {q : Nat} (hq : w.numBlocks ≠ 0 → q < w.pos / 4096) :
    w'.file.tree.slot q = w.file.tree.slot q ∧
      ∀ x, w.file.tree.slot q = some x → getNvmm (w'.file.entries x) q = getNvmm (w.file.entries x) q := by
  induction h with
  | done w s ts h => exact ⟨rfl, fun _ _ => rfl⟩
  | turn w s t ts vs w₁ ws w' hsound hapart hok h rest ih =>
      obtain ⟨n, blocknr, append, tryDele, hcopied⟩ := h.spans
      have hlt := hq hcopied.num
      obtain ⟨hslot, hnvmm⟩ := hcopied.others q (by omega)
      obtain ⟨hslot', hnvmm'⟩ := ih fun hnum₁ => by
        have := (hcopied.rest.2 hnum₁).1
        omega
      exact ⟨hslot'.trans hslot, fun x hx => (hnvmm' x (hslot.trans hx)).trans (hnvmm x hx)⟩

theorem InplaceRun.brings (h : InplaceRun g c w s ts ws w') (hpos : c.pos ≤ w.pos) (hb : w.numBlocks ≠ 0 → Behind w b)
    {v : NvmmWrite} (hv : v ∈ ws) (hcov : v.Covers g b o) (ho : o < 4096) :
    ∃ z, w.pos ≤ z ∧ ∀ user data, v.value user data b o = user (z - c.pos) := by
  induction h with
  | done w s ts h => cases hv
  | turn w s t ts vs w₁ ws w' hsound hapart hok h rest ih =>
      obtain ⟨n, blocknr, append, tryDele, hcopied⟩ := h.spans
      have hbehind := hb hcopied.num
      have hmoved := hcopied.moves.1
      rcases List.mem_append.mp hv with hv | hv
      · rcases h.brings hpos hv hcov ho with ⟨z, hlo, -, hvalue⟩ | ⟨hnot, -⟩
        · exact ⟨z, hlo, hvalue⟩
        · obtain ⟨q, x, -, hslot, hnvmm⟩ := hbehind
          exact absurd hnvmm (hnot q x hslot)
      · obtain ⟨z, hlo, hvalue⟩ := ih (by omega) (fun hnum₁ => hcopied.behind hnum₁ hbehind) hv
        exact ⟨z, by omega, hvalue⟩

/-- Where the write is wrong: a byte of the user's went to a block that is not that of its page; or a byte of
what was before is in a new block, which held something else. -/
inductive Spoiled (g : CopyConfig) (c : WriteCall) (data : Nat → Nat → UInt8) (w : WriteLoop) (ws : List NvmmWrite)
    (w' : WriteLoop) (x : Nat) : Prop where
  | hole (hpage : w.pos / 4096 ≤ x / 4096) (hin : c.pos ≤ x ∧ x < c.pos + c.count)
      (hslot : w'.file.tree.slot (x / 4096) = none)
  | elsewhere (entry b : Nat) (hpage : w.pos / 4096 ≤ x / 4096) (hin : c.pos ≤ x ∧ x < c.pos + c.count)
      (hslot : w'.file.tree.slot (x / 4096) = some entry) (hblock : getNvmm (w'.file.entries entry) (x / 4096) = b)
      (hcopies : ∀ v ∈ ws, v.Covers g b (x % 4096) →
        ∃ k, k ≠ x - c.pos ∧ ∀ user data, v.value user data b (x % 4096) = user k)
      (hapart : ¬Behind w b)
  | left (entry b : Nat) (hpage : w.pos / 4096 ≤ x / 4096) (hout : ¬(c.pos ≤ x ∧ x < c.pos + c.count)) (hlt : x < c.newSize)
      (hold : x < c.iSize ∨ w.file.byte data x = 0)
      (hslot : w'.file.tree.slot (x / 4096) = some entry) (hblock : getNvmm (w'.file.entries entry) (x / 4096) = b)
      (hcopies : ∀ v ∈ ws, v.Covers g b (x % 4096) → ∃ k, ∀ user data, v.value user data b (x % 4096) = user k)
      (hapart : ¬Behind w b) (hne : data b (x % 4096) ≠ w.file.byte data x)

/-- What is wrong of the rest is wrong of the write. -/
theorem Spoiled.lift (h : InplaceTurn g c w s t vs w₁) (hnum : w₁.numBlocks ≠ 0) (hpos : c.pos ≤ w.pos)
    (hspoiled : Spoiled g c data w₁ ws w' x) : Spoiled g c data w (vs ++ ws) w' x := by
  obtain ⟨n, blocknr, append, tryDele, hcopied⟩ := h.spans
  obtain ⟨hpage, hstart⟩ := hcopied.rest.2 hnum
  have hmod : x % 4096 < 4096 := Nat.mod_lt _ (by decide)
  cases hspoiled with
  | hole hpage' hin hslot => exact .hole (by omega) hin hslot
  | elsewhere entry b hpage' hin hslot hblock hcopies hapart =>
      refine .elsewhere entry b (by omega) hin hslot hblock (fun v hv hcov => ?_) fun hb => hapart (hcopied.behind hnum hb)
      rcases List.mem_append.mp hv with hv | hv
      · rcases h.brings hpos hv hcov hmod with ⟨z, hlo, hhi, hvalue⟩ | ⟨-, hbehind⟩
        · exact ⟨z - c.pos, by omega, hvalue⟩
        · exact absurd (hbehind hnum) hapart
      · exact hcopies v hv hcov
  | left entry b hpage' hout hlt hold hslot hblock hcopies hapart hne =>
      have hbyte : w₁.file.byte data x = w.file.byte data x := by
        obtain ⟨hslot', hnvmm'⟩ := hcopied.others (x / 4096) (by omega)
        exact byte_congr hslot' hnvmm' fun _ _ => rfl
      rw [hbyte] at hold hne
      refine .left entry b (by omega) hout hlt hold hslot hblock (fun v hv hcov => ?_)
        (fun hb => hapart (hcopied.behind hnum hb)) hne
      rcases List.mem_append.mp hv with hv | hv
      · rcases h.brings hpos hv hcov hmod with ⟨z, -, -, hvalue⟩ | ⟨-, hbehind⟩
        · exact ⟨z - c.pos, hvalue⟩
        · exact absurd (hbehind hnum) hapart
      · exact hcopies v hv hcov

/-- What there is of the write, between turns. -/
structure InplaceRest (c : WriteCall) (w : WriteLoop) : Prop where
  le : c.pos ≤ w.pos
  stop : w.pos + w.count = c.pos + c.count
  first : w.pos % 4096 ≠ 0 → w.pos = c.pos

theorem InplaceRest.turn (h : InplaceRest c w) (hturn : TurnCopied g c w n blocknr append tryDele vs w') (hnum : w'.numBlocks ≠ 0) :
    InplaceRest c w' := by
  obtain ⟨hmoved, hcount⟩ := hturn.moves
  have hle := h.le
  have hstop := h.stop
  have hspan : spanBytes w n ≤ w.count := Nat.min_le_right ..
  exact ⟨by omega, by omega, fun hne => absurd (hturn.rest.2 hnum).2 hne⟩

/-- A turn that goes by an entry which has lost pages. -/
theorem InplaceTurn.not_own (h : InplaceTurn g c w s t vs w₁) (hrest : InplaceRest c w) (hsound : w.file.Sound)
    (hapart : w.file.BlocksApart) (rest : InplaceRun g c w₁ s' ts ws w') {entry q : Nat} (hentry : w.source .inplace c = some entry)
    (hlo : w.pos / 4096 ≤ q) (hhi : q < w.pos / 4096 + entBlks (w.file.entries entry) w.numBlocks (w.pos / 4096))
    (hother : ∀ x, w.file.tree.slot q = some x → getNvmm (w.file.entries x) q ≠ getNvmm (w.file.entries entry) q) :
    ∃ x, Spoiled g c data w (vs ++ ws) w' x := by
  cases h with
  | fresh hsource => rw [hsource] at hentry; cases hentry
  | inplace entry' hsource h hsame =>
      obtain rfl := Option.some.inj (hsource.symm.trans hentry)
      obtain ⟨n, hn⟩ : ∃ n, n = entBlks (w.file.entries entry') w.numBlocks (w.pos / 4096) := ⟨_, rfl⟩
      rw [← hn] at h hhi
      have hpgoff := (hsound.within _ _ (WriteLoop.source_epoch hsource).1).1
      obtain ⟨hcount, hblocks⟩ := h.aligned h.num
      have hle := h.le
      have hcle := hrest.le
      have hstop := hrest.stop
      have hmoved := h.moves.1
      obtain ⟨x, hx⟩ : ∃ x, x = max (4096 * q) w.pos := ⟨_, rfl⟩
      have hpage : x / 4096 = q := by omega
      have hin : c.pos ≤ x ∧ x < c.pos + c.count := by
        unfold writeNumBlocks at hblocks
        omega
      have hbehind : w₁.numBlocks ≠ 0 → q < w₁.pos / 4096 := fun hnum₁ => by
        have := (h.rest.2 hnum₁).1
        omega
      obtain ⟨hslot, hnvmm⟩ := rest.behind hbehind
      obtain ⟨hslot₁, hnvmm₁⟩ := hsame q
      refine ⟨x, ?_⟩
      cases hq : w.file.tree.slot q with
      | none =>
          refine .hole (by omega) hin ?_
          rw [hpage, hslot, hslot₁, hq]
      | some y =>
          have hy₁ : w₁.file.tree.slot q = some y := hslot₁.trans hq
          refine .elsewhere y (getNvmm (w.file.entries y) q) (by omega) hin ?_ ?_ (fun v hv hcov => ?_) ?_
          · rw [hpage, hslot, hy₁]
          · rw [hpage, hnvmm y hy₁, hnvmm₁ y hq]
          · rcases List.mem_append.mp hv with hv | hv
            · rcases h.brings hcle hv hcov with ⟨z, hzlo, -, hz, hvalue⟩ | happend
              · refine ⟨z - c.pos, fun heq => hother y hq ?_, hvalue⟩
                -- the entry's block of the page
                have hnv : getNvmm (w.file.entries entry') q = getNvmm (w.file.entries entry') (w.pos / 4096) + (q - w.pos / 4096) := by
                  unfold getNvmm
                  omega
                omega
              · cases happend
            · by_cases hnum₁ : w₁.numBlocks = 0
              · rw [(rest.done_eq hnum₁).1] at hv
                cases hv
              · have hq₁ := hbehind hnum₁
                obtain ⟨z, hz, hvalue⟩ := rest.brings (by omega) (fun _ => ⟨q, y, hq₁, hy₁, hnvmm₁ y hq⟩) hv hcov
                  (Nat.mod_lt _ (by decide))
                exact ⟨z - c.pos, by omega, hvalue⟩
          · rintro ⟨r, z, hr, hslotr, hnvmmr⟩
            have := hapart r q z y hslotr hq hnvmmr
            omega

/-- A turn that leaves out what its new blocks do not hold. -/
theorem InplaceTurn.not_left (h : InplaceTurn g c w s t vs w₁) (hrest : InplaceRest c w)
    (rest : InplaceRun g c w₁ s' ts ws w') (hsource : w.source .inplace c = none) (hlt : x < c.newSize)
    (hleft : LeftOut g w.file w.pos (turnBytes w t) (s.appends w) x)
    (hne : data (t.alloc.blocknr + (x / 4096 - w.pos / 4096)) (x % 4096) ≠ w.file.byte data x) :
    Spoiled g c data w (vs ++ ws) w' x := by
  cases h with
  | inplace entry hentry => rw [hsource] at hentry; cases hentry
  | fresh hsource h hfresh hextent =>
      obtain ⟨hbytes, hpages⟩ := h.pages
      have hspan : spanBytes w t.alloc.ret.toNat = turnBytes w t := rfl
      have hcle := hrest.le
      have hstop := hrest.stop
      have hmoved := h.moves.1
      rw [hspan] at hbytes hpages hmoved
      have hend : (w.pos + turnBytes w t) % 4096 ≠ 0 → turnBytes w t = w.count := h.end_eq
      have hin : w.pos / 4096 ≤ x / 4096 ∧ x / 4096 < w.pos / 4096 + t.alloc.ret.toNat := by
        unfold writeNumBlocks at hpages
        rcases hleft with ⟨-, hpage, -⟩ | ⟨-, hpage, hne', -⟩ <;> omega
      have hbehind : w₁.numBlocks ≠ 0 → x / 4096 < w₁.pos / 4096 := fun hnum₁ => by
        have := (h.rest.2 hnum₁).1
        omega
      obtain ⟨currP, hextent⟩ := hextent
      obtain ⟨hslot₁, hnvmm₁⟩ := hextent (x / 4096) hin.1 hin.2
      obtain ⟨hslot, hnvmm⟩ := rest.behind hbehind
      have hold : ¬(c.pos ≤ x ∧ x < c.pos + c.count) ∧ (x < c.iSize ∨ w.file.byte data x = 0) := by
        rcases hleft with ⟨hbefore, hpage, happend | hstored⟩ | ⟨hafter, hpage, hne', -⟩
        · -- with `append` the turn starts with a page
          unfold CopyLoop.appends at happend
          simp only [Bool.and_eq_true, decide_eq_true_eq] at happend
          omega
        · have hfirst := hrest.first (by omega)
          have hnone := oldStored_lt (show oldStored g w.file (w.pos / 4096) (w.pos % 4096) < w.pos % 4096 by omega)
          refine ⟨by omega, Or.inr ?_⟩
          unfold FileTree.byte
          rw [hpage, hnone]
        · have hlast := hend hne'
          unfold WriteCall.newSize at hlt
          exact ⟨by omega, Or.inl (by omega)⟩
      refine .left currP (t.alloc.blocknr + (x / 4096 - w.pos / 4096)) hin.1 hold.1 hlt hold.2 (hslot.trans hslot₁)
        ((hnvmm _ hslot₁).trans hnvmm₁) (fun v hv hcov => ?_) ?_ hne
      · rcases List.mem_append.mp hv with hv | hv
        · rw [h.writes] at hv
          exact absurd hcov (hleft.not_covered hbytes hv)
        · by_cases hnum₁ : w₁.numBlocks = 0
          · rw [(rest.done_eq hnum₁).1] at hv
            cases hv
          · obtain ⟨z, -, hvalue⟩ := rest.brings (by omega) (fun _ => ⟨x / 4096, currP, hbehind hnum₁, hslot₁, hnvmm₁⟩) hv hcov
              (Nat.mod_lt _ (by decide))
            exact ⟨z - c.pos, hvalue⟩
      · rintro ⟨q, y, -, hq, hb⟩
        rcases hfresh q y hq with hlt | hge <;> omega

/-- **A turn that is not right** spoils a byte. -/
theorem InplaceRun.spoiled (h : InplaceRun g c w s ts ws w') (hrest : InplaceRest c w) (hkept : ¬InplaceKept g c data w s ts) :
    ∃ x, Spoiled g c data w ws w' x := by
  induction h with
  | done w s ts h =>
      cases ts with
      | nil => exact absurd trivial hkept
      | cons t ts => exact absurd (fun hnum => absurd h hnum) hkept
  | turn w s t ts vs w₁ ws w' hsound hapart hok h rest ih =>
      obtain ⟨n, blocknr, append, tryDele, hcopied⟩ := h.spans
      by_cases hturn : TurnKept g c data w s t
      · by_cases hlater : InplaceKept g c data w₁ (s.after w (w.turnCopies .inplace c g s t)) ts
        · refine absurd (fun _ => ⟨hturn, ?_⟩) hkept
          rw [hok]
          exact hlater
        · by_cases hnum₁ : w₁.numBlocks = 0
          · refine absurd ?_ hlater
            cases ts with
            | nil => trivial
            | cons t ts => exact fun hnum => absurd hnum₁ hnum
          · obtain ⟨x, hspoiled⟩ := ih (hrest.turn hcopied hnum₁) hlater
            exact ⟨x, hspoiled.lift h hnum₁ hrest.le⟩
      · by_cases hown : ∀ entry, w.source .inplace c = some entry → ∀ q, w.pos / 4096 ≤ q →
            q < w.pos / 4096 + entBlks (w.file.entries entry) w.numBlocks (w.pos / 4096) →
            ∃ x, w.file.tree.slot q = some x ∧ getNvmm (w.file.entries x) q = getNvmm (w.file.entries entry) q
        · have hleft : ¬(w.source .inplace c = none → ∀ x < c.newSize, LeftOut g w.file w.pos (turnBytes w t) (s.appends w) x →
              data (t.alloc.blocknr + (x / 4096 - w.pos / 4096)) (x % 4096) = w.file.byte data x) :=
            fun hleft => hturn ⟨hown, hleft⟩
          push Not at hleft
          obtain ⟨hsource, x, hlt, hout, hne⟩ := hleft
          exact ⟨x, h.not_left hrest rest hsource hlt hout hne⟩
        · push Not at hown
          obtain ⟨entry, hentry, q, hlo, hhi, hother⟩ := hown
          exact h.not_own hrest hsound hapart rest hentry hlo hhi hother

end

/-! ### The call -/

/-- The copies of a call, turn by turn. -/
def inplaceCopies (g : CopyConfig) (c : WriteCall) (f : FileTree) (ts : List WriteTurn) :
    (WriteLoop × Except Int Unit) × CopyLoop := copyTurns .inplace c g (c.start f) ⟨[], false, false⟩ ts

/-- The call writes all there is to write. -/
structure InplaceCompletes (g : CopyConfig) (c : WriteCall) (f : FileTree) (ts : List WriteTurn) : Prop where
  some : 0 < c.count
  ok : (inplaceCopies g c f ts).1.2 = .ok ()
  done : (inplaceCopies g c f ts).1.1.numBlocks = 0
  fit : CopiesFit .inplace c g (c.start f) ⟨[], false, false⟩ ts

/-- The file reads as the buffer where it was written, as before in the rest of its old size, and as zero between
the old size and the data. -/
def InplaceRight (g : CopyConfig) (c : WriteCall) (f : FileTree) (ts : List WriteTurn) (data : Nat → Nat → UInt8) : Prop :=
  ∀ (user : Nat → UInt8), ∀ x < c.newSize,
    (inplaceCopies g c f ts).1.1.file.byte (applyWrites g user (inplaceCopies g c f ts).2.writes data) x =
      overlay c.pos c.count user (fun x => if x < c.iSize then f.byte data x else 0) x

/-- Between the old size and the data the pages hold zeros. -/
def GapZero (c : WriteCall) (f : FileTree) (data : Nat → Nat → UInt8) : Prop :=
  ∀ x, c.iSize ≤ x → x < c.pos → f.byte data x = 0

section

variable {c : WriteCall} {g : CopyConfig} {f : FileTree} {ts : List WriteTurn} {ws : List NvmmWrite} {w' : WriteLoop}
  {data : Nat → Nat → UInt8} {x : Nat}

theorem InplaceCompletes.run (h : InplaceCompletes g c f ts) (hf : f.Sound) (hapart : f.BlocksApart) :
    InplaceRun g c (c.start f) ⟨[], false, false⟩ ts (inplaceCopies g c f ts).2.writes (inplaceCopies g c f ts).1.1 := by
  have haligned : (c.start f).Aligned := fun _ => ⟨h.some, rfl⟩
  have hok : copyTurns .inplace c g (c.start f) ⟨[], false, false⟩ ts =
      (((inplaceCopies g c f ts).1.1, .ok ()), (inplaceCopies g c f ts).2) := by
    rw [← h.ok]
    rfl
  obtain ⟨ws, hws, hrun⟩ := copyTurns_inplace hf hapart haligned h.fit hok h.done
  rwa [hws]

/-- There is data to tell it by. -/
theorem Spoiled.shows (h : Spoiled g c data (c.start f) ws w' x) :
    x < c.newSize ∧ ∃ user, w'.file.byte (applyWrites g user ws data) x ≠
      overlay c.pos c.count user (fun x => if x < c.iSize then f.byte data x else 0) x := by
  unfold overlay
  cases h with
  | hole hpage hin hslot =>
      refine ⟨by unfold WriteCall.newSize; omega, fun _ => 1, ?_⟩
      unfold FileTree.byte
      rw [hslot, if_pos hin]
      exact (by decide : (0 : UInt8) ≠ 1)
  | elsewhere entry b hpage hin hslot hblock hcopies hapart =>
      obtain ⟨v, hv, hne⟩ : ∃ v : UInt8, v ≠ 0 ∧ v ≠ data b (x % 4096) := by
        by_cases hone : data b (x % 4096) = 1
        · exact ⟨2, by decide, by rw [hone]; decide⟩
        · exact ⟨1, by decide, Ne.symm hone⟩
      refine ⟨by unfold WriteCall.newSize; omega, fun k => if k = x - c.pos then v else 0, ?_⟩
      rw [if_pos hin]
      dsimp only
      rw [if_pos rfl]
      unfold FileTree.byte
      rw [hslot]
      dsimp only
      rw [hblock]
      refine applyWrites_among (P := fun byte => byte ≠ v) (fun u hu hcov data' => ?_) hne.symm
      obtain ⟨k, hk, hvalue⟩ := hcopies u hu hcov
      rw [hvalue, if_neg hk]
      exact hv.symm
  | left entry b hpage hout hlt hold hslot hblock hcopies hapart hne =>
      have hexpected : (if x < c.iSize then f.byte data x else 0) = f.byte data x := by
        by_cases hin : x < c.iSize
        · rw [if_pos hin]
        · rw [if_neg hin]
          exact (hold.resolve_left hin).symm
      obtain ⟨v, hv⟩ : ∃ v : UInt8, v ≠ f.byte data x := by
        by_cases hzero : f.byte data x = 0
        · exact ⟨1, by rw [hzero]; decide⟩
        · exact ⟨0, Ne.symm hzero⟩
      refine ⟨hlt, fun _ => v, ?_⟩
      rw [if_neg hout]
      dsimp only
      rw [hexpected]
      unfold FileTree.byte
      rw [hslot]
      dsimp only
      rw [hblock]
      refine applyWrites_among (P := fun byte => byte ≠ f.byte data x) (fun u hu hcov data' => ?_) hne
      obtain ⟨k, hvalue⟩ := hcopies u hu hcov
      rw [hvalue]
      exact hv

/-- **A write in place** is right if and only if the file's pages hold zeros between its old size and the data,
every turn that goes by an entry has the blocks of its pages, and what a turn leaves out of its new blocks is in
them already. -/
theorem doNovaInplaceFileWrite_right_iff (hf : f.Sound) (hapart : f.BlocksApart) (hc : InplaceCompletes g c f ts) :
    InplaceRight g c f ts data ↔ GapZero c f data ∧ InplaceKept g c data (c.start f) ⟨[], false, false⟩ ts := by
  have hrun := hc.run hf hapart
  have hnum : (c.start f).numBlocks ≠ 0 := Nat.succ_ne_zero _
  have hbyte : InplaceKept g c data (c.start f) ⟨[], false, false⟩ ts → ∀ user, ∀ x < c.newSize,
      (inplaceCopies g c f ts).1.1.file.byte (applyWrites g user (inplaceCopies g c f ts).2.writes data) x =
        overlay c.pos c.count user (f.byte data) x := by
    intro hkept user x hx
    rw [hrun.byte hnum le_rfl (fun _ _ _ _ => rfl) hkept hx]
    show overlay c.pos c.count (fun k => user (c.pos - c.pos + k)) (f.byte data) x = _
    simp
  constructor
  · intro hright
    have hkept : InplaceKept g c data (c.start f) ⟨[], false, false⟩ ts := by
      by_contra hkept
      obtain ⟨x, hspoiled⟩ := hrun.spoiled ⟨le_rfl, rfl, fun _ => rfl⟩ hkept
      obtain ⟨hx, user, hne⟩ := hspoiled.shows
      exact hne (hright user x hx)
    refine ⟨fun x hsize hpos => ?_, hkept⟩
    have hx : x < c.newSize := by
      unfold WriteCall.newSize
      omega
    have hout : ¬(c.pos ≤ x ∧ x < c.pos + c.count) := by omega
    have hzero := (hbyte hkept (fun _ => 0) x hx).symm.trans (hright (fun _ => 0) x hx)
    unfold overlay at hzero
    rw [if_neg hout, if_neg hout] at hzero
    dsimp only at hzero
    rwa [if_neg (by omega)] at hzero
  · rintro ⟨hgap, hkept⟩ user x hx
    rw [hbyte hkept user x hx]
    unfold overlay
    by_cases hin : c.pos ≤ x ∧ x < c.pos + c.count
    · rw [if_pos hin, if_pos hin]
    · rw [if_neg hin, if_neg hin]
      dsimp only
      by_cases hsize : x < c.iSize
      · rw [if_pos hsize]
      · rw [if_neg hsize]
        unfold WriteCall.newSize at hx
        exact hgap x (by omega) (by omega)

end

theorem holeFirst_assigned :
    (∀ q, 1 ≤ q → q < 3 → holeFirst.tree.slot q = some 64 ∧ getNvmm (holeFirst.entries 64) q = 10 + (q - 1)) ∧
      (∀ q, ¬(1 ≤ q ∧ q < 3) → holeFirst.tree.slot q = newFile.file.tree.slot q ∧
        ∀ x, newFile.file.tree.slot q = some x → getNvmm (holeFirst.entries x) q = getNvmm (newFile.file.entries x) q) ∧
      holeFirst.Sound := by
  have hunused : newFile.file.Unused 64 := ⟨fun p hp => (by cases hp), fun o ho => (by cases ho)⟩
  have hfile : holeFirst = (novaAssignWriteEntry [] (newFile.file.store 64 (writeEntry 1 2 10 1)) 64 (writeEntry 1 2 10 1)
    true fun _ => true).1 := rfl
  exact hunused.assigned newFile_start.account.sound hfile

theorem holeFirst_apart : holeFirst.BlocksApart := by
  obtain ⟨hextent, hothers, -⟩ := holeFirst_assigned
  have hfresh : FreshBlocks newFile.file 10 2 := fun p entry hp => by cases hp
  have hempty : newFile.file.BlocksApart := fun p q x y hp => by cases hp
  exact hfresh.apart hempty hextent hothers

/-- No block is needed. -/
def noBlocks : WriteTurn := ⟨⟨0, 0⟩, none, 0, none, .refused, 0⟩

/-- From the hundredth byte of the second page to the middle of the third. -/
def secondPageWrite : WriteCall := ⟨4196, 5000, 1, 1, 2, 12288, []⟩

theorem secondPageWrite_source : (secondPageWrite.start holeFirst).source .inplace secondPageWrite = some 64 := by
  decide +kernel

theorem secondPageWrite_completes : InplaceCompletes plainCopies secondPageWrite holeFirst [noBlocks] where
  some := by decide
  ok := by decide +kernel
  done := by decide +kernel
  fit := ⟨fun _ => ⟨⟨by decide, fun currP h => by simp [noBlocks] at h⟩, fun p entry _ => Or.inr (Nat.zero_le _)⟩, trivial⟩

/-- Over the blocks the file has. -/
theorem doNovaInplaceFileWrite_right_iff_mapped :
    InplaceRight plainCopies secondPageWrite holeFirst [noBlocks] fun _ _ => 1 := by
  refine (doNovaInplaceFileWrite_right_iff holeFirst_assigned.2.2 holeFirst_apart secondPageWrite_completes).mpr
    ⟨fun x hlo hhi => ?_, fun _ => ⟨⟨fun entry hentry q hlo hhi => ?_, fun hnone => ?_⟩, trivial⟩⟩
  · have hsize : (12288 : Nat) ≤ x := hlo
    have hpos : x < 4196 := hhi
    omega
  · obtain rfl := Option.some.inj (secondPageWrite_source.symm.trans hentry)
    have hfirst : 1 ≤ q := hlo
    have hlast : q < 3 := hhi.trans_eq (by decide +kernel)
    exact ⟨64, (holeFirst_assigned.1 q hfirst hlast).1, rfl⟩
  · rw [secondPageWrite_source] at hnone
    cases hnone

/-- From the start, where a page is a hole, to the middle of the second page. -/
def holeWrite : WriteCall := ⟨0, 5000, 1, 1, 2, 12288, []⟩

theorem holeWrite_completes : InplaceCompletes plainCopies holeWrite holeFirst [twoBlocks 20 128] where
  some := by decide
  ok := by decide +kernel
  done := by decide +kernel
  fit := by
    obtain ⟨hextent, hothers, -⟩ := holeFirst_assigned
    have hslot : ∀ p x, holeFirst.tree.slot p = some x → x = 64 ∧ 1 ≤ p ∧ p < 3 := by
      intro p x hp
      rw [holeFirst_slot] at hp
      by_cases hin : 1 ≤ p ∧ p < 3
      · rw [if_pos hin] at hp
        exact ⟨(Option.some.inj hp).symm, hin⟩
      · rw [if_neg hin] at hp
        cases hp
    refine ⟨fun _ => ⟨⟨by decide, fun currP happend => ⟨⟨fun p hp => ?_, fun o ho => (by cases ho)⟩, ?_⟩⟩, fun p x hp => ?_⟩, trivial⟩
    · obtain rfl : currP = 128 := by simpa [twoBlocks, eq_comm] using happend
      exact absurd (hslot p 128 hp).1 (by decide)
    · obtain rfl : currP = 128 := by simpa [twoBlocks, eq_comm] using happend
      decide
    · obtain ⟨rfl, hlo, hhi⟩ := hslot p x hp
      left
      show getNvmm (holeFirst.entries 64) p < 20
      rw [(hextent p hlo hhi).2]
      omega

/-- The rest of the second page is lost. -/
theorem doNovaInplaceFileWrite_loses :
    holeFirst.Sound ∧ holeFirst.BlocksApart ∧ InplaceCompletes plainCopies holeWrite holeFirst [twoBlocks 20 128] ∧
      ¬InplaceRight plainCopies holeWrite holeFirst [twoBlocks 20 128] fun b _ => if b = 10 then 1 else 0 := by
  refine ⟨holeFirst_assigned.2.2, holeFirst_apart, holeWrite_completes, fun hright => ?_⟩
  have hbyte := hright (fun _ => 0) 5000 (by decide)
  revert hbyte
  decide +kernel

end Parfs
