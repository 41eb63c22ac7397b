/-
Bytes of a write by copy.

Every turn puts new blocks under its pages, so it is right about them when their olds are, and
it leaves the other pages as they are.  The head is the first turn's and the tail the last one's:
in between the extents meet where pages do.  Where zeros are missing, the byte that is left
there stays to the end, since no turn after it is given its block, and none before it was.
-/
import Parfs.Proofs.FileCopy
import Parfs.Proofs.FileWrite

namespace Parfs

open Lib

/-! ### Turns over some pages -/

/-- The bytes of the next `n` pages. -/
def spanBytes (w : WriteLoop) (n : Nat) : Nat := min (4096 * n - w.pos % 4096) w.count

/-- A turn goes over the next `n` pages. -/
structure Spanned (w : WriteLoop) (n : Nat) (w' : WriteLoop) : Prop where
  num : w.numBlocks ≠ 0
  pos : 0 < n
  le : n ≤ w.numBlocks
  aligned : w.Aligned
  advanced : Advanced w n w'

section

variable {w w' : WriteLoop} {n x : Nat}

theorem Spanned.pages (h : Spanned w n w') : 0 < spanBytes w n ∧ writeNumBlocks w.pos (spanBytes w n) = n := by
  obtain ⟨hcount, hblocks⟩ := h.aligned h.num
  have hpos := h.pos
  have hle := h.le
  unfold spanBytes
  unfold writeNumBlocks at hblocks ⊢
  omega

theorem Spanned.moves (h : Spanned w n w') : w'.pos = w.pos + spanBytes w n ∧ w'.count = w.count - spanBytes w n :=
  ⟨h.advanced.pos, h.advanced.count⟩

/-- The rest begins where a page does. -/
theorem Spanned.rest (h : Spanned w n w') :
    w'.Aligned ∧ (w'.numBlocks ≠ 0 → w'.pos / 4096 = w.pos / 4096 + n ∧ w'.pos % 4096 = 0) := by
  obtain ⟨haligned, hpage⟩ := h.advanced.aligned h.aligned h.num h.pos h.le
  refine ⟨haligned, fun hnum => ⟨hpage hnum, ?_⟩⟩
  obtain ⟨hcount, hblocks⟩ := h.aligned h.num
  have hpos := h.pos
  have hmoved := h.advanced.pos
  have hnumBlocks := h.advanced.numBlocks
  unfold writeNumBlocks at hblocks
  omega

/-- The last turn takes all that is left. -/
theorem Spanned.last (h : Spanned w n w') (hnum : w'.numBlocks = 0) : spanBytes w n = w.count := by
  obtain ⟨hcount, hblocks⟩ := h.aligned h.num
  have hnumBlocks := h.advanced.numBlocks
  have hle := h.le
  unfold spanBytes
  unfold writeNumBlocks at hblocks
  omega

/-- Only the last turn ends inside a page. -/
theorem Spanned.end_eq (h : Spanned w n w') (hend : (w.pos + spanBytes w n) % 4096 ≠ 0) : spanBytes w n = w.count := by
  by_cases hnum : w'.numBlocks = 0
  · exact h.last hnum
  · have hstart := (h.rest.2 hnum).2
    rw [h.moves.1] at hstart
    exact absurd hstart hend

end

/-! ### One turn -/

/-- The bytes of a turn. -/
def turnBytes (w : WriteLoop) (t : WriteTurn) : Nat := min (4096 * t.alloc.ret.toNat - w.pos % 4096) w.count

/-- Its copies. -/
def cowWrites (g : CopyConfig) (c : WriteCall) (w : WriteLoop) (t : WriteTurn) : List NvmmWrite :=
  turnWrites g w.file w.pos (turnBytes w t) t.alloc.blocknr (w.pos - c.pos) false true

/-- The allocator and the log keep their promise, and the allocator gives blocks that are free. -/
structure WriteTurn.FitsFresh (w : WriteLoop) (t : WriteTurn) : Prop extends t.Fits w where
  fresh : FreshBlocks w.file t.alloc.blocknr t.alloc.ret.toNat

/-- So in every turn. -/
def CopiesFit (mode : WriteMode) (c : WriteCall) (g : CopyConfig) : WriteLoop → CopyLoop → List WriteTurn → Prop
  | _, _, [] => True
  | w, s, t :: ts =>
    (w.numBlocks ≠ 0 → t.FitsFresh w) ∧
      CopiesFit mode c g (writeTurn mode c w (t.copied (w.turnCopies mode c g s t))).1
        (s.after w (w.turnCopies mode c g s t)) ts

/-- What a turn does to the file: the pages of its extent get the new blocks. -/
structure CowTurn (w : WriteLoop) (t : WriteTurn) (w' : WriteLoop) : Prop where
  num : w.numBlocks ≠ 0
  pos : 0 < t.alloc.ret.toNat
  le : t.alloc.ret.toNat ≤ w.numBlocks
  fresh : FreshBlocks w.file t.alloc.blocknr t.alloc.ret.toNat
  extent : ∃ currP, ∀ q, w.pos / 4096 ≤ q → q < w.pos / 4096 + t.alloc.ret.toNat →
    w'.file.tree.slot q = some currP ∧
      getNvmm (w'.file.entries currP) q = t.alloc.blocknr + (q - w.pos / 4096)
  others : ∀ q, ¬ (w.pos / 4096 ≤ q ∧ q < w.pos / 4096 + t.alloc.ret.toNat) →
    w'.file.tree.slot q = w.file.tree.slot q ∧ ∀ x, w.file.tree.slot q = some x →
      getNvmm (w'.file.entries x) q = getNvmm (w.file.entries x) q
  advanced : Advanced w t.alloc.ret.toNat w'
  aligned : w.Aligned
  sound : w'.file.Sound

section

variable {c : WriteCall} {g : CopyConfig} {w w₁ w' : WriteLoop} {t : WriteTurn} {s s' : CopyLoop} {f : FileTree}
  {user : Nat → UInt8} {data : Nat → Nat → UInt8} {ws : List NvmmWrite} {ts : List WriteTurn}

/-- The copies of a turn that goes well. -/
theorem turnCopies_cow (haligned : w.Aligned) (hnum : w.numBlocks ≠ 0)
    (hok : writeTurn .cow c w (t.copied (w.turnCopies .cow c g s t)) = (w', .ok ())) :
    (s.after w (w.turnCopies .cow c g s t)).writes = s.writes ++ cowWrites g c w t := by
  obtain ⟨hcount, -⟩ := haligned hnum
  obtain ⟨w₁, htake, hcopies, herr, -⟩ := writeTurn_copies hok
  unfold WriteLoop.take at htake
  have hsource : w.source .cow c = none := rfl
  simp only [hsource] at htake
  by_cases hret : t.alloc.ret ≤ 0
  · rw [if_pos hret] at htake
    cases htake
  · rw [if_neg hret] at htake
    cases htake
    have hbytes : 0 < turnBytes w t := by
      unfold turnBytes
      omega
    rw [hcopies]
    exact congrArg (s.writes ++ ·) (turnCopies_ok hbytes herr)

/-- An extent that is put into the tree, and the other pages. -/
theorem FileTree.Unused.assigned {f f' : FileTree} {currP : Nat} {e : NovaFileWriteEntry} {snapshots : List Nat}
    (hunused : f.Unused currP) (hsound : f.Sound)
    (hfile : f' = (novaAssignWriteEntry snapshots (f.store currP e) currP e true fun _ => true).1) :
    (∀ q, e.pgoff ≤ q → q < e.pgoff + e.numPages →
        f'.tree.slot q = some currP ∧ getNvmm (f'.entries currP) q = e.blocknr + (q - e.pgoff)) ∧
      (∀ q, ¬(e.pgoff ≤ q ∧ q < e.pgoff + e.numPages) → f'.tree.slot q = f.tree.slot q ∧
        ∀ x, f.tree.slot q = some x → getNvmm (f'.entries x) q = getNvmm (f.entries x) q) ∧ f'.Sound := by
  have hself : (f.store currP e).entries currP = e := FileTree.store_entries_self
  have hstored := hunused.sound (e := e) hsound
  have hspec : Assigned (f.store currP e) currP e f' := by
    rw [hfile]
    exact novaAssignWriteEntry_spec hstored.solid (novaAssignWriteEntry_done ..)
  refine ⟨fun q hlo hhi => ?_, fun q hq => ?_, ?_⟩
  · rw [hspec.slots, if_pos ⟨hlo, hhi⟩, hspec.extents.getNvmm, hself]
    exact ⟨rfl, rfl⟩
  · rw [hspec.slots, if_neg hq]
    refine ⟨rfl, fun x hx => ?_⟩
    have hne : x ≠ currP := fun hxc => hunused.mapped q (hxc ▸ hx)
    rw [hspec.extents.getNvmm, FileTree.store_entries hne]
  · refine Assigned.sound ?_ hstored hunused.mapped
    rw [hself]
    exact hspec

theorem cowTurn_of_ok (hsound : w.file.Sound) (haligned : w.Aligned) (hnum : w.numBlocks ≠ 0) (hfit : t.FitsFresh w)
    {k : Option Copies} (hok : writeTurn .cow c w (t.copied k) = (w', .ok ())) : CowTurn w t w' := by
  cases writeTurn_ok hok with
  | inplace entry e hsource => cases hsource
  | append currP hsource hret happend hfile hadv =>
      have halloc := hfit.alloc
      have hret : 0 < t.alloc.ret := hret
      obtain ⟨hextent, hothers, hsound'⟩ := (hfit.unused currP (Or.inr happend)).1.assigned hsound hfile
      exact
        { num := hnum
          pos := by omega
          le := by omega
          fresh := hfit.fresh
          extent := ⟨currP, hextent⟩
          others := hothers
          advanced := hadv
          aligned := haligned
          sound := hsound' }

theorem CowTurn.spanned (h : CowTurn w t w') : Spanned w t.alloc.ret.toNat w' := ⟨h.num, h.pos, h.le, h.aligned, h.advanced⟩

/-- The pages of its bytes are those of its extent. -/
theorem CowTurn.pages (h : CowTurn w t w') : 0 < turnBytes w t ∧ writeNumBlocks w.pos (turnBytes w t) = t.alloc.ret.toNat :=
  h.spanned.pages

/-- After it the rest begins where a page does. -/
theorem CowTurn.rest (h : CowTurn w t w') :
    w'.Aligned ∧ (w'.numBlocks ≠ 0 → w'.pos / 4096 = w.pos / 4096 + t.alloc.ret.toNat ∧ w'.pos % 4096 = 0) :=
  h.spanned.rest

theorem CowTurn.moves (h : CowTurn w t w') : w'.pos = w.pos + turnBytes w t ∧ w'.count = w.count - turnBytes w t :=
  h.spanned.moves

/-- The last turn takes all that is left. -/
theorem CowTurn.last (h : CowTurn w t w') (hnum : w'.numBlocks = 0) : turnBytes w t = w.count := h.spanned.last hnum

/-- A copy of the turn leaves every block that is mapped. -/
theorem CowTurn.keeps (h : CowTurn w t w') {q x o : Nat} (hq : w.file.tree.slot q = some x) (ho : o < 4096) :
    ∀ v ∈ cowWrites g c w t, ¬ v.Covers g (getNvmm (w.file.entries x) q) o := by
  intro v hv hcov
  obtain ⟨hbytes, hpages⟩ := h.pages
  have hin := (CopyOf.mem hbytes hv hcov).within hbytes hcov ho
  rw [hpages] at hin
  rcases h.fresh q x hq with hlt | hge <;> omega

/-- **The bytes after a turn.** -/
theorem CowTurn.byte (h : CowTurn w t w') (hold : OldsWhole g w.file w.pos (turnBytes w t) true) (x : Nat) :
    w'.file.byte (applyWrites g user (cowWrites g c w t) data) x =
      overlay w.pos (turnBytes w t) (fun k => user (w.pos - c.pos + k)) (w.file.byte data) x := by
  obtain ⟨hbytes, hpages⟩ := h.pages
  have hsplit : 4096 * (x / 4096) + x % 4096 = x := by omega
  have hmod : x % 4096 < 4096 := by omega
  by_cases hx : w.pos / 4096 ≤ x / 4096 ∧ x / 4096 < w.pos / 4096 + t.alloc.ret.toNat
  · obtain ⟨currP, hextent⟩ := h.extent
    obtain ⟨hslot, hblock⟩ := hextent (x / 4096) hx.1 hx.2
    have hbyte : applyWrites g user (cowWrites g c w t) data (t.alloc.blocknr + (x / 4096 - w.pos / 4096)) (x % 4096) =
        overlay w.pos (turnBytes w t) (fun k => user (w.pos - c.pos + k)) (w.file.byte data)
          (4096 * (w.pos / 4096 + (x / 4096 - w.pos / 4096)) + x % 4096) :=
      hold.byte hbytes (by rw [hpages]; exact h.fresh) (by omega) hmod
    rw [show 4096 * (w.pos / 4096 + (x / 4096 - w.pos / 4096)) + x % 4096 = x by omega] at hbyte
    unfold FileTree.byte
    rw [hslot]
    dsimp only
    rw [hblock]
    exact hbyte
  · have hout : ¬ (w.pos ≤ x ∧ x < w.pos + turnBytes w t) := by
      unfold writeNumBlocks at hpages
      omega
    obtain ⟨hslot, hblock⟩ := h.others (x / 4096) hx
    unfold overlay
    rw [if_neg hout]
    unfold FileTree.byte
    rw [hslot]
    cases hq : w.file.tree.slot (x / 4096) with
    | none => rfl
    | some entry =>
        dsimp only
        rw [hblock entry hq]
        exact applyWrites_keep (h.keeps hq hmod)

/-! ### All turns -/

/-- Turns that write all there is to write, with their copies. -/
inductive CowRun (g : CopyConfig) (c : WriteCall) : WriteLoop → List NvmmWrite → WriteLoop → Prop
  | done (w : WriteLoop) (h : w.numBlocks = 0) : CowRun g c w [] w
  | turn (w w₁ w' : WriteLoop) (t : WriteTurn) (ws : List NvmmWrite) (h : CowTurn w t w₁) (rest : CowRun g c w₁ ws w') :
      CowRun g c w (cowWrites g c w t ++ ws) w'

theorem copyTurns_cow (hsound : w.file.Sound) (haligned : w.Aligned) (hfit : CopiesFit .cow c g w s ts)
    (hok : copyTurns .cow c g w s ts = ((w', .ok ()), s')) (hdone : w'.numBlocks = 0) :
    ∃ ws, s'.writes = s.writes ++ ws ∧ CowRun g c w ws w' := by
  induction ts generalizing w s with
  | nil =>
      cases hok
      exact ⟨[], (List.append_nil _).symm, .done _ hdone⟩
  | cons t ts ih =>
      unfold copyTurns at hok
      by_cases hnum : w.numBlocks = 0
      · rw [if_pos hnum] at hok
        cases hok
        exact ⟨[], (List.append_nil _).symm, .done _ hdone⟩
      · rw [if_neg hnum] at hok
        obtain ⟨hturn, hrest⟩ := hfit
        dsimp only at hok
        split at hok
        · cases hok
        · rename_i w₁ hok₁
          rw [hok₁] at hrest
          have hstep := cowTurn_of_ok hsound haligned hnum (hturn hnum) hok₁
          obtain ⟨ws, hwrites, hrun⟩ := ih hstep.sound hstep.rest.1 hrest hok
          rw [turnCopies_cow haligned hnum hok₁, List.append_assoc] at hwrites
          exact ⟨_, hwrites, .turn w w₁ w' t ws hstep hrun⟩

/-! ### Where the olds are whole -/

/-- Bytes written over others in two goes. -/
theorem overlay_overlay (pos n m : Nat) (buf byte : Nat → UInt8) (x : Nat) :
    overlay (pos + n) m (fun k => buf (n + k)) (overlay pos n buf byte) x = overlay pos (n + m) buf byte x := by
  unfold overlay
  by_cases hfirst : pos ≤ x ∧ x < pos + n
  · rw [if_neg (by omega), if_pos hfirst, if_pos (by omega)]
  · by_cases hsecond : pos + n ≤ x ∧ x < pos + n + m
    · rw [if_pos hsecond, if_pos (by omega)]
      dsimp only
      congr 1
      omega
    · rw [if_neg hsecond, if_neg hfirst, if_neg (by omega)]

/-- The olds of the write are those of the turn and of the rest. -/
theorem CowTurn.oldsWhole_iff (h : CowTurn w t w') : OldsWhole g w.file w.pos w.count true ↔
    OldsWhole g w.file w.pos (turnBytes w t) true ∧ (w'.numBlocks ≠ 0 → OldsWhole g w'.file w'.pos w'.count true) := by
  obtain ⟨hpos, hcount⟩ := h.moves
  by_cases hnum : w'.numBlocks = 0
  · rw [h.last hnum]
    exact ⟨fun hold => ⟨hold, fun hne => absurd hnum hne⟩, And.left⟩
  · obtain ⟨hpage, hstart⟩ := h.rest.2 hnum
    obtain ⟨hleft, -⟩ := h.rest.1 hnum
    have hend : w'.pos + w'.count = w.pos + w.count := by omega
    have htail : ∀ len, ZerosWhole g w'.file ((w.pos + w.count) / 4096) len true ↔
        ZerosWhole g w.file ((w.pos + w.count) / 4096) len true := by
      intro len
      unfold ZerosWhole
      rw [(h.others ((w.pos + w.count) / 4096) (by omega)).1]
    constructor
    · intro hold
      refine ⟨⟨hold.head, fun hne => absurd hstart (by rw [hpos]; exact hne)⟩, fun _ => ⟨fun hne => absurd hstart hne, ?_⟩⟩
      rw [hend]
      exact fun hne => (htail _).mpr (hold.tail hne)
    · rintro ⟨hturn, hrest⟩
      refine ⟨hturn.head, fun hne => (htail _).mp ?_⟩
      rw [← hend] at hne ⊢
      exact (hrest hnum).tail hne

theorem CowRun.done_eq (h : CowRun g c w ws w') (hnum : w.numBlocks = 0) : ws = [] ∧ w' = w := by
  cases h with
  | done h => exact ⟨rfl, rfl⟩
  | turn _ w₁ _ t ws h rest => exact absurd hnum h.num

/-- **The bytes after the write.** -/
theorem CowRun.byte (h : CowRun g c w ws w') (hnum : w.numBlocks ≠ 0) (hpos : c.pos ≤ w.pos)
    (hold : OldsWhole g w.file w.pos w.count true) (x : Nat) :
    w'.file.byte (applyWrites g user ws data) x =
      overlay w.pos w.count (fun k => user (w.pos - c.pos + k)) (w.file.byte data) x := by
  induction h generalizing data with
  | done w h => exact absurd h hnum
  | turn w w₁ w' t ws h rest ih =>
      obtain ⟨hturn, hrest⟩ := h.oldsWhole_iff.mp hold
      obtain ⟨hmoved, hcount⟩ := h.moves
      rw [applyWrites_append]
      by_cases hnum₁ : w₁.numBlocks = 0
      · obtain ⟨rfl, rfl⟩ := rest.done_eq hnum₁
        rw [← h.last hnum₁]
        exact h.byte hturn x
      · have hleft := (h.rest.1 hnum₁).1
        have hbyte : w₁.file.byte (applyWrites g user (cowWrites g c w t) data) =
            overlay w.pos (turnBytes w t) (fun k => user (w.pos - c.pos + k)) (w.file.byte data) :=
          funext (h.byte hturn)
        have hbuf : (fun k => user (w₁.pos - c.pos + k)) =
            fun k => user (w.pos - c.pos + (turnBytes w t + k)) := by
          funext k
          congr 1
          omega
        have hsum : w.count = turnBytes w t + w₁.count := by omega
        rw [ih hnum₁ (by omega) (hrest hnum₁), hbyte, hbuf, hmoved, hsum]
        exact overlay_overlay w.pos (turnBytes w t) w₁.count (fun k => user (w.pos - c.pos + k)) _ x

/-! ### Where they are not -/

/-- A page that is done keeps its block, and the block what is in it. -/
theorem CowRun.behind (h : CowRun g c w ws w') {q entry : Nat} (hq : w.file.tree.slot q = some entry)
    (hbehind : w.numBlocks ≠ 0 → q < w.pos / 4096) :
    w'.file.tree.slot q = some entry ∧
      getNvmm (w'.file.entries entry) q = getNvmm (w.file.entries entry) q ∧
      ∀ o < 4096, ∀ v ∈ ws, ¬ v.Covers g (getNvmm (w.file.entries entry) q) o := by
  induction h with
  | done w h => exact ⟨hq, rfl, fun _ _ => nofun⟩
  | turn w w₁ w' t ws h rest ih =>
      have hlt := hbehind h.num
      obtain ⟨hslot, hblock⟩ := h.others q (by omega)
      have hblock := hblock entry hq
      obtain ⟨hslot', hblock', hkept⟩ := ih (hslot.trans hq) fun hnum₁ => by
        have := (h.rest.2 hnum₁).1
        omega
      rw [hblock] at hblock' hkept
      refine ⟨hslot', hblock', fun o ho v hv => ?_⟩
      rcases List.mem_append.mp hv with hv | hv
      · exact h.keeps hq ho v hv
      · exact hkept o ho v hv

/-- A byte that the write should have made zero and never stored to, in block `b`. -/
structure Stale (g : CopyConfig) (w : WriteLoop) (ws : List NvmmWrite) (w' : WriteLoop) (x b : Nat) : Prop where
  hole : w.file.tree.slot (x / 4096) = none
  page : w.pos / 4096 ≤ x / 4096 ∧ x / 4096 ≤ (w.pos + w.count - 1) / 4096
  outside : ¬ (w.pos ≤ x ∧ x < w.pos + w.count)
  maps : ∃ entry, w'.file.tree.slot (x / 4096) = some entry ∧ getNvmm (w'.file.entries entry) (x / 4096) = b
  kept : ∀ v ∈ ws, ¬ v.Covers g b (x % 4096)
  apart : ∀ q entry, q < w.pos / 4096 → w.file.tree.slot q = some entry → getNvmm (w.file.entries entry) q ≠ b

/-- Where the olds of a turn are not whole, there is one. -/
theorem CowTurn.stale (h : CowTurn w t w₁) (rest : CowRun g c w₁ ws w')
    (hold : ¬ OldsWhole g w.file w.pos (turnBytes w t) true) : ∃ x b, Stale g w (cowWrites g c w t ++ ws) w' x b := by
  obtain ⟨hbytes, hpages⟩ := h.pages
  obtain ⟨j, o, hj, ho, hhole, hout, hkept⟩ := oldsWhole_not hbytes hold
  obtain ⟨x, hx⟩ : ∃ x, x = 4096 * (w.pos / 4096 + j) + o := ⟨_, rfl⟩
  have hdiv : x / 4096 = w.pos / 4096 + j := by omega
  have hmod : x % 4096 = o := by omega
  obtain ⟨currP, hextent⟩ := h.extent
  obtain ⟨hslot, hblock⟩ := hextent (w.pos / 4096 + j) (by omega) (by omega)
  obtain ⟨hslot', hblock', hlater⟩ := rest.behind hslot fun hnum₁ => by
    have := (h.rest.2 hnum₁).1
    omega
  have hblocknr : getNvmm (w₁.file.entries currP) (w.pos / 4096 + j) = t.alloc.blocknr + j := by omega
  rw [hblocknr] at hblock' hlater
  have hlast : turnBytes w t ≤ w.count := Nat.min_le_right ..
  have hend : (w.pos + turnBytes w t) % 4096 = 0 ∨ turnBytes w t = w.count := by
    by_cases hnum₁ : w₁.numBlocks = 0
    · exact Or.inr (h.last hnum₁)
    · left
      rw [← h.moves.1]
      exact (h.rest.2 hnum₁).2
  refine ⟨x, t.alloc.blocknr + j,
    { hole := by rw [hdiv]; exact hhole
      page := ?_
      outside := ?_
      maps := ⟨currP, by rw [hdiv]; exact hslot', by rw [hdiv]; exact hblock'⟩
      kept := ?_
      apart := ?_ }⟩
  · unfold writeNumBlocks at hj
    omega
  · unfold writeNumBlocks at hj
    omega
  · rw [hmod]
    intro v hv
    rcases List.mem_append.mp hv with hv | hv
    · exact hkept _ _ v hv
    · exact hlater o ho v hv
  · intro q entry hq hslotq
    rcases h.fresh q entry hslotq with hlt | hge <;> omega

/-- One of the rest is one of the write. -/
theorem CowTurn.stale_rest (h : CowTurn w t w₁) (hnum : w₁.numBlocks ≠ 0) {x b : Nat} (hstale : Stale g w₁ ws w' x b) :
    Stale g w (cowWrites g c w t ++ ws) w' x b := by
  obtain ⟨hpage, hstart⟩ := h.rest.2 hnum
  obtain ⟨hleft, -⟩ := h.rest.1 hnum
  obtain ⟨hmoved, hcount⟩ := h.moves
  obtain ⟨hbytes, hpages⟩ := h.pages
  obtain ⟨hlo, hhi⟩ := hstale.page
  have hout := hstale.outside
  have hothers := h.others (x / 4096) (by omega)
  refine
    { hole := hothers.1.symm.trans hstale.hole
      page := by omega
      outside := by omega
      maps := hstale.maps
      kept := ?_
      apart := ?_ }
  · intro v hv
    rcases List.mem_append.mp hv with hv | hv
    · -- the turn's copies are to the blocks it puts under its pages
      intro hcov
      have hin := (CopyOf.mem hbytes hv hcov).within hbytes hcov (Nat.mod_lt _ (by decide))
      rw [hpages] at hin
      obtain ⟨currP, hextent⟩ := h.extent
      obtain ⟨hslot, hblock⟩ := hextent (w.pos / 4096 + (b - t.alloc.blocknr)) (by omega) (by omega)
      exact hstale.apart _ currP (by omega) hslot (by omega)
    · exact hstale.kept v hv
  · intro q entry hq hslot
    obtain ⟨hsame, hblock⟩ := h.others q (by omega)
    rw [← hblock entry hslot]
    exact hstale.apart q entry (by omega) (hsame.trans hslot)

theorem CowRun.stale (h : CowRun g c w ws w') (hnum : w.numBlocks ≠ 0)
    (hold : ¬ OldsWhole g w.file w.pos w.count true) : ∃ x b, Stale g w ws w' x b := by
  induction h with
  | done w h => exact absurd h hnum
  | turn w w₁ w' t ws h rest ih =>
      by_cases hturn : OldsWhole g w.file w.pos (turnBytes w t) true
      · obtain ⟨hnum₁, hrest⟩ : w₁.numBlocks ≠ 0 ∧ ¬ OldsWhole g w₁.file w₁.pos w₁.count true := by
          by_contra hall
          exact hold (h.oldsWhole_iff.mpr ⟨hturn, fun hnum₁ => by_contra fun hrest => hall ⟨hnum₁, hrest⟩⟩)
        obtain ⟨x, b, hstale⟩ := ih hnum₁ hrest
        exact ⟨x, b, h.stale_rest hnum₁ hstale⟩
      · exact h.stale rest hturn

/-- It holds what the block held. -/
theorem Stale.byte {x b : Nat} (h : Stale g w ws w' x b) : w'.file.byte (applyWrites g user ws data) x = data b (x % 4096) := by
  obtain ⟨entry, hslot, hblock⟩ := h.maps
  unfold FileTree.byte
  rw [hslot]
  dsimp only
  rw [hblock]
  exact applyWrites_keep h.kept

end

/-! ### The call -/

/-- The copies of a call, turn by turn. -/
def cowCopies (g : CopyConfig) (c : WriteCall) (f : FileTree) (ts : List WriteTurn) :
    (WriteLoop × Except Int Unit) × CopyLoop := copyTurns .cow c g (c.start f) ⟨[], false, false⟩ ts

/-- The call writes all there is to write. -/
structure CowCompletes (g : CopyConfig) (c : WriteCall) (f : FileTree) (ts : List WriteTurn) : Prop where
  some : 0 < c.count
  ok : (cowCopies g c f ts).1.2 = .ok ()
  done : (cowCopies g c f ts).1.1.numBlocks = 0
  fit : CopiesFit .cow c g (c.start f) ⟨[], false, false⟩ ts

/-- Whatever the blocks held, the pages of the write hold the user's data, and around it what the
file held there. -/
def CowRight (g : CopyConfig) (c : WriteCall) (f : FileTree) (ts : List WriteTurn) : Prop :=
  ∀ (user : Nat → UInt8) (data : Nat → Nat → UInt8) (x : Nat), c.pos / 4096 ≤ x / 4096 →
    x / 4096 ≤ (c.pos + c.count - 1) / 4096 →
    (cowCopies g c f ts).1.1.file.byte (applyWrites g user (cowCopies g c f ts).2.writes data) x =
      overlay c.pos c.count user (f.byte data) x

section

variable {c : WriteCall} {g : CopyConfig} {f : FileTree} {ts : List WriteTurn}

theorem CowCompletes.run (h : CowCompletes g c f ts) (hf : f.Sound) :
    CowRun g c (c.start f) (cowCopies g c f ts).2.writes (cowCopies g c f ts).1.1 := by
  have haligned : (c.start f).Aligned := fun _ => ⟨h.some, rfl⟩
  have hok : copyTurns .cow c g (c.start f) ⟨[], false, false⟩ ts =
      (((cowCopies g c f ts).1.1, .ok ()), (cowCopies g c f ts).2) := by
    rw [← h.ok]
    rfl
  obtain ⟨ws, hws, hrun⟩ := copyTurns_cow hf haligned h.fit hok h.done
  rwa [hws]

/-- **A write by copy** is right about its pages if and only if the zeros before the data and
behind it come in fours, where they go to pages that were not mapped. -/
theorem doNovaCowFileWrite_right_iff (hf : f.Sound) (hc : CowCompletes g c f ts) :
    CowRight g c f ts ↔ OldsWhole g f c.pos c.count true := by
  have hrun := hc.run hf
  have hnum : (c.start f).numBlocks ≠ 0 := Nat.succ_ne_zero _
  constructor
  · intro hright
    by_contra hold
    obtain ⟨x, b, hstale⟩ := hrun.stale hnum hold
    have hbyte := hright (fun _ => 0) (fun _ _ => 1) x hstale.page.1 hstale.page.2
    have hout : ¬ (c.pos ≤ x ∧ x < c.pos + c.count) := hstale.outside
    rw [hstale.byte, overlay, if_neg hout] at hbyte
    unfold FileTree.byte at hbyte
    rw [show f.tree.slot (x / 4096) = none from hstale.hole] at hbyte
    change (1 : UInt8) = 0 at hbyte
    exact absurd hbyte (by decide)
  · intro hold user data x hlo hhi
    rw [hrun.byte hnum le_rfl hold x]
    show overlay c.pos c.count (fun k => user (c.pos - c.pos + k)) (f.byte data) x = _
    simp

end

/-- Two blocks at once. -/
def twoBlocks (blocknr currP : Nat) : WriteTurn := ⟨⟨2, blocknr⟩, none, 0, none, .appended currP, 0⟩

/-- Nothing is delegated and the data is in one piece. -/
def plainCopies : CopyConfig := ⟨65536, false, false, fun _ => true⟩

/-- A write to a file of no pages, of one turn. -/
theorem newFile_completes {c : WriteCall} {t : WriteTurn} (hcount : 0 < c.count) (happend : t.append = .appended 64)
    (halloc : t.alloc.ret ≤ writeNumBlocks c.pos c.count) (hok : (cowCopies plainCopies c newFile.file [t]).1.2 = .ok ())
    (hdone : (cowCopies plainCopies c newFile.file [t]).1.1.numBlocks = 0) :
    CowCompletes plainCopies c newFile.file [t] where
  some := hcount
  ok := hok
  done := hdone
  fit := by
    refine ⟨fun _ => ⟨⟨halloc, fun currP hcurr => ?_⟩, nofun⟩, trivial⟩
    obtain rfl : currP = 64 := by
      rw [happend] at hcurr
      simpa [eq_comm] using hcurr
    exact ⟨⟨nofun, nofun⟩, by decide⟩

/-- From the hundredth byte of the first page to the middle of the second. -/
theorem doNovaCowFileWrite_right_iff_twoPages :
    CowRight plainCopies ⟨100, 5000, 1, 1, 2, 0, []⟩ newFile.file [twoBlocks 20 64] :=
  (doNovaCowFileWrite_right_iff newFile_start.account.sound
    (newFile_completes (by decide) rfl (by decide) (by decide +kernel) (by decide +kernel))).mpr
    ⟨fun _ _ => Or.inl (by decide), fun _ _ => Or.inl (by decide)⟩

/-- All but the last byte of the first page: the last one is what the block held. -/
theorem doNovaCowFileWrite_wrong :
    CowCompletes plainCopies ⟨0, 4095, 1, 1, 2, 0, []⟩ newFile.file [oneBlock 20 64] ∧
      ¬ CowRight plainCopies ⟨0, 4095, 1, 1, 2, 0, []⟩ newFile.file [oneBlock 20 64] := by
  refine ⟨newFile_completes (by decide) rfl (by decide) (by decide +kernel) (by decide +kernel), fun hright => ?_⟩
  have hbyte := hright (fun _ => 0) (fun _ _ => 1) 4095 (by decide) (by decide)
  revert hbyte
  decide +kernel

end Parfs
