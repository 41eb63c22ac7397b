/-
What a read brings.

Between turns the place in the file and the place in the buffer go together, until a hole has
been filled to the end of its page: then `offset` stands at the end of that page and `index` at
the next one, a page too far.  So a read is right as long as the pages before its last one are
mapped, and a file has only right reads when no page before its last one is a hole.
-/
import Parfs.FileRead
import Parfs.Proofs.Rebuild
import Parfs.Proofs.FileRun

namespace Parfs

open Lib

/-- The state a file is in, as far as reads go by it. -/
structure FileTree.Readable (f : FileTree) : Prop where
  covers : ∀ q x, f.tree.slot q = some x → (f.entries x).pgoff ≤ q ∧ q < (f.entries x).pgoff + (f.entries x).numPages
  whole : ∀ q x, f.tree.slot q = some x → (f.entries x).reassigned = 0 →
    ∀ p, (f.entries x).pgoff ≤ p → p < (f.entries x).pgoff + (f.entries x).numPages → f.tree.slot p = some x

/-- No two pages share a block. -/
def FileTree.BlocksApart (f : FileTree) : Prop :=
  ∀ p q x y, f.tree.slot p = some x → f.tree.slot q = some y →
    getNvmm (f.entries x) p = getNvmm (f.entries y) q → p = q

/-- Nothing goes wrong on the way. -/
structure ReadCall.Succeeds (c : ReadCall) : Prop where
  access : c.accessOk = true
  entries : ∀ x, c.entryCopy x = true
  left : ∀ i, c.left i = 0

/-- How much there is to read. -/
def ReadCall.count (c : ReadCall) : Nat := min c.len (c.isize - c.pos)

/-- The read comes to an end, and what it brings are the bytes of the file and nothing else. -/
def ReadsRight (f : FileTree) (data : Nat → Nat → UInt8) (c : ReadCall) : Prop :=
  ∃ r, doDaxMappingRead f c = .ok r ∧ r.copied = c.count ∧ r.ret = c.count ∧
    ∀ k, userByte data r.transfers k = if k < c.count then some (f.byte data (c.pos + k)) else none

/-- Of the pages that are read only the last one may be a hole. -/
def ReadCall.NoGap (f : FileTree) (c : ReadCall) : Prop :=
  ∀ p, c.pos / 4096 ≤ p → 4096 * (p + 1) < c.pos + c.count → f.tree.slot p ≠ none

section

variable {f : FileTree} {data : Nat → Nat → UInt8} {c : ReadCall} {w w' : ReadLoop} {e : NovaFileWriteEntry}
  {num nr len fuel : Nat} {src : Option (Nat × Nat)} {ts : List Transfer}

theorem userByte_concat (t : Transfer) (k : Nat) : userByte data (ts ++ [t]) k =
    if t.buf ≤ k ∧ k < t.buf + (t.num - t.left) then some (t.byte data (k - t.buf)) else userByte data ts k := by
  unfold userByte
  rw [List.foldl_append]
  rfl

theorem ReadLoop.leaves_zero (h : c.Succeeds) : w.leaves c num = 0 := by
  unfold ReadLoop.leaves
  rw [h.left]
  exact Nat.zero_min num

/-! ### Transfers -/

/-- The first `n` bytes of the buffer are those of the file, and the others are untouched. -/
def Filled (f : FileTree) (data : Nat → Nat → UInt8) (pos n : Nat) (ts : List Transfer) : Prop :=
  ∀ k, userByte data ts k = if k < n then some (f.byte data (pos + k)) else none

/-- A transfer from the right place. -/
theorem Filled.transfer (h : Filled f data c.pos w.copied w.transfers) (hc : c.Succeeds)
    (hsrc : ∀ j < num, Transfer.byte ⟨w.copied, src, num, 0⟩ data j = f.byte data (c.pos + w.copied + j)) :
    Filled f data c.pos (w.copied + num) (w.transfer c src num).transfers := by
  intro k
  unfold ReadLoop.transfer
  dsimp only
  rw [userByte_concat, hc.left, Nat.zero_min, Nat.sub_zero]
  dsimp only
  by_cases hin : w.copied ≤ k ∧ k < w.copied + num
  · rw [if_pos hin, if_pos hin.2, hsrc _ (by omega), Nat.add_assoc, Nat.add_sub_cancel' hin.1]
  · rw [if_neg hin, h k]
    by_cases hk : k < w.copied
    · rw [if_pos hk, if_pos (by omega)]
    · rw [if_neg hk, if_neg (by omega)]

/-- The place in the file and the place in the buffer go together. -/
structure InStep (f : FileTree) (data : Nat → Nat → UInt8) (c : ReadCall) (w : ReadLoop) : Prop where
  place : 4096 * w.index + w.offset = c.pos + w.copied
  offset : w.offset < 4096
  filled : Filled f data c.pos w.copied w.transfers

theorem InStep.start (f : FileTree) (data : Nat → Nat → UInt8) (c : ReadCall) :
    InStep f data c ⟨c.pos / 4096, c.pos % 4096, 0, []⟩ where
  place := by
    show 4096 * (c.pos / 4096) + c.pos % 4096 = c.pos + 0
    omega
  offset := Nat.mod_lt _ (by decide)
  filled := fun k => by rw [if_neg (Nat.not_lt_zero k)]; rfl

/-- The byte at a place in the page. -/
theorem FileTree.byte_page (f : FileTree) (data : Nat → Nat → UInt8) (index : Nat) {offset : Nat} (h : offset < 4096) :
    f.byte data (4096 * index + offset) =
      match f.tree.slot index with
      | some entry => data (getNvmm (f.entries entry) index) offset
      | none => 0 := by
  unfold FileTree.byte
  have hdiv : (4096 * index + offset) / 4096 = index := by omega
  have hmod : (4096 * index + offset) % 4096 = offset := by omega
  cases hslot : f.tree.slot index with
  | none => rw [hdiv, hslot]
  | some entry => rw [hdiv, hmod, hslot]

/-- A transfer from the page, as far as the page goes. -/
theorem InStep.fill (h : InStep f data c w) (hc : c.Succeeds) (hnum : w.offset + num ≤ 4096)
    (hsrc : src = (f.tree.slot w.index).map fun x => (getNvmm (f.entries x) w.index, w.offset)) :
    Filled f data c.pos (w.copied + num) (w.transfer c src num).transfers := by
  refine h.filled.transfer hc fun j hj => ?_
  rw [← h.place, Nat.add_assoc, FileTree.byte_page f data _ (by omega), hsrc]
  cases f.tree.slot w.index <;> rfl

/-! ### A turn -/

/-- Blocks of an entry that the pages from here on are mapped to. -/
theorem InStep.wholeBlocks {entry : Nat} (hc : c.Succeeds) (h : InStep f data c w)
    (hmapped : ∀ q, w.index ≤ q → 4096 * q < 4096 * w.index + w.offset + nr → f.tree.slot q = some entry)
    (hfuel : fuel = (nr + w.offset) / 4096) :
    ∃ w' nr', w.wholeBlocks c (f.entries entry) fuel nr = ((w', none), nr') ∧ InStep f data c w' ∧
      nr' + w'.offset < 4096 ∧ w'.copied + nr' = w.copied + nr ∧ w'.index = w.index + fuel ∧
      (nr' ≠ 0 → f.tree.slot w'.index = some entry) ∧ (nr + w.offset) % 4096 = (nr' + w'.offset) % 4096 := by
  induction fuel generalizing w nr with
  | zero =>
      refine ⟨w, nr, rfl, h, by omega, rfl, rfl, fun hnr => hmapped w.index le_rfl (by omega), rfl⟩
  | succ fuel ih =>
      have hge : nr + w.offset ≥ 4096 := by omega
      have hoff := h.offset
      have hslot := hmapped w.index le_rfl (by omega)
      have hfill : Filled f data c.pos (w.copied + (4096 - w.offset))
          (w.transfer c (some (getNvmm (f.entries entry) w.index, w.offset)) (4096 - w.offset)).transfers :=
        h.fill hc (by omega) (by rw [hslot]; rfl)
      have hpage : w.offset + (4096 - w.offset) = 4096 := by omega
      have hplace := h.place
      obtain ⟨w₁, hw₁⟩ : ∃ w₁ : ReadLoop, w₁ = ⟨w.index + 4096 / 4096, 4096 % 4096, w.copied + (4096 - w.offset),
          (w.transfer c (some (getNvmm (f.entries entry) w.index, w.offset)) (4096 - w.offset)).transfers⟩ := ⟨_, rfl⟩
      have hindex₁ : w₁.index = w.index + 1 := by rw [hw₁]
      have hoff₁ : w₁.offset = 0 := by rw [hw₁]
      have hcopied₁ : w₁.copied = w.copied + (4096 - w.offset) := by rw [hw₁]
      have hnext : InStep f data c w₁ := by
        refine ⟨by omega, by omega, ?_⟩
        rw [hcopied₁, hw₁]
        exact hfill
      obtain ⟨w', nr', heq, hin, hlt, hsum, hindex, hslot', hmod⟩ := ih hnext
        (fun q hlo hhi => hmapped q (by omega) (by omega))
        (show fuel = (nr - (4096 - w.offset) + w₁.offset) / 4096 by omega)
      refine ⟨w', nr', ?_, hin, hlt, by omega, by omega, hslot', by omega⟩
      unfold ReadLoop.wholeBlocks
      rw [if_pos hge]
      dsimp only
      rw [ReadLoop.leaves_zero hc, if_neg (by simp), ← heq, hw₁]
      unfold ReadLoop.transfer
      dsimp only
      rw [hpage]

/-- What a turn leaves, while there is more to read. -/
structure Turned (f : FileTree) (data : Nat → Nat → UInt8) (c : ReadCall) (len : Nat) (w w' : ReadLoop) : Prop where
  filled : Filled f data c.pos w'.copied w'.transfers
  le : w'.copied ≤ len
  more : w'.copied < len → InStep f data c w' ∧ w.index < w'.index

theorem InStep.tailBlock {entry : Nat} (hc : c.Succeeds) (h : InStep f data c w)
    (hslot : f.tree.slot w.index = some entry) (hfit : nr + w.offset < 4096) :
    ∃ w', w.tailBlock c (f.entries entry) nr = (w', none) ∧ w'.copied = w.copied + nr ∧
      Filled f data c.pos w'.copied w'.transfers := by
  have hfill : Filled f data c.pos (w.copied + nr)
      (w.transfer c (some (getNvmm (f.entries entry) w.index, w.offset)) nr).transfers :=
    h.fill hc (by omega) (by rw [hslot]; rfl)
  unfold ReadLoop.tailBlock
  dsimp only
  rw [ReadLoop.leaves_zero hc, if_neg (by simp), Nat.sub_zero]
  exact ⟨_, rfl, rfl, hfill⟩

/-- The pages of an entry. -/
theorem InStep.extent {entry : Nat} (hf : f.Readable) (hc : c.Succeeds) (h : InStep f data c w)
    (hslot : f.tree.slot w.index = some entry) (hlen : w.copied < len) :
    ∃ w', w.extent c len (f.entries entry) = (w', none) ∧ Turned f data c len w w' := by
  obtain ⟨hlo, hhi⟩ := hf.covers _ _ hslot
  have hoff := h.offset
  obtain ⟨pages, hpages, hpos, hmapped⟩ : ∃ pages,
      (if (f.entries entry).reassigned = 0 then
        ((f.entries entry).numPages - (w.index - (f.entries entry).pgoff)) * 4096 else 4096) = 4096 * pages ∧
      0 < pages ∧ ∀ q, w.index ≤ q → q < w.index + pages → f.tree.slot q = some entry := by
    by_cases hre : (f.entries entry).reassigned = 0
    · rw [if_pos hre]
      exact ⟨_, Nat.mul_comm _ _, by omega, fun q h1 h2 => hf.whole _ _ hslot hre q (by omega) (by omega)⟩
    · rw [if_neg hre]
      refine ⟨1, rfl, Nat.one_pos, fun q h1 h2 => ?_⟩
      obtain rfl : q = w.index := by omega
      exact hslot
  unfold ReadLoop.extent
  dsimp only
  rw [hpages]
  obtain ⟨nr, hnr⟩ : ∃ nr, nr = min (4096 * pages - w.offset) (len - w.copied) := ⟨_, rfl⟩
  rw [← hnr]
  obtain ⟨w₁, nr₁, heq, hin, hfit, hsum, hindex, hslot₁, hmod⟩ := h.wholeBlocks hc
    (fun q h1 h2 => hmapped q h1 (by omega)) (show (nr + w.offset) / 4096 = (nr + w.offset) / 4096 from rfl)
  rw [heq]
  dsimp only
  by_cases hzero : nr₁ = 0
  · rw [if_neg (by simpa using hzero)]
    exact ⟨w₁, rfl, hin.filled, by omega, fun hmore => ⟨hin, by omega⟩⟩
  · rw [if_pos hzero]
    obtain ⟨w₂, htail, hcopied, hfilled⟩ := hin.tailBlock hc (hslot₁ hzero) hfit
    -- only the end of the read leaves a part of a block
    have hend : w₁.copied + nr₁ = len := by omega
    exact ⟨w₂, htail, hfilled, by omega, fun hmore => by omega⟩

/-- A page that is not mapped, the last one of the read. -/
theorem InStep.hole (hc : c.Succeeds) (h : InStep f data c w) (hslot : f.tree.slot w.index = none)
    (hlen : w.copied < len) (hlast : c.pos + len ≤ 4096 * (w.index + 1)) :
    ∃ w', w.hole c len = (w', none) ∧ Turned f data c len w w' := by
  have hplace := h.place
  have hoff := h.offset
  obtain ⟨nr, hnr⟩ : ∃ nr, nr = min (4096 - w.offset) (len - w.copied) := ⟨_, rfl⟩
  have hfill : Filled f data c.pos (w.copied + nr) (w.transfer c none nr).transfers :=
    h.fill hc (by omega) (by rw [hslot]; rfl)
  unfold ReadLoop.hole
  dsimp only
  rw [← hnr, ReadLoop.leaves_zero hc, if_neg (by simp), Nat.sub_zero]
  refine ⟨_, rfl, hfill, ?_, fun hmore => ?_⟩
  · show w.copied + nr ≤ len
    omega
  · change w.copied + nr < len at hmore
    omega

theorem InStep.turn (hf : f.Readable) (hc : c.Succeeds) (h : InStep f data c w) (hlen : w.copied < len)
    (hsize : c.pos + len ≤ c.isize) (hgap : ∀ p, c.pos / 4096 ≤ p → 4096 * (p + 1) < c.pos + len → f.tree.slot p ≠ none) :
    ∃ w', w.turn f c len = (w', none) ∧ Turned f data c len w w' := by
  have hplace := h.place
  have hoff := h.offset
  unfold ReadLoop.turn
  dsimp only
  rw [if_neg (by omega)]
  cases hslot : f.tree.slot w.index with
  | none =>
      refine h.hole hc hslot hlen ?_
      by_contra hlast
      exact hgap w.index (by omega) (by omega) hslot
  | some entry =>
      obtain ⟨hlo, hhi⟩ := hf.covers _ _ hslot
      dsimp only
      rw [hc.entries, if_neg (by simp), if_neg (by omega)]
      exact h.extent hf hc hslot hlen

/-- All the turns. -/
theorem InStep.run (hf : f.Readable) (hc : c.Succeeds) (h : InStep f data c w) (hlen : w.copied < len)
    (hsize : c.pos + len ≤ c.isize) (hgap : ∀ p, c.pos / 4096 ≤ p → 4096 * (p + 1) < c.pos + len → f.tree.slot p ≠ none)
    (hfuel : (c.isize - 1) / 4096 < w.index + fuel) :
    ∃ w', w.run f c len fuel = .ok (w', .out 0) ∧ w'.copied = len ∧ Filled f data c.pos len w'.transfers := by
  have hplace := h.place
  induction fuel generalizing w with
  | zero => omega
  | succ fuel ih =>
      obtain ⟨w', heq, hfilled, hle, hmore⟩ := h.turn hf hc hlen hsize hgap
      unfold ReadLoop.run
      rw [heq]
      dsimp only
      by_cases hlt : w'.copied < len
      · rw [if_pos hlt]
        obtain ⟨hin, hindex⟩ := hmore hlt
        exact ih hin hlt (by omega) hin.place
      · rw [if_neg hlt]
        have hcopied : w'.copied = len := by omega
        refine ⟨w', rfl, hcopied, ?_⟩
        rw [← hcopied]
        exact hfilled

/-- **A read is right, when none of its pages but the last is a hole.** -/
theorem ReadCall.NoGap.right (hgap : c.NoGap f) (hf : f.Readable) (hc : c.Succeeds) : ReadsRight f data c := by
  unfold ReadsRight ReadCall.count
  have hnone : ∀ k, userByte data [] k = if k < 0 then some (f.byte data (c.pos + k)) else none :=
    fun k => by rw [if_neg (Nat.not_lt_zero k)]; rfl
  unfold doDaxMappingRead
  dsimp only
  rw [hc.access, if_neg (by simp)]
  by_cases hsize : c.isize = 0
  · rw [if_pos hsize, hsize, Nat.zero_sub, Nat.min_zero]
    exact ⟨_, rfl, rfl, rfl, hnone⟩
  · rw [if_neg hsize]
    by_cases hpos : c.pos ≤ c.isize
    · rw [if_pos hpos]
      by_cases hzero : min c.len (c.isize - c.pos) = 0
      · rw [if_pos hzero, hzero]
        exact ⟨_, rfl, rfl, rfl, hnone⟩
      · rw [if_neg hzero]
        have hrun : ∃ w', ReadLoop.run f c (min c.len (c.isize - c.pos)) ((c.isize - 1) / 4096 + 1 - c.pos / 4096 + 1)
            ⟨c.pos / 4096, c.pos % 4096, 0, []⟩ = .ok (w', .out 0) ∧ w'.copied = min c.len (c.isize - c.pos) ∧
            Filled f data c.pos (min c.len (c.isize - c.pos)) w'.transfers := by
          refine (InStep.start f data c).run hf hc ?_ ?_ hgap ?_
          · show 0 < _
            omega
          · omega
          · show _ < c.pos / 4096 + _
            omega
        obtain ⟨w', hok, hcopied, hfilled⟩ := hrun
        rw [hok]
        refine ⟨_, rfl, hcopied, ?_, hfilled⟩
        show (if w'.copied ≠ 0 then (w'.copied : Int) else 0) = _
        rw [hcopied, if_pos hzero]
    · -- behind the end of the file the first turn finds no page
      rw [if_neg hpos]
      have hcount : min c.len (c.isize - c.pos) = 0 := by omega
      rw [hcount]
      by_cases hzero : c.len = 0
      · rw [if_pos hzero]
        exact ⟨_, rfl, rfl, rfl, hnone⟩
      · rw [if_neg hzero]
        unfold ReadLoop.run ReadLoop.turn
        dsimp only
        rw [if_pos (by omega)]
        exact ⟨_, rfl, rfl, rfl, hnone⟩

/-! ### Past a hole -/

/-- One byte from the beginning of a page. -/
theorem ReadLoop.tail_byte {nvmm : Nat} (data : Nat → Nat → UInt8) (hc : c.Succeeds) (hoff : w.offset = 0) (hnvmm : getNvmm e w.index = nvmm) :
    ∃ w', w.tailBlock c e 1 = (w', none) ∧ w'.copied = w.copied + 1 ∧
      userByte data w'.transfers w.copied = some (data nvmm 0) := by
  unfold ReadLoop.tailBlock
  dsimp only
  rw [ReadLoop.leaves_zero hc, if_neg (by simp)]
  refine ⟨_, rfl, rfl, ?_⟩
  unfold ReadLoop.transfer
  dsimp only
  rw [userByte_concat, hc.left, hnvmm, hoff]
  simp [Transfer.byte]

/-- A turn that begins a page, for one byte. -/
theorem ReadLoop.turn_byte (data : Nat → Nat → UInt8) (hf : f.Readable) (hc : c.Succeeds) (hoff : w.offset = 0) (hlen : len = w.copied + 1)
    (hend : w.index ≤ (c.isize - 1) / 4096) :
    ∃ w', w.turn f c len = (w', none) ∧ w'.copied = len ∧
      userByte data w'.transfers w.copied = some (f.byte data (4096 * w.index)) := by
  have hbyte := FileTree.byte_page f data w.index (show 0 < 4096 by decide)
  rw [Nat.add_zero] at hbyte
  unfold ReadLoop.turn
  dsimp only
  rw [if_neg (by omega), hbyte]
  cases hslot : f.tree.slot w.index with
  | none =>
      have hnr : min (4096 - w.offset) (len - w.copied) = 1 := by omega
      unfold ReadLoop.hole
      dsimp only
      rw [hnr, ReadLoop.leaves_zero hc, if_neg (by simp)]
      refine ⟨_, rfl, hlen.symm, ?_⟩
      unfold ReadLoop.transfer
      dsimp only
      rw [userByte_concat, hc.left]
      simp [Transfer.byte]
  | some entry =>
      obtain ⟨hlo, hhi⟩ := hf.covers _ _ hslot
      dsimp only
      rw [hc.entries, if_neg (by simp), if_neg (by omega)]
      obtain ⟨w', htail, hcopied, hread⟩ := ReadLoop.tail_byte data hc hoff
        (show getNvmm (f.entries entry) w.index = _ from rfl)
      refine ⟨w', ?_, by omega, hread⟩
      have hnr : min ((if (f.entries entry).reassigned = 0 then
          ((f.entries entry).numPages - (w.index - (f.entries entry).pgoff)) * 4096 else 4096) - w.offset)
          (len - w.copied) = 1 := by
        split <;> omega
      unfold ReadLoop.extent
      dsimp only
      rw [hnr, hoff]
      exact htail

/-- The read that starts at a hole and goes one byte into the next page. -/
def readPast (isize hole : Nat) : ReadCall := ⟨isize, 4096 * hole, 4097, true, fun _ => true, fun _ => 0⟩

theorem readPast_succeeds (isize hole : Nat) : (readPast isize hole).Succeeds := ⟨rfl, fun _ => rfl, fun _ => rfl⟩

/-- After the hole `index` is at the next page and `offset` behind it. -/
theorem readPast_hole {isize hole : Nat} (hslot : f.tree.slot hole = none) (hin : hole < (isize - 1) / 4096) :
    doDaxMappingRead f (readPast isize hole) =
      (ReadLoop.run f (readPast isize hole) 4097 ((isize - 1) / 4096 - hole + 1)
        ⟨hole + 1, 4096, 4096, [⟨0, none, 4096, 0⟩]⟩).map readReturn := by
  have hpos : 4096 * hole ≤ isize := by omega
  have hlen : min 4097 (isize - 4096 * hole) = 4097 := by omega
  have hindex : 4096 * hole / 4096 = hole := by omega
  have hoffset : 4096 * hole % 4096 = 0 := by omega
  have hfuel : (isize - 1) / 4096 + 1 - hole = (isize - 1) / 4096 - hole + 1 := by omega
  have hsize : isize ≠ 0 := by omega
  have hne : ¬ 4097 = 0 := by decide
  unfold doDaxMappingRead
  simp only [readPast, Bool.not_true, Bool.false_eq_true, if_false, hsize, hpos, if_true, hlen, hne, hindex, hoffset,
    hfuel]
  conv_lhs => rw [ReadLoop.run]
  unfold ReadLoop.turn
  dsimp only
  rw [if_neg (by omega), hslot]
  simp [ReadLoop.hole, ReadLoop.leaves, ReadLoop.transfer]

/-- The next turn copies nothing of the page it is at, if that is mapped; a later one copies the
byte from the page after. -/
theorem readPast_page {entry isize hole : Nat} (data : Nat → Nat → UInt8) (hf : f.Readable)
    (hslot : f.tree.slot (hole + 1) = some entry) (hin : hole + 1 < (isize - 1) / 4096) :
    ∃ w, ReadLoop.run f (readPast isize hole) 4097 ((isize - 1) / 4096 - hole + 1)
        ⟨hole + 1, 4096, 4096, [⟨0, none, 4096, 0⟩]⟩ = .ok (w, .out 0) ∧
      userByte data w.transfers 4096 = some (f.byte data (4096 * (hole + 2))) := by
  have hc := readPast_succeeds isize hole
  obtain ⟨hlo, hhi⟩ := hf.covers _ _ hslot
  obtain ⟨fuel, hfuel⟩ : ∃ fuel, (isize - 1) / 4096 - hole + 1 = fuel + 1 + 1 :=
    ⟨(isize - 1) / 4096 - hole - 1, by omega⟩
  obtain ⟨w₁, hw₁⟩ : ∃ w₁ : ReadLoop, w₁ = ⟨hole + 1, 4096, 4096, [⟨0, none, 4096, 0⟩]⟩ := ⟨_, rfl⟩
  have hindex₁ : w₁.index = hole + 1 := by rw [hw₁]
  have hoff₁ : w₁.offset = 4096 := by rw [hw₁]
  have hcopied₁ : w₁.copied = 4096 := by rw [hw₁]
  obtain ⟨w₂, hw₂⟩ : ∃ w₂ : ReadLoop, w₂ = ⟨hole + 2, 0, 4096,
      (w₁.transfer (readPast isize hole) (some (getNvmm (f.entries entry) w₁.index, w₁.offset)) 0).transfers⟩ := ⟨_, rfl⟩
  have hindex₂ : w₂.index = hole + 2 := by rw [hw₂]
  have hoff₂ : w₂.offset = 0 := by rw [hw₂]
  have hcopied₂ : w₂.copied = 4096 := by rw [hw₂]
  have hblock : ∀ nr, ReadLoop.wholeBlocks (readPast isize hole) (f.entries entry) 1 w₁ nr = ((w₂, none), nr) := by
    intro nr
    unfold ReadLoop.wholeBlocks
    dsimp only
    rw [if_pos (by omega), hoff₁, Nat.sub_self, ReadLoop.leaves_zero hc, if_neg (by simp)]
    unfold ReadLoop.wholeBlocks
    rw [hw₂, hw₁, Nat.sub_zero]
    simp [ReadLoop.transfer]
  have hturn : w₁.turn f (readPast isize hole) 4097 = w₁.extent (readPast isize hole) 4097 (f.entries entry) := by
    have hsize : (readPast isize hole).isize = isize := rfl
    unfold ReadLoop.turn
    dsimp only
    rw [hsize, hindex₁, if_neg (by omega), hslot]
    dsimp only
    rw [if_neg (by simp [readPast]), if_neg (by omega)]
  rw [← hw₁, hfuel]
  unfold ReadLoop.run
  rw [hturn]
  unfold ReadLoop.extent
  dsimp only
  obtain ⟨nr, hnr⟩ : ∃ nr, nr = min ((if (f.entries entry).reassigned = 0 then
      ((f.entries entry).numPages - (w₁.index - (f.entries entry).pgoff)) * 4096 else 4096) - w₁.offset)
      (4097 - w₁.copied) := ⟨_, rfl⟩
  have hle : nr ≤ 1 := by omega
  have hone : (nr + w₁.offset) / 4096 = 1 := by omega
  rw [← hnr, hone, hblock]
  dsimp only
  by_cases hzero : nr = 0
  · -- the entry has no other page
    obtain ⟨w', hstep, hcopied, hbyte⟩ := ReadLoop.turn_byte data hf hc hoff₂
      (show 4097 = w₂.copied + 1 by omega) (show w₂.index ≤ (isize - 1) / 4096 by omega)
    rw [if_neg (by simpa using hzero)]
    dsimp only
    rw [if_pos (by omega)]
    unfold ReadLoop.run
    rw [hstep]
    dsimp only
    rw [if_neg (by omega)]
    rw [hindex₂, hcopied₂] at hbyte
    exact ⟨w', rfl, hbyte⟩
  · have hre : (f.entries entry).reassigned = 0 := by
      by_contra hre
      rw [if_neg hre] at hnr
      omega
    rw [if_pos hre] at hnr
    have hslot₂ : f.tree.slot (hole + 2) = some entry := hf.whole _ _ hslot hre _ (by omega) (by omega)
    obtain rfl : nr = 1 := by omega
    obtain ⟨w', htail, hcopied, hbyte⟩ := ReadLoop.tail_byte data hc hoff₂
      (show getNvmm (f.entries entry) w₂.index = _ from rfl)
    have hpage := FileTree.byte_page f data (hole + 2) (show 0 < 4096 by decide)
    rw [Nat.add_zero, hslot₂] at hpage
    rw [if_pos (by decide), htail]
    dsimp only
    rw [if_neg (by omega)]
    rw [hindex₂, hcopied₂] at hbyte
    exact ⟨w', rfl, by rw [hbyte, hpage]⟩

/-- The byte behind the hole is not the right one, whatever the next page is. -/
theorem readPast_wrong {isize hole : Nat} (hf : f.Readable) (hapart : f.BlocksApart)
    (hslot : f.tree.slot hole = none) (hin : hole < (isize - 1) / 4096)
    (hnext : hole + 1 = (isize - 1) / 4096 ∨ f.tree.slot (hole + 1) ≠ none) :
    ∃ data, ¬ ReadsRight f data (readPast isize hole) := by
  have hcount : (readPast isize hole).count = 4097 := by
    show min 4097 (isize - 4096 * hole) = 4097
    omega
  have hc := readPast_succeeds isize hole
  by_cases hend : hole + 1 = (isize - 1) / 4096
  · -- the loop is left at once
    refine ⟨fun _ _ => 0, ?_⟩
    rintro ⟨r, hr, hcopied, -⟩
    rw [readPast_hole hslot hin] at hr
    unfold ReadLoop.run ReadLoop.turn at hr
    dsimp only at hr
    rw [if_pos ⟨hend.ge, Or.inr (show (isize - 1) % 4096 + 1 ≤ 4096 by omega)⟩] at hr
    rw [hcount, ← Except.ok.inj hr] at hcopied
    cases hcopied
  · obtain ⟨entry, hentry⟩ := Option.ne_none_iff_exists'.mp (hnext.resolve_left hend)
    obtain ⟨hlo, hhi⟩ := hf.covers _ _ hentry
    -- only the block of that page is not all zeros
    refine ⟨fun nvmm _ => if nvmm = getNvmm (f.entries entry) (hole + 1) then 1 else 0, ?_⟩
    generalize hdata : (fun nvmm (_ : Nat) =>
      if nvmm = getNvmm (f.entries entry) (hole + 1) then (1 : UInt8) else 0) = data
    rintro ⟨r, hr, -, -, hbytes⟩
    have hright : userByte data r.transfers 4096 = some 1 := by
      have hbyte := FileTree.byte_page f data (hole + 1) (show 0 < 4096 by decide)
      rw [hbytes, hcount, if_pos (by decide)]
      show some (f.byte data (4096 * hole + 4096)) = _
      rw [show 4096 * hole + 4096 = 4096 * (hole + 1) + 0 by omega, hbyte, hentry, ← hdata]
      simp
    have hwrong : userByte data r.transfers 4096 = some (f.byte data (4096 * (hole + 2))) := by
      obtain ⟨w, hrun, hbyte⟩ := readPast_page data hf hentry (show hole + 1 < (isize - 1) / 4096 by omega)
      rw [readPast_hole hslot hin, hrun] at hr
      rw [← Except.ok.inj hr]
      exact hbyte
    have hzero : f.byte data (4096 * (hole + 2)) = 0 := by
      have hbyte := FileTree.byte_page f data (hole + 2) (show 0 < 4096 by decide)
      rw [Nat.add_zero] at hbyte
      rw [hbyte]
      cases hslot₂ : f.tree.slot (hole + 2) with
      | none => rfl
      | some entry₂ =>
          have hne : getNvmm (f.entries entry₂) (hole + 2) ≠ getNvmm (f.entries entry) (hole + 1) := by
            intro heq
            have := hapart _ _ _ _ hslot₂ hentry heq
            omega
          rw [← hdata]
          simp [hne]
    rw [hright, hzero] at hwrong
    exact absurd hwrong (by decide)

/-- A hole with the last page, or a page that is mapped, behind it. -/
theorem exists_lastHole {slot : Nat → Option Nat} {last p : Nat} (hp : p < last) (hslot : slot p = none) :
    ∃ hole < last, slot hole = none ∧ (hole + 1 = last ∨ slot (hole + 1) ≠ none) := by
  obtain ⟨n, hn⟩ : ∃ n, last = p + 1 + n := ⟨last - (p + 1), by omega⟩
  induction n generalizing p with
  | zero => exact ⟨p, hp, hslot, Or.inl hn.symm⟩
  | succ n ih =>
      by_cases hnext : slot (p + 1) = none
      · exact ih (p := p + 1) (by omega) hnext (by omega)
      · exact ⟨p, hp, hslot, Or.inr hnext⟩

/-- **Where reads are right**: a read of which no page but the last is a hole brings the bytes of
the file; and of a file of some size every read does, whatever is in its blocks, just when no
page before the last one of the file is a hole. -/
theorem doDaxMappingRead_right_iff (hf : f.Readable) :
    (∀ data c, c.Succeeds → c.NoGap f → ReadsRight f data c) ∧
      (f.BlocksApart → ∀ isize,
        (∀ data c, c.isize = isize → c.Succeeds → ReadsRight f data c) ↔
          ∀ p < (isize - 1) / 4096, f.tree.slot p ≠ none) := by
  refine ⟨fun data c hc hgap => hgap.right hf hc, fun hapart isize => ⟨fun hright p hp hslot => ?_, ?_⟩⟩
  · obtain ⟨hole, hin, hhole, hnext⟩ := exists_lastHole hp hslot
    obtain ⟨data, hwrong⟩ := readPast_wrong hf hapart hhole hin hnext
    exact hwrong (hright data _ rfl (readPast_succeeds isize hole))
  · rintro hmapped data c rfl hc
    refine ReadCall.NoGap.right (fun p hlo hhi => hmapped p ?_) hf hc
    unfold ReadCall.count at hhi
    omega

/-- A file of three pages, the first of which is a hole. -/
def holeFirst : FileTree := (newFile.apply (.append 64 (writeEntry 1 2 10 1) fun _ => true)).file

theorem holeFirst_slot (p : Nat) : holeFirst.tree.slot p = if 1 ≤ p ∧ p < 3 then some 64 else none :=
  novaAssignWriteEntry_slot [] (newFile.file.store 64 (writeEntry 1 2 10 1)) 64 (writeEntry 1 2 10 1) true p

theorem holeFirst_readable : holeFirst.Readable := by
  have hentry : holeFirst.entries 64 = writeEntry 1 2 10 1 := rfl
  constructor
  · intro q x hq
    rw [holeFirst_slot] at hq
    split at hq
    · rename_i hin
      cases hq
      rw [hentry]
      exact hin
    · cases hq
  · intro q x hq _ p hlo hhi
    rw [holeFirst_slot] at hq
    split at hq
    · cases hq
      rw [hentry] at hlo hhi
      rw [holeFirst_slot, if_pos ⟨hlo, hhi⟩]
    · cases hq

/-- The first pages of it. -/
def readFirst (pos : Nat) : ReadCall := ⟨12288, pos, 8192, true, fun _ => true, fun _ => 0⟩

theorem readFirst_succeeds (pos : Nat) : (readFirst pos).Succeeds := ⟨rfl, fun _ => rfl, fun _ => rfl⟩

theorem doDaxMappingRead_right_iff_mapped :
    ReadsRight holeFirst (fun nvmm _ => if nvmm = 11 then 1 else 0) (readFirst 4096) := by
  refine (doDaxMappingRead_right_iff holeFirst_readable).1 _ _ (readFirst_succeeds 4096) fun p hlo hhi => ?_
  have hcount : (readFirst 4096).count = 8192 := by decide
  have hpos : (readFirst 4096).pos = 4096 := rfl
  rw [holeFirst_slot, if_pos (by omega)]
  simp

/-- Read from the start, the third page comes where the second one belongs. -/
theorem doDaxMappingRead_wrong :
    holeFirst.Readable ∧ (readFirst 0).Succeeds ∧
      ¬ ReadsRight holeFirst (fun nvmm _ => if nvmm = 10 then 1 else 0) (readFirst 0) := by
  refine ⟨holeFirst_readable, readFirst_succeeds 0, ?_⟩
  rintro ⟨r, hr, -, -, hbytes⟩
  have hrun : doDaxMappingRead holeFirst (readFirst 0) = .ok ⟨8192, 8192,
      [⟨0, none, 4096, 0⟩, ⟨4096, some (10, 4096), 0, 0⟩, ⟨4096, some (11, 0), 4096, 0⟩], true⟩ := by decide +kernel
  have hbyte := hbytes 4096
  rw [← Except.ok.inj (hrun.symm.trans hr)] at hbyte
  revert hbyte
  decide +kernel

end

end Parfs
