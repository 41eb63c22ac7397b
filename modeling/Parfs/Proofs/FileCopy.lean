/-
What the copies of a turn leave in its blocks.

A copy of a turn either brings bytes of the user's buffer to where they belong, or it keeps what
the first or the last page held around them.  So of any byte of the new blocks all copies that
store to it store the same, and it only remains whether one of them does: zeros are stored four
bytes at a time.
-/
import Parfs.FileCopy
import Parfs.Proofs.FileRead
import Parfs.Proofs.FileWrite

namespace Parfs

open Lib

section

variable {g : CopyConfig} {f : FileTree} {user : Nat → UInt8} {data : Nat → Nat → UInt8} {w : NvmmWrite}
  {ws : List NvmmWrite} {b o : Nat} {v : UInt8}

/-! ### Copies one after another -/

theorem applyWrites_append {ws' : List NvmmWrite} :
    applyWrites g user (ws ++ ws') data = applyWrites g user ws' (applyWrites g user ws data) := List.foldl_append ..

theorem NvmmWrite.apply_inside (h : w.Covers g b o) : w.apply g user data b o = w.value user data b o := if_pos h

theorem NvmmWrite.apply_outside (h : ¬ w.Covers g b o) : w.apply g user data b o = data b o := if_neg h

theorem applyWrites_keep (h : ∀ w ∈ ws, ¬ w.Covers g b o) : applyWrites g user ws data b o = data b o := by
  induction ws generalizing data with
  | nil => rfl
  | cons w ws ih =>
      have hw : w.apply g user data b o = data b o := NvmmWrite.apply_outside (h w List.mem_cons_self)
      rw [← hw]
      exact ih fun w' hw' => h w' (List.mem_cons_of_mem _ hw')

/-- Copies that agree about a byte, in any order.  `P` is what they may read of the blocks. -/
theorem applyWrites_eq {P : (Nat → Nat → UInt8) → Prop} (hP : P data)
    (hkeep : ∀ w ∈ ws, ∀ data, P data → P (w.apply g user data))
    (hvalue : ∀ w ∈ ws, w.Covers g b o → ∀ data, P data → w.value user data b o = v)
    (hdone : data b o = v ∨ ∃ w ∈ ws, w.Covers g b o) : applyWrites g user ws data b o = v := by
  induction ws generalizing data with
  | nil => exact hdone.resolve_right (by simp)
  | cons w ws ih =>
      refine ih (hkeep w List.mem_cons_self data hP) (fun w' hw' => hkeep w' (List.mem_cons_of_mem _ hw'))
        (fun w' hw' => hvalue w' (List.mem_cons_of_mem _ hw')) ?_
      by_cases hcov : w.Covers g b o
      · exact Or.inl ((NvmmWrite.apply_inside hcov).trans (hvalue w List.mem_cons_self hcov data hP))
      · refine hdone.imp (NvmmWrite.apply_outside hcov).trans ?_
        rintro ⟨w', hw', hcov'⟩
        rcases List.mem_cons.mp hw' with rfl | hw'
        · exact absurd hcov' hcov
        · exact ⟨w', hw', hcov'⟩

/-! ### The copies of a turn -/

/-- The copy of what was there before. -/
def oldWrite (g : CopyConfig) (f : FileTree) (index offset blocknr len : Nat) (tryDele : Bool) : NvmmWrite :=
  doNovaNvmmWrite g blocknr offset
    (match f.tree.slot index with
    | none => .zero
    | some entry => .block (getNvmm (f.entries entry) index)) len tryDele

theorem Copies.old_ok {s : Copies} {index offset blocknr len : Nat} {tryDele : Bool} 
    (h : (s.old g f index offset blocknr len tryDele).err = none) :
    s.old g f index offset blocknr len tryDele = s.add (oldWrite g f index offset blocknr len tryDele) := by
  unfold Copies.old novaHandlePartialBlock oldWrite at *
  cases hslot : f.tree.slot index with
  | none => rfl
  | some entry =>
      simp only [hslot] at h ⊢
      by_cases hcopy : g.entryCopy entry = true
      · simp [hcopy]
      · simp [hcopy] at h

/-- The copies at the head and at the tail, of a turn that goes well. -/
def partWrites (g : CopyConfig) (f : FileTree) (pos count blocknr ubuf : Nat) (append tryDele : Bool) : List NvmmWrite :=
  (if pos % 4096 ≠ 0 then
    (if append then [] else [oldWrite g f (pos / 4096) 0 blocknr (pos % 4096) tryDele]) ++
      [doNovaNvmmWrite g blocknr (pos % 4096) (.user ubuf) (min count (4096 - pos % 4096)) tryDele]
  else []) ++
  if (pos + count) % 4096 ≠ 0 then
    (if writeNumBlocks pos count ≠ 1 ∨ pos % 4096 = 0 then
      [doNovaNvmmWrite g (blocknr + (writeNumBlocks pos count - 1)) 0 (.user (ubuf + (count - (pos + count) % 4096)))
        ((pos + count) % 4096) tryDele]
    else []) ++
      if append then []
      else
        [oldWrite g f (pos / 4096 + writeNumBlocks pos count - 1) ((pos + count) % 4096)
          (blocknr + (writeNumBlocks pos count - 1)) (4096 - (pos + count) % 4096) tryDele]
  else []

/-- `head` -/
def headBytes (pos count : Nat) : Nat := if pos % 4096 ≠ 0 then min count (4096 - pos % 4096) else 0

/-- `tail` -/
def tailBytes (pos count : Nat) : Nat :=
  if (pos + count) % 4096 ≠ 0 ∧ (writeNumBlocks pos count ≠ 1 ∨ pos % 4096 = 0) then (pos + count) % 4096 else 0

theorem Copies.headBlock_ok {s : Copies} {pos count blocknr ubuf : Nat} {append tryDele : Bool} 
    (h : (s.headBlock g f pos count blocknr ubuf append tryDele).err = none) :
    (s.headBlock g f pos count blocknr ubuf append tryDele).writes = s.writes ++
        ((if append then [] else [oldWrite g f (pos / 4096) 0 blocknr (pos % 4096) tryDele]) ++
          [doNovaNvmmWrite g blocknr (pos % 4096) (.user ubuf) (min count (4096 - pos % 4096)) tryDele]) ∧
      (s.headBlock g f pos count blocknr ubuf append tryDele).head = min count (4096 - pos % 4096) ∧
      (s.headBlock g f pos count blocknr ubuf append tryDele).tail = s.tail := by
  have hmin : (if count > 4096 - pos % 4096 then 4096 - pos % 4096 else count) = min count (4096 - pos % 4096) := by
    split <;> omega
  unfold Copies.headBlock at *
  dsimp only at *
  rw [hmin] at *
  cases append with
  | true =>
      simp only [if_true] at *
      by_cases herr : s.err = none
      · rw [if_neg (by simpa using herr)]
        exact ⟨rfl, rfl, rfl⟩
      · rw [if_pos herr] at h
        exact absurd h herr
  | false =>
      simp only [Bool.false_eq_true, if_false] at *
      by_cases herr : (s.old g f (pos / 4096) 0 blocknr (pos % 4096) tryDele).err = none
      · rw [if_neg (by simpa using herr), Copies.old_ok herr]
        refine ⟨?_, rfl, rfl⟩
        show s.writes ++ [_] ++ [_] = _
        rw [List.append_assoc]
      · rw [if_pos herr] at h
        exact absurd h herr

theorem Copies.tailBlock_ok {s : Copies} {pos count blocknr ubuf : Nat} {append tryDele : Bool} 
    (h : (s.tailBlock g f pos count blocknr ubuf append tryDele).err = none) :
    (s.tailBlock g f pos count blocknr ubuf append tryDele).writes = s.writes ++
        ((if writeNumBlocks pos count ≠ 1 ∨ s.head = 0 then
          [doNovaNvmmWrite g (blocknr + (writeNumBlocks pos count - 1)) 0
            (.user (ubuf + (count - (pos + count) % 4096))) ((pos + count) % 4096) tryDele] else []) ++
          if append then []
          else
            [oldWrite g f (pos / 4096 + writeNumBlocks pos count - 1) ((pos + count) % 4096)
              (blocknr + (writeNumBlocks pos count - 1)) (4096 - (pos + count) % 4096) tryDele]) ∧
      (s.tailBlock g f pos count blocknr ubuf append tryDele).head = s.head ∧
      (s.tailBlock g f pos count blocknr ubuf append tryDele).tail =
        if writeNumBlocks pos count ≠ 1 ∨ s.head = 0 then (pos + count) % 4096 else s.tail := by
  have hone : pos / 4096 ≠ pos / 4096 + writeNumBlocks pos count - 1 ↔ writeNumBlocks pos count ≠ 1 := by
    unfold writeNumBlocks
    omega
  unfold Copies.tailBlock at *
  simp only [hone] at *
  by_cases huser : writeNumBlocks pos count ≠ 1 ∨ s.head = 0
  · simp only [huser, if_true] at *
    cases append with
    | true => exact ⟨rfl, rfl, rfl⟩
    | false =>
        simp only [Bool.false_eq_true, if_false] at *
        rw [Copies.old_ok h]
        refine ⟨?_, rfl, rfl⟩
        show s.writes ++ [_] ++ [_] = _
        rw [List.append_assoc]
  · simp only [huser, if_false] at *
    cases append with
    | true => exact ⟨(List.append_nil _).symm, rfl, rfl⟩
    | false =>
        simp only [Bool.false_eq_true, if_false] at *
        rw [Copies.old_ok h]
        exact ⟨rfl, rfl, rfl⟩

theorem novaHandleHeadTailBlocks_ok {pos count blocknr ubuf : Nat} {append tryDele : Bool} (hcount : 0 < count)
    (h : (novaHandleHeadTailBlocks g f pos count blocknr ubuf append tryDele).err = none) :
    (novaHandleHeadTailBlocks g f pos count blocknr ubuf append tryDele).writes =
        partWrites g f pos count blocknr ubuf append tryDele ∧
      (novaHandleHeadTailBlocks g f pos count blocknr ubuf append tryDele).head = headBytes pos count ∧
      (novaHandleHeadTailBlocks g f pos count blocknr ubuf append tryDele).tail = tailBytes pos count := by
  unfold novaHandleHeadTailBlocks at *
  dsimp only at *
  obtain ⟨s, hs⟩ : ∃ s : Copies, s = if pos % 4096 ≠ 0 then
      Copies.headBlock g f ⟨[], 0, 0, false, false, none⟩ pos count blocknr ubuf append tryDele
      else ⟨[], 0, 0, false, false, none⟩ := ⟨_, rfl⟩
  rw [← hs] at h ⊢
  have herr : s.err = none := by
    by_contra herr
    rw [if_pos herr] at h
    exact herr h
  rw [if_neg (by simpa using herr)] at h ⊢
  have hhead : s.writes = (if pos % 4096 ≠ 0 then
      (if append then [] else [oldWrite g f (pos / 4096) 0 blocknr (pos % 4096) tryDele]) ++
        [doNovaNvmmWrite g blocknr (pos % 4096) (.user ubuf) (min count (4096 - pos % 4096)) tryDele]
      else []) ∧ s.head = headBytes pos count ∧ s.tail = 0 := by
    by_cases hpos : pos % 4096 ≠ 0
    · rw [if_pos hpos] at hs
      rw [hs] at herr
      obtain ⟨hw, hh, ht⟩ := Copies.headBlock_ok herr
      rw [headBytes, if_pos hpos, if_pos hpos, hs]
      exact ⟨hw, hh, ht⟩
    · rw [if_neg hpos] at hs
      rw [headBytes, if_neg hpos, if_neg hpos, hs]
      exact ⟨rfl, rfl, rfl⟩
  obtain ⟨hwrites, hheadBytes, htail⟩ := hhead
  have hzero : headBytes pos count = 0 ↔ pos % 4096 = 0 := by
    unfold headBytes
    split <;> omega
  unfold partWrites tailBytes
  by_cases hend : (pos + count) % 4096 ≠ 0
  · rw [if_pos hend] at h ⊢
    obtain ⟨hw, hh, ht⟩ := Copies.tailBlock_ok h
    rw [hw, hh, ht, hwrites, hheadBytes, htail, if_pos hend]
    simp only [hzero, hend, ne_eq, not_false_eq_true, true_and, and_self]
  · have hnot : ¬ ((pos + count) % 4096 ≠ 0 ∧ (writeNumBlocks pos count ≠ 1 ∨ pos % 4096 = 0)) := fun hc => hend hc.1
    rw [if_neg hend, if_neg hend, if_neg hnot, hwrites, hheadBytes, htail, List.append_nil]
    exact ⟨rfl, rfl, rfl⟩

/-- The copies of whole blocks. -/
def wholeWrites (g : CopyConfig) (pos bytes blocknr ubuf : Nat) (tryDele : Bool) : List NvmmWrite :=
  let num := (bytes - headBytes pos bytes - tailBytes pos bytes) / 4096
  let blocknr := if headBytes pos bytes ≠ 0 then blocknr + 1 else blocknr
  if g.striped then
    (List.range num).map fun i =>
      doNovaNvmmWrite g (blocknr + i) 0 (.user (ubuf + headBytes pos bytes + 4096 * i)) 4096 true
  else [doNovaNvmmWrite g blocknr 0 (.user (ubuf + headBytes pos bytes)) (num * 4096) tryDele]

theorem turnCopies_ok {pos bytes blocknr ubuf : Nat} {append tryDele : Bool} (hbytes : 0 < bytes)
    (h : (turnCopies g f pos bytes blocknr ubuf append tryDele).err = none) :
    (turnCopies g f pos bytes blocknr ubuf append tryDele).writes =
      partWrites g f pos bytes blocknr ubuf append tryDele ++ wholeWrites g pos bytes blocknr ubuf tryDele := by
  unfold turnCopies at *
  dsimp only at *
  obtain ⟨s, hs⟩ : ∃ s : Copies, s = if (pos % 4096 ≠ 0 || (pos + bytes) % 4096 ≠ 0) = true then
      { novaHandleHeadTailBlocks g f pos bytes blocknr ubuf append tryDele with
        isDele := (novaHandleHeadTailBlocks g f pos bytes blocknr ubuf append tryDele).dele }
      else ⟨[], 0, 0, false, false, none⟩ := ⟨_, rfl⟩
  rw [← hs] at h ⊢
  have herr : s.err = none := by
    by_contra herr
    rw [if_pos herr] at h
    exact herr h
  rw [if_neg (by simpa using herr)]
  obtain ⟨hw, hh, ht⟩ : s.writes = partWrites g f pos bytes blocknr ubuf append tryDele ∧
      s.head = headBytes pos bytes ∧ s.tail = tailBytes pos bytes := by
    by_cases hpart : (pos % 4096 ≠ 0 || (pos + bytes) % 4096 ≠ 0) = true
    · rw [if_pos hpart] at hs
      rw [hs] at herr ⊢
      exact novaHandleHeadTailBlocks_ok hbytes herr
    · rw [if_neg hpart] at hs
      rw [hs]
      simp only [ne_eq, Bool.or_eq_true, decide_eq_true_eq, not_or, not_not] at hpart
      simp [partWrites, headBytes, tailBytes, hpart.1, hpart.2]
  unfold Copies.wholeBlocks wholeWrites
  rw [hw, hh, ht]

/-! ### What they store -/

/-- A copy for the write of `bytes` bytes at `pos`, with the blocks from `blocknr` on: of the user's
data, where it belongs, or of what was before the data or behind it. -/
inductive CopyOf (g : CopyConfig) (f : FileTree) (pos bytes blocknr ubuf : Nat) (append tryDele : Bool) :
    NvmmWrite → Prop where
  | user (w : NvmmWrite) (k : Nat) (hsrc : w.src = .user (ubuf + k))
      (hplace : 4096 * w.blocknr + w.offset = 4096 * blocknr + pos % 4096 + k) (hlen : k + w.len ≤ bytes) :
      CopyOf g f pos bytes blocknr ubuf append tryDele w
  | head (happend : append = false) (hpos : pos % 4096 ≠ 0) :
      CopyOf g f pos bytes blocknr ubuf append tryDele (oldWrite g f (pos / 4096) 0 blocknr (pos % 4096) tryDele)
  | tail (happend : append = false) (hend : (pos + bytes) % 4096 ≠ 0) :
      CopyOf g f pos bytes blocknr ubuf append tryDele
        (oldWrite g f ((pos + bytes) / 4096) ((pos + bytes) % 4096)
          (blocknr + ((pos + bytes) / 4096 - pos / 4096)) (4096 - (pos + bytes) % 4096) tryDele)

section

variable {pos bytes blocknr ubuf : Nat} {append tryDele : Bool}

theorem headBytes_le : headBytes pos bytes ≤ bytes := by
  unfold headBytes
  split <;> omega

/-- Where the tail is. -/
theorem tailPage (hbytes : 0 < bytes) (hend : (pos + bytes) % 4096 ≠ 0) :
    pos / 4096 + writeNumBlocks pos bytes - 1 = (pos + bytes) / 4096 ∧
      writeNumBlocks pos bytes - 1 = (pos + bytes) / 4096 - pos / 4096 := by
  unfold writeNumBlocks
  omega

/-- Head, tail and whole blocks are all there is. -/
theorem headTail_bytes (pos : Nat) (hbytes : 0 < bytes) :
    bytes = headBytes pos bytes + tailBytes pos bytes +
      4096 * ((bytes - headBytes pos bytes - tailBytes pos bytes) / 4096) := by
  have hone : writeNumBlocks pos bytes ≠ 1 ↔ 4096 - pos % 4096 < bytes := by
    unfold writeNumBlocks
    omega
  unfold headBytes tailBytes
  simp only [hone]
  by_cases hpos : pos % 4096 = 0
  · by_cases hend : (pos + bytes) % 4096 = 0
    · simp only [hpos, hend, ne_eq, not_true_eq_false, if_false, false_and]
      omega
    · simp only [hpos, hend, ne_eq, not_true_eq_false, not_false_eq_true, if_false, or_true, and_self, if_true]
      omega
  · by_cases hlong : 4096 - pos % 4096 < bytes
    · by_cases hend : (pos + bytes) % 4096 = 0
      · simp only [hpos, hend, hlong, ne_eq, not_true_eq_false, not_false_eq_true, if_true, false_and, if_false]
        omega
      · simp only [hpos, hend, hlong, ne_eq, not_false_eq_true, if_true, true_or, and_self]
        omega
    · simp only [hpos, hlong, ne_eq, not_false_eq_true, if_true, or_self, and_false, if_false]
      omega

/-- Where the tail's bytes are. -/
theorem tailBytes_place (hbytes : 0 < bytes) (hend : (pos + bytes) % 4096 ≠ 0)
    (htail : writeNumBlocks pos bytes ≠ 1 ∨ pos % 4096 = 0) :
    tailBytes pos bytes = (pos + bytes) % 4096 ∧ (pos + bytes) % 4096 ≤ bytes ∧
      4096 * (writeNumBlocks pos bytes - 1) = pos % 4096 + (bytes - (pos + bytes) % 4096) := by
  unfold tailBytes
  rw [if_pos ⟨hend, htail⟩]
  unfold writeNumBlocks at *
  omega

/-- Every copy of a turn is one of these. -/
theorem CopyOf.part {w : NvmmWrite} (hbytes : 0 < bytes)
    (hw : w ∈ partWrites g f pos bytes blocknr ubuf append tryDele) : CopyOf g f pos bytes blocknr ubuf append tryDele w := by
  unfold partWrites at hw
  rcases List.mem_append.mp hw with hw | hw
  · by_cases hpos : pos % 4096 ≠ 0
    · rw [if_pos hpos] at hw
      rcases List.mem_append.mp hw with hw | hw
      · cases append with
        | true => simp at hw
        | false =>
            simp only [Bool.false_eq_true, if_false, List.mem_singleton] at hw
            rw [hw]
            exact .head rfl hpos
      · rw [List.mem_singleton.mp hw]
        refine .user _ 0 rfl ?_ ?_
        · show 4096 * blocknr + pos % 4096 = _
          omega
        · show 0 + min bytes (4096 - pos % 4096) ≤ bytes
          omega
    · rw [if_neg hpos] at hw
      cases hw
  · by_cases hend : (pos + bytes) % 4096 ≠ 0
    · rw [if_pos hend] at hw
      rcases List.mem_append.mp hw with hw | hw
      · by_cases htail : writeNumBlocks pos bytes ≠ 1 ∨ pos % 4096 = 0
        · obtain ⟨-, hle, hplace⟩ := tailBytes_place hbytes hend htail
          rw [if_pos htail, List.mem_singleton] at hw
          rw [hw]
          refine .user _ (bytes - (pos + bytes) % 4096) rfl ?_ ?_
          · show 4096 * (blocknr + (writeNumBlocks pos bytes - 1)) + 0 = _
            omega
          · show bytes - (pos + bytes) % 4096 + (pos + bytes) % 4096 ≤ bytes
            omega
        · rw [if_neg htail] at hw
          cases hw
      · cases append with
        | true => simp at hw
        | false =>
            obtain ⟨hpage, hnum⟩ := tailPage hbytes hend
            simp only [Bool.false_eq_true, if_false, List.mem_singleton] at hw
            rw [hw, hpage, hnum]
            exact .tail rfl hend
    · rw [if_neg hend] at hw
      cases hw

/-- The first of the whole blocks. -/
theorem wholeBlock_place (blocknr : Nat) (hbytes : 0 < bytes)
    (hnum : (bytes - headBytes pos bytes - tailBytes pos bytes) / 4096 ≠ 0) :
    4096 * (if headBytes pos bytes ≠ 0 then blocknr + 1 else blocknr) =
      4096 * blocknr + pos % 4096 + headBytes pos bytes := by
  have hsum := headTail_bytes pos hbytes
  unfold headBytes at *
  by_cases hpos : pos % 4096 = 0
  · rw [hpos, if_neg (by simp)]
    simp
  · rw [if_pos hpos] at *
    split <;> omega

theorem CopyOf.whole {w : NvmmWrite} (hbytes : 0 < bytes) (hw : w ∈ wholeWrites g pos bytes blocknr ubuf tryDele) :
    CopyOf g f pos bytes blocknr ubuf append tryDele w ∨ w.len = 0 := by
  have hsum := headTail_bytes pos hbytes
  by_cases hnum : (bytes - headBytes pos bytes - tailBytes pos bytes) / 4096 ≠ 0
  · have hplace := wholeBlock_place blocknr hbytes hnum
    unfold wholeWrites at hw
    dsimp only at hw
    generalize (if headBytes pos bytes ≠ 0 then blocknr + 1 else blocknr) = first at hw hplace
    generalize (bytes - headBytes pos bytes - tailBytes pos bytes) / 4096 = num at hw hsum
    left
    by_cases hstriped : g.striped = true
    · rw [if_pos hstriped, List.mem_map] at hw
      obtain ⟨i, hi, rfl⟩ := hw
      rw [List.mem_range] at hi
      refine .user _ (headBytes pos bytes + 4096 * i) ?_ ?_ ?_
      · show CopySrc.user (ubuf + headBytes pos bytes + 4096 * i) = _
        rw [Nat.add_assoc]
      · show 4096 * (first + i) + 0 = _
        omega
      · show headBytes pos bytes + 4096 * i + 4096 ≤ bytes
        omega
    · rw [if_neg hstriped, List.mem_singleton] at hw
      rw [hw]
      refine .user _ (headBytes pos bytes) rfl ?_ ?_
      · show 4096 * first + 0 = _
        omega
      · show headBytes pos bytes + num * 4096 ≤ bytes
        omega
  · right
    have hzero : (bytes - headBytes pos bytes - tailBytes pos bytes) / 4096 = 0 := by omega
    unfold wholeWrites at hw
    dsimp only at hw
    rw [hzero] at hw
    split at hw
    · simp at hw
    · rw [List.mem_singleton.mp hw]
      rfl

/-- Bytes written over others. -/
def overlay (pos len : Nat) (buf byte : Nat → UInt8) (x : Nat) : UInt8 :=
  if pos ≤ x ∧ x < pos + len then buf (x - pos) else byte x

/-- The blocks that the tree maps hold the same. -/
def SameMapped (f : FileTree) (data data' : Nat → Nat → UInt8) : Prop :=
  ∀ p entry, f.tree.slot p = some entry → ∀ o < 4096,
    data' (getNvmm (f.entries entry) p) o = data (getNvmm (f.entries entry) p) o

theorem NvmmWrite.stored_le : w.stored g ≤ w.len := by
  unfold NvmmWrite.stored
  split
  · split <;> omega
  · exact le_rfl

theorem oldWrite_stored_le {index offset len : Nat} :
    (oldWrite g f index offset blocknr len tryDele).stored g ≤ len := NvmmWrite.stored_le

/-- What a copy of an old block brings. -/
theorem oldWrite_value {index offset len : Nat} {data' : Nat → Nat → UInt8} (hsame : SameMapped f data data')
    (hcov : (oldWrite g f index offset blocknr len tryDele).Covers g b o) (hblock : b = blocknr) (ho : o < 4096) :
    (oldWrite g f index offset blocknr len tryDele).value user data' b o = f.byte data (4096 * index + o) := by
  have hlo := hcov.1
  change 4096 * blocknr + offset ≤ 4096 * b + o at hlo
  have hplace : offset + (4096 * b + o - (4096 * blocknr + offset)) = o := by omega
  rw [FileTree.byte_page f data index ho]
  unfold NvmmWrite.value oldWrite doNovaNvmmWrite
  cases hslot : f.tree.slot index with
  | none => rfl
  | some entry =>
      dsimp only
      rw [hplace]
      exact hsame index entry hslot o ho

/-- **What a copy stores is right.** -/
theorem CopyOf.value {j : Nat} {data' : Nat → Nat → UInt8} (h : CopyOf g f pos bytes blocknr ubuf append tryDele w)
    (hsame : SameMapped f data data') (hcov : w.Covers g (blocknr + j) o) (ho : o < 4096) :
    w.value user data' (blocknr + j) o =
      overlay pos bytes (fun k => user (ubuf + k)) (f.byte data) (4096 * (pos / 4096 + j) + o) := by
  obtain ⟨hlo, hhi⟩ := hcov
  unfold overlay
  cases h with
  | user w k hsrc hplace hlen =>
      have hstored : w.stored g = w.len := by
        unfold NvmmWrite.stored
        rw [hsrc]
      rw [hplace] at hlo hhi
      rw [hstored] at hhi
      rw [if_pos (by omega)]
      unfold NvmmWrite.value
      rw [hsrc, hplace]
      dsimp only
      congr 1
      omega
  | head happend hpos =>
      have hle : (oldWrite g f (pos / 4096) 0 blocknr (pos % 4096) tryDele).stored g ≤ pos % 4096 := oldWrite_stored_le
      have hhi' : 4096 * (blocknr + j) + o < 4096 * blocknr + 0 +
        (oldWrite g f (pos / 4096) 0 blocknr (pos % 4096) tryDele).stored g := hhi
      obtain rfl : j = 0 := by omega
      rw [if_neg (by omega)]
      exact oldWrite_value hsame ⟨hlo, hhi⟩ rfl ho
  | tail happend hend =>
      have hle : (oldWrite g f ((pos + bytes) / 4096) ((pos + bytes) % 4096)
        (blocknr + ((pos + bytes) / 4096 - pos / 4096)) (4096 - (pos + bytes) % 4096) tryDele).stored g ≤
          4096 - (pos + bytes) % 4096 := oldWrite_stored_le
      have hlo' : 4096 * (blocknr + ((pos + bytes) / 4096 - pos / 4096)) + (pos + bytes) % 4096 ≤
        4096 * (blocknr + j) + o := hlo
      have hhi' : 4096 * (blocknr + j) + o < 4096 * (blocknr + ((pos + bytes) / 4096 - pos / 4096)) +
        (pos + bytes) % 4096 + (oldWrite g f ((pos + bytes) / 4096) ((pos + bytes) % 4096)
        (blocknr + ((pos + bytes) / 4096 - pos / 4096)) (4096 - (pos + bytes) % 4096) tryDele).stored g := hhi
      obtain rfl : j = (pos + bytes) / 4096 - pos / 4096 := by omega
      have hpage : pos / 4096 + ((pos + bytes) / 4096 - pos / 4096) = (pos + bytes) / 4096 := by omega
      rw [if_neg (by omega), hpage]
      exact oldWrite_value hsame ⟨hlo, hhi⟩ rfl ho

/-- A turn stores to the blocks of its pages. -/
theorem CopyOf.within (h : CopyOf g f pos bytes blocknr ubuf append tryDele w) (hbytes : 0 < bytes) (hcov : w.Covers g b o)
    (ho : o < 4096) : blocknr ≤ b ∧ b < blocknr + writeNumBlocks pos bytes := by
  obtain ⟨hlo, hhi⟩ := hcov
  unfold writeNumBlocks
  cases h with
  | user w k hsrc hplace hlen =>
      have hstored : w.stored g = w.len := by
        unfold NvmmWrite.stored
        rw [hsrc]
      omega
  | head happend hpos =>
      have hle : (oldWrite g f (pos / 4096) 0 blocknr (pos % 4096) tryDele).stored g ≤ pos % 4096 := oldWrite_stored_le
      have hlo' : 4096 * blocknr + 0 ≤ 4096 * b + o := hlo
      have hhi' : 4096 * b + o < 4096 * blocknr + 0 +
        (oldWrite g f (pos / 4096) 0 blocknr (pos % 4096) tryDele).stored g := hhi
      omega
  | tail happend hend =>
      have hle : (oldWrite g f ((pos + bytes) / 4096) ((pos + bytes) % 4096)
        (blocknr + ((pos + bytes) / 4096 - pos / 4096)) (4096 - (pos + bytes) % 4096) tryDele).stored g ≤
          4096 - (pos + bytes) % 4096 := oldWrite_stored_le
      have hlo' : 4096 * (blocknr + ((pos + bytes) / 4096 - pos / 4096)) + (pos + bytes) % 4096 ≤ 4096 * b + o := hlo
      have hhi' : 4096 * b + o < 4096 * (blocknr + ((pos + bytes) / 4096 - pos / 4096)) +
        (pos + bytes) % 4096 + (oldWrite g f ((pos + bytes) / 4096) ((pos + bytes) % 4096)
        (blocknr + ((pos + bytes) / 4096 - pos / 4096)) (4096 - (pos + bytes) % 4096) tryDele).stored g := hhi
      omega

/-- The copies of a turn. -/
def turnWrites (g : CopyConfig) (f : FileTree) (pos bytes blocknr ubuf : Nat) (append tryDele : Bool) : List NvmmWrite :=
  partWrites g f pos bytes blocknr ubuf append tryDele ++ wholeWrites g pos bytes blocknr ubuf tryDele

/-- A copy that stores to anything is one of those above. -/
theorem CopyOf.mem (hbytes : 0 < bytes) (hw : w ∈ turnWrites g f pos bytes blocknr ubuf append tryDele)
    (hcov : w.Covers g b o) : CopyOf g f pos bytes blocknr ubuf append tryDele w := by
  rcases List.mem_append.mp hw with hw | hw
  · exact CopyOf.part hbytes hw
  · refine (CopyOf.whole hbytes hw).resolve_right fun hzero => ?_
    have hle : w.stored g ≤ w.len := NvmmWrite.stored_le
    obtain ⟨hlo, hhi⟩ := hcov
    omega

/-- All of the user's bytes are stored. -/
theorem turnWrites_user {x : Nat} (hbytes : 0 < bytes) (hlo : pos ≤ x) (hhi : x < pos + bytes) :
    ∃ w ∈ turnWrites g f pos bytes blocknr ubuf append tryDele,
      w.Covers g (blocknr + (x / 4096 - pos / 4096)) (x % 4096) := by
  have hsum := headTail_bytes pos hbytes
  by_cases hhead : x - pos < headBytes pos bytes
  · have hpos : pos % 4096 ≠ 0 := by
      intro hpos
      unfold headBytes at hhead
      rw [if_neg (by omega)] at hhead
      omega
    unfold headBytes at hhead
    rw [if_pos hpos] at hhead
    refine ⟨doNovaNvmmWrite g blocknr (pos % 4096) (.user ubuf) (min bytes (4096 - pos % 4096)) tryDele, ?_, ?_, ?_⟩
    · unfold turnWrites partWrites
      rw [if_pos hpos]
      simp
    · show 4096 * blocknr + pos % 4096 ≤ _
      omega
    · show _ < 4096 * blocknr + pos % 4096 + min bytes (4096 - pos % 4096)
      omega
  · by_cases htail : bytes - tailBytes pos bytes ≤ x - pos
    · have hcond : (pos + bytes) % 4096 ≠ 0 ∧ (writeNumBlocks pos bytes ≠ 1 ∨ pos % 4096 = 0) := by
        by_contra hcond
        unfold tailBytes at htail
        rw [if_neg hcond] at htail
        omega
      obtain ⟨hbytesTail, hle, hplace⟩ := tailBytes_place hbytes hcond.1 hcond.2
      refine ⟨doNovaNvmmWrite g (blocknr + (writeNumBlocks pos bytes - 1)) 0
        (.user (ubuf + (bytes - (pos + bytes) % 4096))) ((pos + bytes) % 4096) tryDele, ?_, ?_, ?_⟩
      · unfold turnWrites partWrites
        rw [if_pos hcond.1, if_pos hcond.2]
        simp
      · show 4096 * (blocknr + (writeNumBlocks pos bytes - 1)) + 0 ≤ _
        omega
      · show _ < 4096 * (blocknr + (writeNumBlocks pos bytes - 1)) + 0 + (pos + bytes) % 4096
        omega
    · have hnum : (bytes - headBytes pos bytes - tailBytes pos bytes) / 4096 ≠ 0 := by omega
      have hplace := wholeBlock_place blocknr hbytes hnum
      suffices h : ∃ w ∈ wholeWrites g pos bytes blocknr ubuf tryDele,
          w.Covers g (blocknr + (x / 4096 - pos / 4096)) (x % 4096) by
        obtain ⟨w, hw, hcov⟩ := h
        exact ⟨w, List.mem_append_right _ hw, hcov⟩
      unfold wholeWrites
      dsimp only
      generalize (if headBytes pos bytes ≠ 0 then blocknr + 1 else blocknr) = first at hplace ⊢
      generalize (bytes - headBytes pos bytes - tailBytes pos bytes) / 4096 = num at hsum hnum ⊢
      by_cases hstriped : g.striped = true
      · rw [if_pos hstriped]
        refine ⟨_, List.mem_map_of_mem (a := (x - pos - headBytes pos bytes) / 4096)
          (List.mem_range.mpr (by omega)), ?_, ?_⟩
        · show 4096 * (first + (x - pos - headBytes pos bytes) / 4096) + 0 ≤ _
          omega
        · show _ < 4096 * (first + (x - pos - headBytes pos bytes) / 4096) + 0 + 4096
          omega
      · rw [if_neg hstriped]
        refine ⟨_, List.mem_singleton_self _, ?_, ?_⟩
        · show 4096 * first + 0 ≤ _
          omega
        · show _ < 4096 * first + 0 + num * 4096
          omega

/-- Whether a page that is not mapped is filled with as many zeros as there are to be. -/
def ZerosWhole (g : CopyConfig) (f : FileTree) (index len : Nat) (tryDele : Bool) : Prop :=
  f.tree.slot index = none → len % 4 = 0 ∨ (tryDele = true ∧ g.writeDeleSize ≤ len ∧ g.supportClwb = false)

theorem oldWrite_stored_iff {index offset len : Nat} :
    (oldWrite g f index offset blocknr len tryDele).stored g = len ↔ ZerosWhole g f index len tryDele := by
  unfold ZerosWhole NvmmWrite.stored oldWrite doNovaNvmmWrite
  cases f.tree.slot index with
  | some entry => simp
  | none =>
      simp only [forall_const]
      by_cases hdele : tryDele = true ∧ g.writeDeleSize ≤ len ∧ g.supportClwb = false
      · rw [if_pos (by simp [hdele.1, hdele.2.1, hdele.2.2])]
        exact iff_of_true rfl (Or.inr hdele)
      · rw [if_neg (fun hc => hdele (by simpa [and_assoc, and_comm, and_left_comm] using hc))]
        constructor
        · intro hlen
          left
          omega
        · intro hor
          have hmod := hor.resolve_right hdele
          omega

/-- What was before the data and behind it in the pages of the turn. -/
structure OldsWhole (g : CopyConfig) (f : FileTree) (pos bytes : Nat) (tryDele : Bool) : Prop where
  head : pos % 4096 ≠ 0 → ZerosWhole g f (pos / 4096) (pos % 4096) tryDele
  tail : (pos + bytes) % 4096 ≠ 0 → ZerosWhole g f ((pos + bytes) / 4096) (4096 - (pos + bytes) % 4096) tryDele

/-- The blocks a turn is given are not those of mapped pages. -/
def FreshBlocks (f : FileTree) (blocknr num : Nat) : Prop :=
  ∀ p entry, f.tree.slot p = some entry →
    getNvmm (f.entries entry) p < blocknr ∨ blocknr + num ≤ getNvmm (f.entries entry) p

/-- A turn leaves the blocks alone that are mapped. -/
theorem turnWrites_mapped {data' : Nat → Nat → UInt8} (hbytes : 0 < bytes)
    (hfresh : FreshBlocks f blocknr (writeNumBlocks pos bytes))
    (hw : w ∈ turnWrites g f pos bytes blocknr ubuf append tryDele) (hsame : SameMapped f data data') :
    SameMapped f data (w.apply g user data') := by
  intro p entry hslot o ho
  have hnot : ¬ w.Covers g (getNvmm (f.entries entry) p) o := fun hcov => by
    have hin := (CopyOf.mem hbytes hw hcov).within hbytes hcov ho
    rcases hfresh p entry hslot with h | h <;> omega
  rw [NvmmWrite.apply_outside hnot]
  exact hsame p entry hslot o ho

/-- A byte of the new blocks that is stored. -/
theorem turnWrites_byte {j : Nat} (hbytes : 0 < bytes) (hfresh : FreshBlocks f blocknr (writeNumBlocks pos bytes))
    (ho : o < 4096)
    (hcov : ∃ w ∈ turnWrites g f pos bytes blocknr ubuf append tryDele, w.Covers g (blocknr + j) o) :
    applyWrites g user (turnWrites g f pos bytes blocknr ubuf append tryDele) data (blocknr + j) o =
      overlay pos bytes (fun k => user (ubuf + k)) (f.byte data) (4096 * (pos / 4096 + j) + o) :=
  applyWrites_eq (P := SameMapped f data) (fun _ _ _ _ _ => rfl)
    (fun _ hw _ hsame => turnWrites_mapped hbytes hfresh hw hsame)
    (fun _ hw hcov _ hsame => (CopyOf.mem hbytes hw hcov).value hsame hcov ho) (Or.inr hcov)

/-- A byte before the data is stored when the zeros go as far. -/
theorem oldsWhole_head (hpos : pos % 4096 ≠ 0) (ho : o < pos % 4096)
    (hzeros : ZerosWhole g f (pos / 4096) (pos % 4096) tryDele) :
    ∃ w ∈ turnWrites g f pos bytes blocknr ubuf false tryDele, w.Covers g blocknr o := by
  refine ⟨oldWrite g f (pos / 4096) 0 blocknr (pos % 4096) tryDele, ?_, ?_, ?_⟩
  · unfold turnWrites partWrites
    rw [if_pos hpos]
    simp
  · show 4096 * blocknr + 0 ≤ 4096 * blocknr + o
    omega
  · show 4096 * blocknr + o < 4096 * blocknr + 0 + _
    rw [oldWrite_stored_iff.mpr hzeros]
    omega

theorem oldsWhole_tail (hbytes : 0 < bytes) (hend : (pos + bytes) % 4096 ≠ 0) (ho : o < 4096)
    (hlo : (pos + bytes) % 4096 ≤ o)
    (hzeros : ZerosWhole g f ((pos + bytes) / 4096) (4096 - (pos + bytes) % 4096) tryDele) :
    ∃ w ∈ turnWrites g f pos bytes blocknr ubuf false tryDele,
      w.Covers g (blocknr + ((pos + bytes) / 4096 - pos / 4096)) o := by
  obtain ⟨hpage, hnum⟩ := tailPage hbytes hend
  refine ⟨oldWrite g f ((pos + bytes) / 4096) ((pos + bytes) % 4096)
    (blocknr + ((pos + bytes) / 4096 - pos / 4096)) (4096 - (pos + bytes) % 4096) tryDele, ?_, ?_, ?_⟩
  · unfold turnWrites partWrites
    rw [if_pos hend, hpage, hnum]
    simp
  · show 4096 * (blocknr + ((pos + bytes) / 4096 - pos / 4096)) + (pos + bytes) % 4096 ≤ _
    omega
  · show _ < 4096 * (blocknr + ((pos + bytes) / 4096 - pos / 4096)) + (pos + bytes) % 4096 + _
    rw [oldWrite_stored_iff.mpr hzeros]
    omega

/-- **The new blocks of a turn**, once their olds are whole. -/
theorem OldsWhole.byte {j : Nat} (hold : OldsWhole g f pos bytes tryDele) (hbytes : 0 < bytes)
    (hfresh : FreshBlocks f blocknr (writeNumBlocks pos bytes)) (hj : j < writeNumBlocks pos bytes) (ho : o < 4096) :
    applyWrites g user (turnWrites g f pos bytes blocknr ubuf false tryDele) data (blocknr + j) o =
      overlay pos bytes (fun k => user (ubuf + k)) (f.byte data) (4096 * (pos / 4096 + j) + o) := by
  refine turnWrites_byte hbytes hfresh ho ?_
  unfold writeNumBlocks at hj
  by_cases hlo : pos ≤ 4096 * (pos / 4096 + j) + o
  · by_cases hhi : 4096 * (pos / 4096 + j) + o < pos + bytes
    · have hcov : ∃ w ∈ turnWrites g f pos bytes blocknr ubuf false tryDele, w.Covers g
          (blocknr + ((4096 * (pos / 4096 + j) + o) / 4096 - pos / 4096)) ((4096 * (pos / 4096 + j) + o) % 4096) :=
        turnWrites_user hbytes hlo hhi
      rwa [show (4096 * (pos / 4096 + j) + o) / 4096 - pos / 4096 = j by omega,
        show (4096 * (pos / 4096 + j) + o) % 4096 = o by omega] at hcov
    · have hend : (pos + bytes) % 4096 ≠ 0 := by omega
      obtain rfl : j = (pos + bytes) / 4096 - pos / 4096 := by omega
      exact oldsWhole_tail hbytes hend ho (by omega) (hold.tail hend)
  · have hpos : pos % 4096 ≠ 0 := by omega
    obtain rfl : j = 0 := by omega
    exact oldsWhole_head hpos (by omega) (hold.head hpos)

/-- Else a byte of a page that was not mapped is left as it is. -/
theorem oldsWhole_not (hbytes : 0 < bytes) (hold : ¬ OldsWhole g f pos bytes tryDele) :
    ∃ j o, j < writeNumBlocks pos bytes ∧ o < 4096 ∧ f.tree.slot (pos / 4096 + j) = none ∧
      ¬ (pos ≤ 4096 * (pos / 4096 + j) + o ∧ 4096 * (pos / 4096 + j) + o < pos + bytes) ∧
      ∀ blocknr ubuf, ∀ w ∈ turnWrites g f pos bytes blocknr ubuf false tryDele, ¬ w.Covers g (blocknr + j) o := by
  have hzeros : ∀ index offset blocknr len, ¬ ZerosWhole g f index len tryDele →
      f.tree.slot index = none ∧ (oldWrite g f index offset blocknr len tryDele).stored g < len := by
    intro index offset blocknr len hnot
    refine ⟨?_, lt_of_le_of_ne oldWrite_stored_le fun heq => hnot (oldWrite_stored_iff.mp heq)⟩
    by_contra hslot
    exact hnot fun hnone => absurd hnone hslot
  have hnum : ∀ j, pos / 4096 + j ≤ (pos + bytes - 1) / 4096 → j < writeNumBlocks pos bytes := by
    intro j hj
    unfold writeNumBlocks
    omega
  by_cases hhead : pos % 4096 ≠ 0 → ZerosWhole g f (pos / 4096) (pos % 4096) tryDele
  · obtain ⟨hend, htail⟩ : (pos + bytes) % 4096 ≠ 0 ∧
        ¬ ZerosWhole g f ((pos + bytes) / 4096) (4096 - (pos + bytes) % 4096) tryDele := by
      by_contra hall
      exact hold ⟨hhead, fun hend => by_contra fun htail => hall ⟨hend, htail⟩⟩
    obtain ⟨hslot, -⟩ := hzeros _ 0 0 _ htail
    have hpage : pos / 4096 + ((pos + bytes) / 4096 - pos / 4096) = (pos + bytes) / 4096 := by omega
    refine ⟨(pos + bytes) / 4096 - pos / 4096, 4095, hnum _ (by omega), by decide, by rw [hpage]; exact hslot,
      by omega, fun blocknr ubuf w hw hcov => ?_⟩
    have hcopy := CopyOf.mem hbytes hw hcov
    obtain ⟨hlo, hhi⟩ := hcov
    cases hcopy with
    | user w k hsrc hplace hlen =>
        have hle : w.stored g ≤ w.len := NvmmWrite.stored_le
        omega
    | head happend hpos =>
        have hle : (oldWrite g f (pos / 4096) 0 blocknr (pos % 4096) tryDele).stored g ≤ pos % 4096 := oldWrite_stored_le
        have hhi' : 4096 * (blocknr + ((pos + bytes) / 4096 - pos / 4096)) + 4095 < 4096 * blocknr + 0 +
          (oldWrite g f (pos / 4096) 0 blocknr (pos % 4096) tryDele).stored g := hhi
        omega
    | tail happend hend =>
        have hlt := (hzeros _ ((pos + bytes) % 4096) (blocknr + ((pos + bytes) / 4096 - pos / 4096)) _ htail).2
        have hhi' : 4096 * (blocknr + ((pos + bytes) / 4096 - pos / 4096)) + 4095 <
          4096 * (blocknr + ((pos + bytes) / 4096 - pos / 4096)) + (pos + bytes) % 4096 +
            (oldWrite g f ((pos + bytes) / 4096) ((pos + bytes) % 4096)
              (blocknr + ((pos + bytes) / 4096 - pos / 4096)) (4096 - (pos + bytes) % 4096) tryDele).stored g := hhi
        omega
  · obtain ⟨hpos, hhead⟩ : pos % 4096 ≠ 0 ∧ ¬ ZerosWhole g f (pos / 4096) (pos % 4096) tryDele := by
      by_contra hall
      exact hhead fun hpos => by_contra fun hhead => hall ⟨hpos, hhead⟩
    obtain ⟨hslot, -⟩ := hzeros _ 0 0 _ hhead
    refine ⟨0, pos % 4096 - 1, hnum _ (by omega), by omega, hslot, by omega, fun blocknr ubuf w hw hcov => ?_⟩
    have hcopy := CopyOf.mem hbytes hw hcov
    obtain ⟨hlo, hhi⟩ := hcov
    cases hcopy with
    | user w k hsrc hplace hlen => omega
    | head happend hpos =>
        have hlt := (hzeros _ 0 blocknr _ hhead).2
        have hhi' : 4096 * (blocknr + 0) + (pos % 4096 - 1) < 4096 * blocknr + 0 +
          (oldWrite g f (pos / 4096) 0 blocknr (pos % 4096) tryDele).stored g := hhi
        omega
    | tail happend hend =>
        have hlo' : 4096 * (blocknr + ((pos + bytes) / 4096 - pos / 4096)) + (pos + bytes) % 4096 ≤
          4096 * (blocknr + 0) + (pos % 4096 - 1) := hlo
        omega

end

end

/-! ### In a write -/

section

variable {mode : WriteMode} {c : WriteCall} {g : CopyConfig} {w w₁ w' : WriteLoop} {s : CopyLoop} {t : WriteTurn}

/-- Only copies at the head and at the tail fail. -/
theorem turnCopies_err {f : FileTree} {pos bytes blocknr ubuf : Nat} {append tryDele : Bool}
    (h : (turnCopies g f pos bytes blocknr ubuf append tryDele).err ≠ none) :
    (pos % 4096 ≠ 0 || (pos + bytes) % 4096 ≠ 0) = true := by
  by_contra hpart
  unfold turnCopies at h
  dsimp only at h
  rw [if_neg hpart] at h
  exact h rfl

theorem WriteLoop.take_ok (h : w.take mode c t = (w₁, .ok ())) :
    w₁.pos = w.pos ∧ w₁.count = w.count ∧ w₁.file = w.file ∧ w₁.numBlocks = w.numBlocks := by
  unfold WriteLoop.take at h
  split at h
  · cases h
    exact ⟨rfl, rfl, rfl, rfl⟩
  · split at h
    · cases h
    · cases h
      exact ⟨rfl, rfl, rfl, rfl⟩

/-- The copies of a turn that goes well went well. -/
theorem writeTurn_copies (h : writeTurn mode c w (t.copied (w.turnCopies mode c g s t)) = (w', .ok ())) :
    ∃ w₁, w.take mode c t = (w₁, .ok ()) ∧
      w.turnCopies mode c g s t = some (w₁.copies mode c g s (w.source mode c)) ∧
      (w₁.copies mode c g s (w.source mode c)).err = none ∧ w'.pos = w.pos + w₁.bytes := by
  cases htake : w.take mode c t with
  | mk w₁ res =>
      have htake' : w.take mode c (t.copied (w.turnCopies mode c g s t)) = (w₁, res) := htake
      unfold writeTurn at h
      rw [htake'] at h
      cases res with
      | error ret => cases h
      | ok u =>
          have hcopies : w.turnCopies mode c g s t = some (w₁.copies mode c g s (w.source mode c)) := by
            unfold WriteLoop.turnCopies
            rw [htake]
          dsimp only at h
          split at h
          · cases h
          · rename_i w₂ hcopy
            refine ⟨w₁, rfl, hcopies, ?_, ?_⟩
            · by_contra herr
              obtain ⟨e, he⟩ := Option.ne_none_iff_exists'.mp herr
              have hpart : w₁.partialBlocks = true := by
                unfold WriteLoop.copies at herr
                split at herr <;> exact turnCopies_err herr
              have hheadTail : (t.copied (w.turnCopies mode c g s t)).headTail = some e := by
                rw [hcopies]
                exact he
              unfold WriteLoop.copy at hcopy
              rw [hpart, hheadTail] at hcopy
              cases hcopy
            · rw [WriteLoop.copy_ok hcopy] at h
              rw [← (WriteLoop.take_ok htake).1]
              split at h
              · cases h
                rfl
              · split at h
                · cases h
                · rename_i w₃ happend
                  cases h
                  unfold novaAppendFileWriteEntry at happend
                  split at happend
                  · cases happend
                  · cases happend
                  · cases happend
                    rfl

end

end Parfs
