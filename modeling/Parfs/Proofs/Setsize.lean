/-
What a change of size touches.

The pages behind the new size are cut, and the rest of its own page is cleared.  Where that page is
a hole the lookup returns zero, which is the place of block 0: the tail of that block is cleared,
whoever has it, and its checksums are stored.  A page count is taken from a place by a shift, which
gives the block back only where blocks lie in order, so on several devices the checksums go to the
slot of another block.  A file that grows is not cleared at all.
-/
import Parfs.Setsize
import Parfs.Proofs.Checksum
import Parfs.Proofs.FileHoles
import Parfs.Proofs.FileRead
import Parfs.Proofs.Layout

namespace Parfs

open Lib

/-- What the blocks hold. -/
def NvmLayout.blockBytes (l : NvmLayout) (m : ByteMem) (b o : Nat) : UInt8 := m (l.novaGetBlockOff b .b4K .data + o)

/-- The file has the block under no page. -/
def FileTree.Spares (f : FileTree) (b : Nat) : Prop := ∀ p x, f.tree.slot p = some x → getNvmm (f.entries x) p ≠ b

namespace SetsizeCall

variable (c : SetsizeCall)

/-- The rest of a page is to be cleared. -/
def Clears : Prop := c.newsize < c.oldsize ∧ c.newsize % 4096 ≠ 0

instance : Decidable c.Clears := inferInstanceAs (Decidable (_ ∧ _))

/-- The first page behind the new size. -/
def cutFrom : Nat := (c.newsize + 4095) / 4096

/-- Pages are cut. -/
def Cuts : Prop := c.cutFrom ≤ (c.oldsize - 1) / 4096

instance : Decidable c.Cuts := inferInstanceAs (Decidable (_ ≤ _))

variable (f : FileTree)

/-- The block whose tail is to be cleared. -/
def tailBlock : Option Nat :=
  if c.Clears then (f.tree.slot (c.newsize / 4096)).map fun x => getNvmm (f.entries x) (c.newsize / 4096) else none

/-- The block whose tail is cleared. -/
def wipedBlock : Nat :=
  match f.tree.slot (c.newsize / 4096) with
  | some x => getNvmm (f.entries x) (c.newsize / 4096)
  | none => 0

/-- The byte of the file is in what is cleared. -/
def Wipes (x : Nat) : Prop :=
  c.Clears ∧ c.newsize % 4096 ≤ x % 4096 ∧
    ∃ e, f.tree.slot (x / 4096) = some e ∧ getNvmm (f.entries e) (x / 4096) = c.wipedBlock f

end SetsizeCall

/-- **A change of size touches its file only.** -/
structure SetsizeExact (c : SetsizeCall) (l : NvmLayout) (f : FileTree) (m : ByteMem) (r : SetsizeResult) : Prop where
  size : r.iSize = c.newsize
  reads : ∀ x, r.file.byte (l.blockBytes r.mem) x =
    if x < min c.oldsize c.newsize then f.byte (l.blockBytes m) x else 0
  frame : ∀ b < l.dataNumBlocks, f.Spares b → ∀ o < 4096, l.blockBytes r.mem b o = l.blockBytes m b o
  csums : c.dataCsum = true → ∀ s b strp, r.csums s b strp =
    if c.tailBlock f = some b ∧ strp < 8 then stripeCrc (l.blockBytes r.mem b) (512 * strp) else s b strp

/-- When it does. -/
structure SetsizeCall.Harmless (c : SetsizeCall) (l : NvmLayout) (f : FileTree) (m : ByteMem) : Prop where
  hole : c.Clears → f.tree.slot (c.newsize / 4096) = none →
    (c.dataCsum = true → c.kmalloc = false) ∧ ∀ o, c.newsize % 4096 ≤ o → o < 4096 →
      l.blockBytes m 0 o = 0 ∨ ∃ p x, c.cutFrom ≤ p ∧ f.tree.slot p = some x ∧ getNvmm (f.entries x) p = 0
  past : ∀ x, c.oldsize ≤ x → (c.Cuts → x / 4096 < c.cutFrom) → f.byte (l.blockBytes m) x = 0 ∨ c.Wipes f x
  place : c.dataCsum = true → ∀ b, c.tailBlock f = some b →
    c.kmalloc = true ∧ l.novaGetBlockOff b .b4K .data = 4096 * b

section

variable {c : SetsizeCall} {l : NvmLayout} {f : FileTree} {m : ByteMem} {devs : List PmemDevice} {b b' o x p : Nat}

/-! ### Places of blocks -/

theorem novaGetBlockOff_dvd : 4096 ∣ l.novaGetBlockOff b .b4K .data :=
  (Nat.dvd_mod_iff (by decide : 4096 ∣ 2 ^ 64)).2 (Nat.dvd_mul_left _ _)

theorem novaGetBlockOff_inj (hl : StripingOk devs l .b4K) (hb : b < l.dataNumBlocks) (hb' : b' < l.dataNumBlocks)
    (h : l.novaGetBlockOff b .b4K .data = l.novaGetBlockOff b' .b4K .data) : b = b' :=
  hl.distinct b hb b' hb' (congrArg (l.novaGetVirtAddrFromOffset · .data) h)

/-- Clearing the tail of a block. -/
theorem blockBytes_write (hl : StripingOk devs l .b4K) (hb : b < l.dataNumBlocks) (hb' : b' < l.dataNumBlocks) (ho : o < 4096)
    {offset : Nat} (hoff : offset ≤ 4096) :
    l.blockBytes (m.write (l.novaGetBlockOff b' .b4K .data + offset) (List.replicate (4096 - offset) 0)) b o =
      if b = b' ∧ offset ≤ o then 0 else l.blockBytes m b o := by
  have hdvd := novaGetBlockOff_dvd (l := l) (b := b)
  have hdvd' := novaGetBlockOff_dvd (l := l) (b := b')
  unfold NvmLayout.blockBytes
  by_cases hin : b = b' ∧ offset ≤ o
  · obtain ⟨rfl, hle⟩ := hin
    rw [if_pos ⟨rfl, hle⟩]
    have hplace : l.novaGetBlockOff b .b4K .data + o = l.novaGetBlockOff b .b4K .data + offset + (o - offset) := by omega
    rw [hplace, ByteMem.write_of_inside (by simp; omega)]
    simp
  · rw [if_neg hin]
    refine ByteMem.write_of_outside ?_
    rw [List.length_replicate]
    by_cases hbb : b = b'
    · subst hbb
      left
      omega
    · have hne : l.novaGetBlockOff b .b4K .data ≠ l.novaGetBlockOff b' .b4K .data := fun h =>
        hbb (novaGetBlockOff_inj hl hb hb' h)
      omega

/-- The first block is at the start of the data area, on every configuration. -/
theorem novaGetBlockOff_zero {metaSeparate : Bool} (hdevs : DevicesOk devs) (h : novaConfigNvmm metaSeparate devs = .ok l) :
    l.novaGetBlockOff 0 .b4K .data = 0 := by
  have hstart : ∀ l' : NvmLayout, l'.startBlock (0 % l'.dataNvmNum + l'.dataHeadNvmIdx) = 0 →
      l'.novaGetBlockOff 0 .b4K .data = 0 := by
    intro l' hl'
    have hidx : l'.novaBlknrToNvmidx 0 .b4K .data = 0 % l'.dataNvmNum + l'.dataHeadNvmIdx := by
      simp [NvmLayout.novaBlknrToNvmidx, novaBlknrToBlkidx]
    unfold NvmLayout.novaGetBlockOff
    rw [hidx, hl']
    simp [NvmLayout.novaBlockToNvmoff, novaBlknrToBlkidx]
  unfold novaConfigNvmm at h
  rcases devs with _ | ⟨d₀, _ | ⟨d₁, _ | ⟨d₂, ds⟩⟩⟩
  · cases h
  · exact checked_inj h ▸ hstart _ rfl
  · rw [← checked_inj h]
    split
    · exact hstart _ rfl
    · exact hstart _ (by simp [novaConfig2Nvmm])
  · rw [← checked_inj h]
    refine hstart _ ?_
    rw [Nat.zero_mod, Nat.zero_add]
    obtain ⟨-, hlowest⟩ := lowestLoop_spec (d₁ :: d₂ :: ds) (fun d hd => (hdevs.mapped d (List.mem_cons_of_mem _ hd)).1)
      0 0 0 1 (by decide)
    rcases hlowest with ⟨-, hne, -⟩ | ⟨k, d, hk, hloop, -, -⟩
    · exact absurd rfl (hne (by simp))
    · dsimp only [novaConfig3Nvmm]
      rw [hloop]
      have hget : (d₀ :: d₁ :: d₂ :: ds)[1 + k]? = some d := by rw [Nat.add_comm, List.getElem?_cons_succ]; exact hk
      dsimp only
      rw [hget]
      simp [subU64]

/-! ### What the call leaves -/

/-- The blocks of the file are on the devices. -/
def FileTree.OnDevices (f : FileTree) (l : NvmLayout) : Prop :=
  ∀ p x, f.tree.slot p = some x → getNvmm (f.entries x) p < l.dataNumBlocks

theorem SetsizeCall.wipedBlock_lt (hnum : 0 < l.dataNumBlocks) (hf : f.OnDevices l) : c.wipedBlock f < l.dataNumBlocks := by
  unfold wipedBlock
  cases hslot : f.tree.slot (c.newsize / 4096) with
  | none => exact hnum
  | some x => exact hf _ x hslot

theorem novaFindNvmmBlock_eq (hzero : l.novaGetBlockOff 0 .b4K .data = 0) :
    l.novaFindNvmmBlock f (c.newsize / 4096) = l.novaGetBlockOff (c.wipedBlock f) .b4K .data := by
  unfold NvmLayout.novaFindNvmmBlock SetsizeCall.wipedBlock
  cases f.tree.slot (c.newsize / 4096) with
  | none => exact hzero.symm
  | some x => rfl

/-- The call clears, or leaves memory and checksums alone. -/
theorem novaSetsize_cleared (hzero : l.novaGetBlockOff 0 .b4K .data = 0) :
    (c.Clears → (c.novaSetsize l f m).mem = m.write (l.novaGetBlockOff (c.wipedBlock f) .b4K .data + c.newsize % 4096)
        (List.replicate (4096 - c.newsize % 4096) 0) ∧
      (c.novaSetsize l f m).csums = if c.dataCsum then c.novaUpdateTruncatedBlockCsum l f (c.novaSetsize l f m).mem else id) ∧
      (¬c.Clears → (c.novaSetsize l f m).mem = m ∧ (c.novaSetsize l f m).csums = id) := by
  have hmem : (c.novaSetsize l f m).mem = (if c.newsize ≠ c.oldsize then c.novaClearLastPageTail l f m else (m, id)).1 := rfl
  have hcsums : (c.novaSetsize l f m).csums = (if c.newsize ≠ c.oldsize then c.novaClearLastPageTail l f m else (m, id)).2 := rfl
  rw [hmem, hcsums]
  unfold SetsizeCall.Clears
  constructor
  · rintro ⟨hlt, hin⟩
    rw [if_pos (by omega)]
    unfold SetsizeCall.novaClearLastPageTail
    dsimp only
    rw [if_neg (by omega), novaFindNvmmBlock_eq hzero]
    exact ⟨rfl, rfl⟩
  · intro hclears
    by_cases hne : c.newsize ≠ c.oldsize
    · rw [if_pos hne]
      unfold SetsizeCall.novaClearLastPageTail
      dsimp only
      rw [if_pos (by omega)]
      exact ⟨rfl, rfl⟩
    · rw [if_neg hne]
      exact ⟨rfl, rfl⟩

theorem blockBytes_novaSetsize (hzero : l.novaGetBlockOff 0 .b4K .data = 0) (hl : StripingOk devs l .b4K)
    (hnum : 0 < l.dataNumBlocks) (hf : f.OnDevices l) (hb : b < l.dataNumBlocks) (ho : o < 4096) :
    l.blockBytes (c.novaSetsize l f m).mem b o =
      if c.Clears ∧ b = c.wipedBlock f ∧ c.newsize % 4096 ≤ o then 0 else l.blockBytes m b o := by
  obtain ⟨hdo, hnot⟩ := novaSetsize_cleared (c := c) (f := f) (m := m) hzero
  by_cases hclears : c.Clears
  · rw [(hdo hclears).1, blockBytes_write hl hb (c.wipedBlock_lt hnum hf) ho (Nat.mod_lt _ (by decide)).le]
    simp only [hclears, true_and]
  · rw [(hnot hclears).1, if_neg fun h => hclears h.1]

/-- The pages of the new file are those of the old one that are not cut. -/
theorem novaSetsize_file (h : f.NoHole) :
    (∀ q, (c.novaSetsize l f m).file.tree.slot q = if c.Cuts ∧ c.cutFrom ≤ q then none else f.tree.slot q) ∧
      SameExtents f.entries (c.novaSetsize l f m).file.entries := by
  have hfile : (c.novaSetsize l f m).file = novaTruncateFileBlocks c.snapshots f c.newsize c.oldsize c.epochId := rfl
  have hlast : (if c.oldsize = 0 then 0 else (c.oldsize - 1) / 4096) = (c.oldsize - 1) / 4096 := by
    split
    · rename_i hold
      rw [hold]
    · rfl
  rw [hfile]
  unfold novaTruncateFileBlocks SetsizeCall.Cuts SetsizeCall.cutFrom
  dsimp only
  rw [hlast]
  by_cases hcut : (c.newsize + 4095) / 4096 > (c.oldsize - 1) / 4096
  · rw [if_pos hcut]
    refine ⟨fun q => ?_, SameExtents.refl⟩
    rw [if_neg fun hq => by omega]
  · rw [if_neg hcut]
    obtain ⟨cut, hspec⟩ : ∃ cut, Deleted c.snapshots f ((c.newsize + 4095) / 4096) true false c.epochId cut
      (novaDeleteFileTree c.snapshots f ((c.newsize + 4095) / 4096) true false c.epochId) := h.deleted
    refine ⟨fun q => ?_, hspec.extents⟩
    rw [hspec.slots]
    simp only [not_lt.1 hcut, true_and]

/-- A byte of a mapped page. -/
theorem FileTree.byte_mapped {data : Nat → Nat → UInt8} {e : Nat} (h : f.tree.slot (x / 4096) = some e) :
    f.byte data x = data (getNvmm (f.entries e) (x / 4096)) (x % 4096) := by
  unfold FileTree.byte
  rw [h]

theorem FileTree.byte_hole {data : Nat → Nat → UInt8} (h : f.tree.slot (x / 4096) = none) : f.byte data x = 0 := by
  unfold FileTree.byte
  rw [h]

/-- **What the file reads as afterwards.** -/
theorem novaSetsize_byte (hzero : l.novaGetBlockOff 0 .b4K .data = 0) (hl : StripingOk devs l .b4K)
    (hnum : 0 < l.dataNumBlocks) (hf : f.OnDevices l) (h : f.NoHole) (x : Nat) :
    (c.Cuts ∧ c.cutFrom ≤ x / 4096 ∨ c.Wipes f x →
        (c.novaSetsize l f m).file.byte (l.blockBytes (c.novaSetsize l f m).mem) x = 0) ∧
      (¬(c.Cuts ∧ c.cutFrom ≤ x / 4096) → ¬c.Wipes f x →
        (c.novaSetsize l f m).file.byte (l.blockBytes (c.novaSetsize l f m).mem) x = f.byte (l.blockBytes m) x) := by
  obtain ⟨hslots, hext⟩ := novaSetsize_file (c := c) (l := l) (m := m) h
  have hslot := hslots (x / 4096)
  have hmod : x % 4096 < 4096 := Nat.mod_lt _ (by decide)
  by_cases hcut : c.Cuts ∧ c.cutFrom ≤ x / 4096
  · rw [if_pos hcut] at hslot
    exact ⟨fun _ => FileTree.byte_hole hslot, fun hnot => absurd hcut hnot⟩
  · rw [if_neg hcut] at hslot
    cases hold : f.tree.slot (x / 4096) with
    | none =>
        rw [hold] at hslot
        exact ⟨fun _ => FileTree.byte_hole hslot, fun _ _ => (FileTree.byte_hole hslot).trans (FileTree.byte_hole hold).symm⟩
    | some e =>
        rw [hold] at hslot
        rw [FileTree.byte_mapped hslot, FileTree.byte_mapped hold, hext.getNvmm,
          blockBytes_novaSetsize hzero hl hnum hf (hf _ _ hold) hmod]
        refine ⟨fun hor => ?_, fun _ hnot => ?_⟩
        · obtain ⟨hclears, htail, e', he', hwiped⟩ := hor.resolve_left hcut
          obtain rfl : e = e' := Option.some.inj (hold.symm.trans he')
          rw [if_pos ⟨hclears, hwiped, htail⟩]
        · rw [if_neg fun hin => hnot ⟨hin.1, hin.2.2, e, hold, hin.2.1⟩]

/-- What is done to the checksums. -/
theorem novaSetsize_csums (hzero : l.novaGetBlockOff 0 .b4K .data = 0) (hclears : c.Clears) (hcsum : c.dataCsum = true)
    (s : CsumSlots) (b strp : Nat) :
    (c.novaSetsize l f m).csums s b strp =
      if c.kmalloc = true ∧ b = novaGetBlocknr (l.novaGetBlockOff (c.wipedBlock f) .b4K .data) ∧ strp < 8 then
        stripeCrc (l.blockBytes (c.novaSetsize l f m).mem (c.wipedBlock f)) (512 * strp)
      else s b strp := by
  rw [((novaSetsize_cleared hzero).1 hclears).2, if_pos hcsum]
  generalize (c.novaSetsize l f m).mem = m'
  unfold SetsizeCall.novaUpdateTruncatedBlockCsum
  rw [novaFindNvmmBlock_eq hzero]
  cases c.kmalloc with
  | false => simp
  | true =>
      have hstores := stores_novaUpdateBlockCsum (p := fun o => m' (l.novaGetBlockOff (c.wipedBlock f) .b4K .data + o))
        c.zeroCsum 1 (novaGetBlocknr (l.novaGetBlockOff (c.wipedBlock f) .b4K .data)) 0 s b strp
      have hcrc : ∀ b', b' = novaGetBlocknr (l.novaGetBlockOff (c.wipedBlock f) .b4K .data) →
          blocksCrc (fun o => m' (l.novaGetBlockOff (c.wipedBlock f) .b4K .data + o))
            (novaGetBlocknr (l.novaGetBlockOff (c.wipedBlock f) .b4K .data)) 0 b' strp =
          stripeCrc (l.blockBytes m' (c.wipedBlock f)) (512 * strp) := by
        rintro b' rfl
        unfold blocksCrc
        rw [Nat.sub_self, Nat.mul_zero, Nat.zero_add]
        rfl
      refine hstores.trans ?_
      by_cases hb : b = novaGetBlocknr (l.novaGetBlockOff (c.wipedBlock f) .b4K .data) ∧ strp < 8
      · rw [if_pos (by omega), if_pos ⟨rfl, hb⟩, hcrc b hb.1]
      · rw [if_neg (by omega), if_neg fun h => hb h.2]

/-! ### The condition -/

theorem SetsizeCall.wipedBlock_mapped {e : Nat} (h : f.tree.slot (c.newsize / 4096) = some e) :
    c.wipedBlock f = getNvmm (f.entries e) (c.newsize / 4096) := by
  unfold wipedBlock
  rw [h]

theorem SetsizeCall.wipedBlock_hole (h : f.tree.slot (c.newsize / 4096) = none) : c.wipedBlock f = 0 := by
  unfold wipedBlock
  rw [h]

/-- What is cleared in a mapped page is behind the new size. -/
theorem SetsizeCall.Wipes.mapped {e : Nat} (hwipes : c.Wipes f x) (hapart : f.BlocksApart)
    (h : f.tree.slot (c.newsize / 4096) = some e) : c.newsize ≤ x := by
  obtain ⟨-, htail, e', he', hblock⟩ := hwipes
  rw [c.wipedBlock_mapped h] at hblock
  have hpage := hapart _ _ _ _ he' h hblock
  omega

/-- Between the sizes everything is cut, cleared or a hole. -/
theorem SetsizeCall.between (hlo : c.newsize ≤ x) (hhi : x < c.oldsize) (hcut : ¬(c.Cuts ∧ c.cutFrom ≤ x / 4096))
    (hwipes : ¬c.Wipes f x) : f.tree.slot (x / 4096) = none := by
  have hpage : x / 4096 < c.cutFrom := by
    by_contra hge
    refine hcut ⟨?_, not_lt.1 hge⟩
    unfold Cuts
    have : x / 4096 ≤ (c.oldsize - 1) / 4096 := Nat.div_le_div_right (by omega)
    omega
  unfold cutFrom at hpage
  have hsame : x / 4096 = c.newsize / 4096 := by omega
  cases hslot : f.tree.slot (x / 4096) with
  | none => rfl
  | some e =>
      refine absurd ⟨⟨by omega, by omega⟩, by omega, e, hslot, ?_⟩ hwipes
      rw [c.wipedBlock_mapped (hsame ▸ hslot), hsame]

theorem SetsizeCall.tailBlock_eq_some : c.tailBlock f = some b ↔
    c.Clears ∧ ∃ e, f.tree.slot (c.newsize / 4096) = some e ∧ b = c.wipedBlock f := by
  unfold tailBlock wipedBlock
  by_cases hclears : c.Clears
  · rw [if_pos hclears]
    cases f.tree.slot (c.newsize / 4096) with
    | none => simp
    | some e => simp [hclears, eq_comm]
  · simp [hclears]

theorem novaGetBlocknr_eq_iff : novaGetBlocknr (l.novaGetBlockOff b .b4K .data) = b ↔
    l.novaGetBlockOff b .b4K .data = 4096 * b := by
  have hdvd := novaGetBlockOff_dvd (l := l) (b := b)
  unfold novaGetBlocknr
  omega

/-- The file reads right, and other blocks stay. -/
theorem novaSetsize_bytes_iff (hzero : l.novaGetBlockOff 0 .b4K .data = 0) (hl : StripingOk devs l .b4K)
    (hnum : 0 < l.dataNumBlocks) (hf : f.OnDevices l) (hapart : f.BlocksApart) (h : f.NoHole) :
    ((∀ x, (c.novaSetsize l f m).file.byte (l.blockBytes (c.novaSetsize l f m).mem) x =
        if x < min c.oldsize c.newsize then f.byte (l.blockBytes m) x else 0) ∧
      ∀ b < l.dataNumBlocks, f.Spares b → ∀ o < 4096, l.blockBytes (c.novaSetsize l f m).mem b o = l.blockBytes m b o) ↔
      (c.Clears → f.tree.slot (c.newsize / 4096) = none → ∀ o, c.newsize % 4096 ≤ o → o < 4096 →
        l.blockBytes m 0 o = 0 ∨ ∃ p x, c.cutFrom ≤ p ∧ f.tree.slot p = some x ∧ getNvmm (f.entries x) p = 0) ∧
      ∀ x, c.oldsize ≤ x → (c.Cuts → x / 4096 < c.cutFrom) → f.byte (l.blockBytes m) x = 0 ∨ c.Wipes f x := by
  have hbyte := novaSetsize_byte (c := c) (m := m) hzero hl hnum hf h
  have hblock := fun b o => blockBytes_novaSetsize (c := c) (m := m) (b := b) (o := o) hzero hl hnum hf
  have hcutFrom : c.newsize ≤ 4096 * c.cutFrom ∧ c.newsize / 4096 ≤ c.cutFrom := by
    unfold SetsizeCall.cutFrom
    omega
  constructor
  · rintro ⟨hreads, hframe⟩
    refine ⟨fun hclears hslot o htail ho => ?_, fun x hx hcut => ?_⟩
    · have hafter := hblock 0 o hnum ho
      rw [if_pos ⟨hclears, (c.wipedBlock_hole hslot).symm, htail⟩] at hafter
      by_cases hspares : f.Spares 0
      · left
        rw [← hframe 0 hnum hspares o ho, hafter]
      · unfold FileTree.Spares at hspares
        push Not at hspares
        obtain ⟨p, e, hp, hpblock⟩ := hspares
        by_cases hbehind : c.cutFrom ≤ p
        · exact Or.inr ⟨p, e, hbehind, hp, hpblock⟩
        · -- block 0 is of a page before the new size
          left
          have hpage : (4096 * p + o) / 4096 = p ∧ (4096 * p + o) % 4096 = o := by omega
          have hne : p ≠ c.newsize / 4096 := fun heq => by rw [heq, hslot] at hp; cases hp
          have hlt : 4096 * p + o < c.newsize := by
            unfold SetsizeCall.cutFrom at hbehind
            omega
          have hread := hreads (4096 * p + o)
          have hclears' := hclears.1
          rw [if_pos (lt_min (by omega) hlt), (hbyte _).1 (Or.inr ⟨hclears, by omega, e, by rw [hpage.1]; exact hp,
            by rw [hpage.1, hpblock, c.wipedBlock_hole hslot]⟩), FileTree.byte_mapped (by rw [hpage.1]; exact hp), hpage.1,
            hpage.2, hpblock] at hread
          exact hread.symm
    · by_cases hwipes : c.Wipes f x
      · exact Or.inr hwipes
      · left
        rw [← (hbyte x).2 (fun hin => by have := hcut hin.1; omega) hwipes, hreads x, if_neg (by omega)]
  · rintro ⟨hhole, hpast⟩
    refine ⟨fun x => ?_, fun b hb hspares o ho => ?_⟩
    · by_cases hmin : x < min c.oldsize c.newsize
      · rw [if_pos hmin]
        have hnew : x < c.newsize := lt_of_lt_of_le hmin (min_le_right _ _)
        have hcut : ¬(c.Cuts ∧ c.cutFrom ≤ x / 4096) := fun hin => by omega
        by_cases hwipes : c.Wipes f x
        · -- then the page of the new size is a hole, and block 0 holds zeros there
          cases hslot : f.tree.slot (c.newsize / 4096) with
          | some e =>
              have := hwipes.mapped hapart hslot
              omega
          | none =>
              obtain ⟨hclears, htail, e, he, hpblock⟩ := hwipes
              rw [c.wipedBlock_hole hslot] at hpblock
              rw [(hbyte x).1 (Or.inr ⟨hclears, htail, e, he, by rw [hpblock, c.wipedBlock_hole hslot]⟩),
                FileTree.byte_mapped he, hpblock]
              rcases hhole hclears hslot (x % 4096) htail (Nat.mod_lt _ (by decide)) with hz | ⟨p, e', hbehind, hp, hp0⟩
              · exact hz.symm
              · have hpage := hapart _ _ _ _ he hp (hpblock.trans hp0.symm)
                omega
        · exact (hbyte x).2 hcut hwipes
      · rw [if_neg hmin]
        by_cases hgone : c.Cuts ∧ c.cutFrom ≤ x / 4096 ∨ c.Wipes f x
        · exact (hbyte x).1 hgone
        · obtain ⟨hcut, hwipes⟩ := not_or.1 hgone
          rw [(hbyte x).2 hcut hwipes]
          by_cases hold : c.oldsize ≤ x
          · exact (hpast x hold fun hcuts => not_le.1 fun hge => hcut ⟨hcuts, hge⟩).resolve_right hwipes
          · exact FileTree.byte_hole (c.between (by omega) (by omega) hcut hwipes)
    · rw [hblock b o hb ho]
      by_cases hin : c.Clears ∧ b = c.wipedBlock f ∧ c.newsize % 4096 ≤ o
      · rw [if_pos hin]
        obtain ⟨hclears, rfl, htail⟩ := hin
        cases hslot : f.tree.slot (c.newsize / 4096) with
        | some e => exact absurd (c.wipedBlock_mapped hslot).symm (hspares _ _ hslot)
        | none =>
            rw [c.wipedBlock_hole hslot] at hspares ⊢
            rcases hhole hclears hslot o htail ho with hz | ⟨p, e, -, hp, hp0⟩
            · exact hz.symm
            · exact absurd hp0 (hspares p e hp)
      · rw [if_neg hin]

/-- The checksums are right. -/
theorem novaSetsize_csums_iff (hzero : l.novaGetBlockOff 0 .b4K .data = 0) (hcsum : c.dataCsum = true) :
    (∀ s b strp, (c.novaSetsize l f m).csums s b strp = if c.tailBlock f = some b ∧ strp < 8 then
        stripeCrc (l.blockBytes (c.novaSetsize l f m).mem b) (512 * strp) else s b strp) ↔
      (c.Clears → f.tree.slot (c.newsize / 4096) = none → c.kmalloc = false) ∧
        ∀ b, c.tailBlock f = some b → c.kmalloc = true ∧ l.novaGetBlockOff b .b4K .data = 4096 * b := by
  by_cases hclears : c.Clears
  · have hdone := novaSetsize_csums (m := m) (f := f) hzero hclears hcsum
    obtain ⟨v, hv⟩ : ∃ v, v ≠ stripeCrc (l.blockBytes (c.novaSetsize l f m).mem (c.wipedBlock f)) (512 * 0) := by
      rcases eq_or_ne (stripeCrc (l.blockBytes (c.novaSetsize l f m).mem (c.wipedBlock f)) (512 * 0)) 0 with hcrc | hcrc
      · exact ⟨1, by rw [hcrc]; decide⟩
      · exact ⟨0, hcrc.symm⟩
    constructor
    · intro h
      refine ⟨fun _ hslot => ?_, fun b hb => ?_⟩
      · by_contra hk
        have hno : c.tailBlock f ≠ some (novaGetBlocknr (l.novaGetBlockOff (c.wipedBlock f) .b4K .data)) := fun hsome => by
          obtain ⟨-, e, he, -⟩ := SetsizeCall.tailBlock_eq_some.1 hsome
          rw [hslot] at he
          cases he
        have hcrc := (hdone (fun _ _ => v) (novaGetBlocknr (l.novaGetBlockOff (c.wipedBlock f) .b4K .data)) 0).symm.trans
          (h (fun _ _ => v) _ 0)
        rw [if_pos ⟨by simpa using hk, rfl, by decide⟩, if_neg fun hin => hno hin.1] at hcrc
        exact hv hcrc.symm
      · obtain ⟨-, e, he, rfl⟩ := SetsizeCall.tailBlock_eq_some.1 hb
        rw [← novaGetBlocknr_eq_iff]
        have hcrc := (hdone (fun _ _ => v) (c.wipedBlock f) 0).symm.trans (h (fun _ _ => v) _ 0)
        rw [if_pos (⟨hb, by decide⟩ : _ ∧ _)] at hcrc
        by_contra hnot
        rw [if_neg fun hin => hnot ⟨hin.1, hin.2.1.symm⟩] at hcrc
        exact hv hcrc
    · rintro ⟨hhole, hplace⟩ s b strp
      rw [hdone s b strp]
      cases hslot : f.tree.slot (c.newsize / 4096) with
      | none =>
          have hk := hhole hclears hslot
          have hno : c.tailBlock f ≠ some b := fun hsome => by
            obtain ⟨-, e, he, -⟩ := SetsizeCall.tailBlock_eq_some.1 hsome
            rw [hslot] at he
            cases he
          rw [hk, if_neg (by simp), if_neg fun hin => hno hin.1]
      | some e =>
          have htail : ∀ b, c.tailBlock f = some b ↔ b = c.wipedBlock f := fun b => by
            rw [SetsizeCall.tailBlock_eq_some]
            refine ⟨?_, fun hb => ⟨hclears, e, hslot, hb⟩⟩
            rintro ⟨-, -, -, hb⟩
            exact hb
          obtain ⟨hk, hoff⟩ := hplace _ ((htail _).2 rfl)
          rw [novaGetBlocknr_eq_iff.2 hoff]
          by_cases hb : b = c.wipedBlock f ∧ strp < 8
          · rw [if_pos ⟨hk, hb⟩, if_pos ⟨(htail b).2 hb.1, hb.2⟩, hb.1]
          · rw [if_neg fun hin => hb hin.2, if_neg fun hin => hb ⟨(htail b).1 hin.1, hin.2⟩]
  · have hno : ∀ b, c.tailBlock f ≠ some b := fun b hsome => hclears (SetsizeCall.tailBlock_eq_some.1 hsome).1
    refine iff_of_true (fun s b strp => ?_) ⟨fun h => absurd h hclears, fun b hb => absurd hb (hno b)⟩
    rw [((novaSetsize_cleared hzero).2 hclears).2, if_neg fun hin => hno b hin.1]
    rfl

end

/-- A device of sixteen pages, half of them for data. -/
def smallDevice : PmemDevice := ⟨2 ^ 20, 2 ^ 16⟩

theorem smallDevice_ok : DevicesOk [smallDevice] := by
  refine ⟨?_, ?_, ?_, by simp⟩
  all_goals
    intro d hd
    rw [List.mem_singleton.1 hd]
    decide

/-- A file with its first page in block 3. -/
def firstPage : FileTree := ⟨(Radix.empty Nat).set 0 64, fun _ => writeEntry 0 1 3 1, [], [], []⟩

theorem firstPage_slot {p x : Nat} (h : firstPage.tree.slot p = some x) : p = 0 ∧ x = 64 := by
  by_cases hp : p = 0
  · subst hp
    have hslot : firstPage.tree.slot 0 = some 64 := by decide
    exact ⟨rfl, Option.some.inj (h.symm.trans hslot)⟩
  · have hnone : firstPage.tree.slot p = none := Function.update_of_ne hp ..
    rw [h] at hnone
    cases hnone

/-- From 3000 bytes to 100. -/
def shrinkTo100 : SetsizeCall := ⟨3000, 100, 1, [], true, true, fun _ => 0⟩

end Parfs
