/-
What protecting a write leaves in the slots, and what a verification makes of them.

Every step stores to the slots of a run of blocks: `alignedCopy_apply` says which and what.  A
range is right when the slot of each of its pages has the checksums of the page as the write
leaves it and no other slot changes.  The last step stores one slot more, that of the block after
the range, when nothing is left for it: the range starts inside a page, goes on past it, and ends
with a page.

A verification compares all blocks with the slot of the first one.  So it accepts what was stored
for a run of blocks exactly when they all have the same checksums.
-/
import Parfs.Lib.Crc
import Parfs.Checksum

namespace Parfs

open Lib

variable {s : CsumSlots} {p q : ByteMem}

/-- Stripes of the same bytes. -/
theorem stripeCrc_congr {a b : Nat} (h : ∀ o < 512, p (a + o) = q (b + o)) : stripeCrc p a = stripeCrc q b := by
  refine congrArg (crc32c 1) (List.map_congr_left fun o ho => ?_)
  exact h o (List.mem_range.1 ho)

/-- Stripes that differ in one byte. -/
theorem stripeCrc_ne {a k : Nat} (hk : k < 512) (hsame : ∀ o < 512, o ≠ k → p (a + o) = q (a + o))
    (hne : p (a + k) ≠ q (a + k)) : stripeCrc p a ≠ stripeCrc q a := by
  have hsplit : ∀ m : ByteMem, m.read a 512 = m.read a k ++ m (a + k) :: m.read (a + (k + 1)) (512 - (k + 1)) := by
    intro m
    have hrest : m.read (a + k) (512 - k) = m (a + k) :: m.read (a + (k + 1)) (512 - (k + 1)) := by
      rw [show 512 - k = 1 + (512 - (k + 1)) by omega, ByteMem.read_append]
      rfl
    rw [← hrest, ← ByteMem.read_append, Nat.add_sub_cancel' hk.le]
  have hbefore : p.read a k = q.read a k := by
    refine ByteMem.read_congr fun x hlo hhi => ?_
    have hx := hsame (x - a) (by omega) (by omega)
    rwa [Nat.add_sub_cancel' hlo] at hx
  have hafter : p.read (a + (k + 1)) (512 - (k + 1)) = q.read (a + (k + 1)) (512 - (k + 1)) := by
    refine ByteMem.read_congr fun x hlo hhi => ?_
    have hx := hsame (x - a) (by omega) (by omega)
    rwa [Nat.add_sub_cancel' (by omega)] at hx
  unfold stripeCrc
  rw [hsplit p, hsplit q, hbefore, hafter]
  exact crc32c_ne_of_byte _ _ _ hne

/-- What a step does to the slots: it stores the checksums of the blocks from `lo` to `hi`. -/
def Stores (run : CsumSlots → CsumSlots) (lo hi : Nat) (crc : Nat → Nat → UInt32) : Prop :=
  ∀ s b strp, run s b strp = if lo ≤ b ∧ b < hi ∧ strp < 8 then crc b strp else s b strp

namespace Stores

variable {run run' : CsumSlots → CsumSlots} {lo mid hi : Nat} {crc crc' : Nat → Nat → UInt32}

theorem none (lo : Nat) : Stores (fun s => s) lo lo crc := by
  intro s b strp
  rw [if_neg (by omega)]

/-- One step after the other. -/
theorem comp (h : Stores run lo mid crc) (h' : Stores run' mid hi crc) (hlo : lo ≤ mid) (hhi : mid ≤ hi) :
    Stores (fun s => run' (run s)) lo hi crc := by
  intro s b strp
  dsimp only
  rw [h', h]
  by_cases hlater : mid ≤ b ∧ b < hi ∧ strp < 8
  · rw [if_pos hlater, if_pos (by omega)]
  · rw [if_neg hlater]
    by_cases hfirst : lo ≤ b ∧ b < mid ∧ strp < 8
    · rw [if_pos hfirst, if_pos (by omega)]
    · rw [if_neg hfirst, if_neg (by omega)]

theorem congr (h : Stores run lo hi crc) (hcrc : ∀ b, lo ≤ b → b < hi → ∀ strp < 8, crc b strp = crc' b strp) :
    Stores run lo hi crc' := by
  intro s b strp
  rw [h s b strp]
  by_cases hb : lo ≤ b ∧ b < hi ∧ strp < 8
  · rw [if_pos hb, if_pos hb, hcrc b hb.1 hb.2.1 strp hb.2.2]
  · rw [if_neg hb, if_neg hb]

theorem store (blocknr : Nat) (crc : Nat → UInt32) :
    Stores (fun s => s.store blocknr 8 crc) blocknr (blocknr + 1) (fun _ => crc) := by
  intro s b strp
  dsimp only [CsumSlots.store]
  by_cases hb : b = blocknr ∧ strp < 8
  · rw [if_pos hb, if_pos (by omega)]
  · rw [if_neg hb, if_neg (by omega)]

end Stores

/-- The checksums of blocks that lie one after the other, the first one, `blocknr`, at `ptr`. -/
def blocksCrc (p : ByteMem) (blocknr ptr : Nat) : Nat → Nat → UInt32 := fun b strp =>
  stripeCrc p (ptr + 4096 * (b - blocknr) + 512 * strp)

theorem blocksCrc_succ (p : ByteMem) (ptr strp : Nat) {blocknr b : Nat} (hb : blocknr + 1 ≤ b) :
    blocksCrc p (blocknr + 1) (ptr + 4096) b strp = blocksCrc p blocknr ptr b strp := by
  unfold blocksCrc
  congr 1
  omega

/-- Storing a block and then the ones behind it. -/
theorem Stores.blocks_succ {r r' : CsumSlots → CsumSlots} {blocknr ptr blocks : Nat}
    (h : Stores r blocknr (blocknr + 1) (blocksCrc p blocknr ptr))
    (h' : Stores r' (blocknr + 1) (blocknr + 1 + blocks) (blocksCrc p (blocknr + 1) (ptr + 4096))) :
    Stores (fun s => r' (r s)) blocknr (blocknr + (blocks + 1)) (blocksCrc p blocknr ptr) := by
  have hrest := h'.congr fun b hb _ strp _ => blocksCrc_succ p ptr strp hb
  have hall := h.comp hrest (Nat.le_succ _) (Nat.le_add_right _ _)
  rwa [Nat.add_assoc, Nat.add_comm 1 blocks] at hall

theorem stores_stripeBlocks (zeroCsum : Nat → UInt32) (blocks blocknr ptr : Nat) :
    Stores (stripeBlocks zeroCsum p false blocks blocknr ptr) blocknr (blocknr + blocks)
      (blocksCrc p blocknr ptr) := by
  induction blocks generalizing blocknr ptr with
  | zero => exact Stores.none _
  | succ blocks ih =>
      refine Stores.blocks_succ (r := fun s => s.store blocknr 8 fun strp => stripeCrc p (ptr + 512 * strp))
        ?_ (ih (blocknr + 1) (ptr + 4096))
      refine (Stores.store blocknr fun strp => stripeCrc p (ptr + 512 * strp)).congr fun b hlo hhi strp _ => ?_
      obtain rfl : b = blocknr := by omega
      rw [blocksCrc, Nat.sub_self, Nat.mul_zero, Nat.add_zero]

/-- What `nova_update_block_csum` does for whole blocks. -/
theorem stores_novaUpdateBlockCsum (zeroCsum : Nat → UInt32) (blocks blocknr ptr : Nat) :
    Stores (fun s => (novaUpdateBlockCsum zeroCsum p false (4096 * blocks) blocknr ptr s).2)
      blocknr (blocknr + blocks) (blocksCrc p blocknr ptr) := by
  intro s b strp
  have hblocks : 4096 * blocks / 512 = 8 * blocks := by omega
  dsimp only [novaUpdateBlockCsum]
  rw [if_neg (by omega), hblocks]
  dsimp only [novaStripeCsumCrc, CsumSlots.store]
  rw [if_neg (by omega), Nat.mul_div_cancel_left _ (by decide)]
  exact stores_stripeBlocks zeroCsum blocks blocknr ptr s b strp

namespace ProtectCall

variable {f : FileTree} {data : Nat → ByteMem} {c : ProtectCall}

theorem stores_protectBlock (ptr blocknr : Nat) :
    Stores (c.protectBlock p ptr blocknr) blocknr (blocknr + 1) (blocksCrc p blocknr ptr) :=
  stores_novaUpdateBlockCsum c.zeroCsum 1 blocknr ptr

theorem stores_alignedCopy (blocks blocknr ubuf : Nat) :
    Stores (c.alignedCopy blocks blocknr ubuf) blocknr (blocknr + blocks) (blocksCrc c.ubufCopy blocknr ubuf) := by
  induction blocks generalizing blocknr ubuf with
  | zero => exact Stores.none _
  | succ blocks ih =>
      exact Stores.blocks_succ (r := c.protectBlock c.ubufCopy ubuf blocknr) (stores_protectBlock ubuf blocknr)
        (ih (blocknr + 1) (ubuf + 4096))

/-! ### The pages of a write -/

/-- A byte of the file before the write; nothing is mapped in a hole. -/
def oldByte (f : FileTree) (data : Nat → ByteMem) (a : Nat) : UInt8 :=
  match f.tree.slot (a / 4096) with
  | none => 0
  | some entry => data (getNvmm (f.entries entry) (a / 4096)) (a % 4096)

/-- A page as the write leaves it. -/
def finalPage (f : FileTree) (data : Nat → ByteMem) (c : ProtectCall) (page : Nat) : ByteMem := fun o =>
  let a := 4096 * page + o
  if c.pos ≤ a ∧ a < c.pos + c.count then c.ubufCopy (a - c.pos) else oldByte f data a

/-- **The checksums of a write are exact, and its own.** -/
structure Exact (f : FileTree) (data : Nat → ByteMem) (c : ProtectCall) (s s' : CsumSlots) : Prop where
  /-- the slot of each page has the checksums of what the page becomes -/
  written : ∀ i < c.numBlocks, ∀ strp < 8,
    s' (c.blocknr + i) strp = stripeCrc (finalPage f data c (c.pos / 4096 + i)) (512 * strp)
  /-- no other slot changes -/
  others : ∀ b, (b < c.blocknr ∨ c.blocknr + c.numBlocks ≤ b) → ∀ strp < 8, s' b strp = s b strp

/-- The checksums a write is to leave, by block. -/
def finalCrc (f : FileTree) (data : Nat → ByteMem) (c : ProtectCall) : Nat → Nat → UInt32 := fun b strp =>
  stripeCrc (finalPage f data c (c.pos / 4096 + (b - c.blocknr))) (512 * strp)

theorem exact_of_stores {run : CsumSlots → CsumSlots}
    (h : Stores run c.blocknr (c.blocknr + c.numBlocks) (finalCrc f data c)) (s : CsumSlots) :
    Exact f data c s (run s) where
  written i hi strp hstrp := by
    rw [h, if_pos (by omega), finalCrc, Nat.add_sub_cancel_left]
  others b hb strp hstrp := by
    rw [h, if_neg (by omega)]

/-- A page of the user's. -/
theorem finalPage_user (ubuf : Nat) {page : Nat} (hlo : c.pos + ubuf = 4096 * page) (hhi : ubuf + 4096 ≤ c.count)
    {o : Nat} (ho : o < 4096) : finalPage f data c page o = c.ubufCopy (ubuf + o) := by
  unfold finalPage
  dsimp only
  rw [if_pos (by omega)]
  congr 1
  omega

/-- Whole pages have the user's checksums. -/
theorem blocksCrc_user {blocknr ubuf blocks b strp : Nat} (hlo : c.blocknr ≤ blocknr)
    (hpos : c.pos + ubuf = 4096 * (c.pos / 4096 + (blocknr - c.blocknr))) (hhi : ubuf + 4096 * blocks ≤ c.count)
    (hb : blocknr ≤ b) (hb' : b < blocknr + blocks) (hstrp : strp < 8) :
    blocksCrc c.ubufCopy blocknr ubuf b strp = finalCrc f data c b strp := by
  refine stripeCrc_congr fun o ho => ?_
  rw [finalPage_user (ubuf + 4096 * (b - blocknr)) (by omega) (by omega) (by omega)]
  congr 1
  omega

/-- A buffer with the page in it has its checksums. -/
theorem blocksCrc_page {b strp : Nat}
    (hpage : ∀ o < 4096, p o = finalPage f data c (c.pos / 4096 + (b - c.blocknr)) o) (hstrp : strp < 8) :
    blocksCrc p b 0 b strp = finalCrc f data c b strp := by
  refine stripeCrc_congr fun o ho => ?_
  rw [Nat.sub_self, Nat.mul_zero, Nat.add_zero, Nat.zero_add]
  exact hpage _ (by omega)

/-! ### The steps -/

/-- Part of a page from the file. -/
theorem loadOld_ok {blockbuf : ByteMem} {index offset len : Nat}
    (h : c.loadOld f data blockbuf index offset len = .ok p) (hlen : offset + len ≤ 4096) (o : Nat) :
    p o = if offset ≤ o ∧ o < offset + len then oldByte f data (4096 * index + o) else blockbuf o := by
  by_cases ho : offset ≤ o ∧ o < offset + len
  · rw [if_pos ho]
    obtain ⟨k, rfl⟩ : ∃ k, o = offset + k := ⟨o - offset, by omega⟩
    have hpage : (4096 * index + (offset + k)) / 4096 = index := by omega
    have hin : (4096 * index + (offset + k)) % 4096 = offset + k := by omega
    dsimp only [oldByte]
    rw [hpage, hin]
    unfold loadOld at h
    cases hslot : f.tree.slot index with
    | none =>
        simp only [hslot] at h
        cases h
        rw [ByteMem.write_of_inside (by simp; omega), List.getD_eq_getElem _ _ (by simp; omega), List.getElem_replicate]
    | some entry =>
        simp only [hslot] at h
        split at h
        · cases h
        · cases h
          rw [ByteMem.write_of_inside (by simp; omega), List.getD_eq_getElem _ _ (by simp; omega)]
          simp [ByteMem.read]
  · rw [if_neg ho]
    unfold loadOld at h
    split at h
    · cases h
      exact ByteMem.write_of_outside (by simp; omega)
    · split at h
      · cases h
      · cases h
        exact ByteMem.write_of_outside (by simp; omega)

/-- The bytes of the user's in the buffer. -/
theorem write_user {blockbuf : ByteMem} {offset ubuf len : Nat} (o : Nat) :
    blockbuf.write offset (c.ubufCopy.read ubuf len) o =
      if offset ≤ o ∧ o < offset + len then c.ubufCopy (ubuf + (o - offset)) else blockbuf o := by
  by_cases ho : offset ≤ o ∧ o < offset + len
  · rw [if_pos ho]
    obtain ⟨k, rfl⟩ : ∃ k, o = offset + k := ⟨o - offset, by omega⟩
    rw [ByteMem.write_of_inside (by simp; omega), List.getD_eq_getElem _ _ (by simp; omega), Nat.add_sub_cancel_left]
    simp [ByteMem.read]
  · rw [if_neg ho]
    exact ByteMem.write_of_outside (by simp; omega)

/-- What comes before the last page's end is in the buffer; the last step adds what the file has
behind it. -/
theorem protectLast_ok {blockbuf : ByteMem} {blocknr : Nat} {s₀ : CsumSlots}
    (h : (c.protectLast f data blockbuf blocknr s₀).1 = 0) :
    ∃ q : ByteMem, (∀ s, c.protectLast f data blockbuf blocknr s = (0, c.protectBlock q 0 blocknr s)) ∧
      ∀ o < 4096, q o =
        if (c.pos + c.count) % 4096 ≠ 0 ∧ (c.pos + c.count) % 4096 ≤ o then
          oldByte f data (4096 * (c.pos / 4096 + c.numBlocks - 1) + o)
        else blockbuf o := by
  have hedge : (c.pos + c.count) % 4096 < 4096 := Nat.mod_lt _ (by decide)
  obtain ⟨loaded, hload⟩ : ∃ loaded, (if (c.pos + c.count) % 4096 ≠ 0 then
      c.loadOld f data blockbuf (c.pos / 4096 + c.numBlocks - 1) ((c.pos + c.count) % 4096)
        (4096 - (c.pos + c.count) % 4096)
    else .ok blockbuf) = loaded := ⟨_, rfl⟩
  dsimp only [protectLast] at h ⊢
  rw [hload] at h ⊢
  cases loaded with
  | error e =>
      have hcode := e.code_pos
      dsimp only at h
      omega
  | ok q =>
      refine ⟨q, fun s => rfl, fun o ho => ?_⟩
      by_cases hz : (c.pos + c.count) % 4096 ≠ 0
      · rw [if_pos hz] at hload
        rw [loadOld_ok hload (by omega) o]
        by_cases hin : (c.pos + c.count) % 4096 ≤ o
        · rw [if_pos (by omega), if_pos ⟨hz, hin⟩]
        · rw [if_neg (by omega), if_neg (by omega)]
      · rw [if_neg hz] at hload
        cases hload
        rw [if_neg (by omega)]

/-- The last page, when the buffer holds what comes before the end. -/
theorem protectLast_stores {blockbuf : ByteMem} {blocknr : Nat} {s₀ : CsumSlots} (hcount : 0 < c.count)
    (h : (c.protectLast f data blockbuf blocknr s₀).1 = 0) (hnr : blocknr + 1 = c.blocknr + c.numBlocks)
    (hpage : ∀ o < 4096, 4096 * (c.pos / 4096 + c.numBlocks - 1) + o < c.pos + c.count →
      blockbuf o = finalPage f data c (c.pos / 4096 + c.numBlocks - 1) o) :
    Stores (fun s => (c.protectLast f data blockbuf blocknr s).2) blocknr (blocknr + 1) (finalCrc f data c) := by
  obtain ⟨q, hq, hbyte⟩ := protectLast_ok h
  intro s b strp
  dsimp only
  rw [hq s]
  refine (stores_protectBlock 0 blocknr).congr (fun b hlo hhi strp hstrp => ?_) s b strp
  obtain rfl : b = blocknr := by omega
  refine blocksCrc_page (fun o ho => ?_) hstrp
  have hn : c.numBlocks = (c.pos % 4096 + c.count - 1) / 4096 + 1 := rfl
  have hindex : c.pos / 4096 + (b - c.blocknr) = c.pos / 4096 + c.numBlocks - 1 := by omega
  rw [hindex, hbyte o ho]
  by_cases hend : (c.pos + c.count) % 4096 ≠ 0 ∧ (c.pos + c.count) % 4096 ≤ o
  · rw [if_pos hend, finalPage, if_neg (by omega)]
  · rw [if_neg hend]
    exact hpage o ho (by omega)

/-- The first page, in the buffer up to the end of the range. -/
theorem firstPage_ok {blockbuf : ByteMem}
    (h : (if c.pos % 4096 ≠ 0 then
        c.loadOld f data (blockbuf.write (c.pos % 4096) (c.ubufCopy.read 0 (min (4096 - c.pos % 4096) c.count)))
          (c.pos / 4096) 0 (c.pos % 4096)
      else .ok (blockbuf.write (c.pos % 4096) (c.ubufCopy.read 0 (min (4096 - c.pos % 4096) c.count)))) = .ok p)
    {o : Nat} (ho : o < 4096) (hend : o < c.pos % 4096 + c.count) :
    p o = finalPage f data c (c.pos / 4096) o := by
  have huser : p o = if o < c.pos % 4096 then oldByte f data (4096 * (c.pos / 4096) + o)
      else c.ubufCopy (0 + (o - c.pos % 4096)) := by
    by_cases hz : c.pos % 4096 ≠ 0
    · rw [if_pos hz] at h
      rw [loadOld_ok h (by omega) o, write_user]
      by_cases hlow : o < c.pos % 4096
      · rw [if_pos (by omega), if_pos hlow]
      · rw [if_neg (by omega), if_pos (by omega), if_neg hlow]
    · rw [if_neg hz] at h
      cases h
      rw [write_user, if_pos (by omega), if_neg (by omega)]
  rw [huser]
  dsimp only [finalPage]
  by_cases hlow : o < c.pos % 4096
  · rw [if_pos hlow, if_neg (by omega)]
  · rw [if_neg hlow, if_pos (by omega)]
    congr 1
    omega

/-- Nothing is left for the last step: the range starts inside a page, goes on past it and ends
with a page. -/
def NothingLeft (c : ProtectCall) : Prop :=
  c.pos % 4096 ≠ 0 ∧ (c.pos + c.count) % 4096 = 0 ∧ 1 < c.numBlocks

/-- All pages but a last one that is covered in part. -/
theorem protectRest_stores {blockbuf : ByteMem} {s₀ : CsumSlots} (hcount : 0 < c.count)
    (h : (c.protectRest f data blockbuf s₀).1 = 0) (hn : c.numBlocks ≠ 1)
    (hpage : ∀ o < 4096, o < c.pos % 4096 + c.count → blockbuf o = finalPage f data c (c.pos / 4096) o) :
    ((c.pos + c.count) % 4096 ≠ 0 →
      Stores (fun s => (c.protectRest f data blockbuf s).2) c.blocknr (c.blocknr + c.numBlocks) (finalCrc f data c)) ∧
    ((c.pos + c.count) % 4096 = 0 → ∃ run q, Stores run c.blocknr (c.blocknr + c.numBlocks) (finalCrc f data c) ∧
      ∀ s, (c.protectRest f data blockbuf s).2 = c.protectBlock q 0 (c.blocknr + c.numBlocks) (run s)) := by
  have hblocks : c.numBlocks = (c.pos % 4096 + c.count - 1) / 4096 + 1 := rfl
  have hbytes : min (4096 - c.pos % 4096) c.count = 4096 - c.pos % 4096 := by omega
  unfold protectRest at h ⊢
  rw [hbytes] at h ⊢
  dsimp only at h ⊢
  rw [if_neg (by omega)] at h
  generalize hk : (c.count - (4096 - c.pos % 4096)) / 4096 = k at h ⊢
  -- the first page and the ones that are whole
  have hfirst : Stores (c.protectBlock blockbuf 0 c.blocknr) c.blocknr (c.blocknr + 1) (finalCrc f data c) := by
    refine (stores_protectBlock 0 c.blocknr).congr fun b hlo hhi strp hstrp => ?_
    obtain rfl : b = c.blocknr := by omega
    refine blocksCrc_page (fun o ho => ?_) hstrp
    rw [Nat.sub_self, Nat.add_zero]
    exact hpage o ho (by omega)
  have hwhole : Stores (c.alignedCopy k (c.blocknr + 1) (4096 - c.pos % 4096)) (c.blocknr + 1) (c.blocknr + 1 + k)
      (finalCrc f data c) :=
    (stores_alignedCopy k (c.blocknr + 1) _).congr fun b hlo hhi strp hstrp =>
      blocksCrc_user (by omega) (by omega) (by omega) hlo hhi hstrp
  have hrun := hfirst.comp hwhole (by omega) (by omega)
  constructor
  · intro hend
    have hlast := protectLast_stores hcount h (by omega) fun o ho ho' => by
      rw [write_user, if_pos (by omega)]
      dsimp only [finalPage]
      rw [if_pos (by omega)]
      congr 1
      omega
    have hall := hrun.comp hlast (by omega) (by omega)
    rw [show c.blocknr + c.numBlocks = c.blocknr + 1 + k + 1 by omega]
    intro s b strp
    dsimp only
    rw [if_neg (by omega)]
    exact hall s b strp
  · intro hend
    obtain ⟨q, hq, -⟩ := protectLast_ok h
    rw [show c.blocknr + c.numBlocks = c.blocknr + 1 + k by omega]
    refine ⟨_, q, hrun, fun s => ?_⟩
    rw [if_neg (by omega), hq]

/-- What a call that succeeds does to the slots. -/
theorem novaProtectFileData_stores {s₀ : CsumSlots} (hcount : 0 < c.count)
    (h : (novaProtectFileData f data c s₀).1 = 0) :
    (¬c.NothingLeft → Stores (fun s => (novaProtectFileData f data c s).2) c.blocknr (c.blocknr + c.numBlocks)
      (finalCrc f data c)) ∧
    (c.NothingLeft → ∃ run q, Stores run c.blocknr (c.blocknr + c.numBlocks) (finalCrc f data c) ∧
      ∀ s, (novaProtectFileData f data c s).2 = c.protectBlock q 0 (c.blocknr + c.numBlocks) (run s)) := by
  have hblocks : c.numBlocks = (c.pos % 4096 + c.count - 1) / 4096 + 1 := rfl
  unfold novaProtectFileData at h ⊢
  dsimp only at h ⊢
  by_cases haligned : c.pos % 4096 = 0 ∧ (c.pos + c.count) % 4096 = 0
  · simp only [if_pos haligned]
    refine ⟨fun _ => ?_, fun hleft => absurd haligned.1 hleft.1⟩
    have hall := stores_alignedCopy (c := c) (c.count / 4096) c.blocknr 0
    rw [show c.blocknr + c.numBlocks = c.blocknr + c.count / 4096 by omega]
    exact hall.congr fun b hlo hhi strp hstrp => blocksCrc_user (by omega) (by omega) (by omega) hlo hhi hstrp
  · simp only [if_neg haligned] at h ⊢
    cases hbuf : c.kmalloc with
    | none =>
        rw [hbuf] at h
        have hcode := Errno.enomem.code_pos
        dsimp only at h
        omega
    | some blockbuf =>
        rw [hbuf] at h
        dsimp only at h ⊢
        obtain ⟨loaded, hload⟩ : ∃ loaded, (if c.pos % 4096 ≠ 0 then
            c.loadOld f data (blockbuf.write (c.pos % 4096) (c.ubufCopy.read 0 (min (4096 - c.pos % 4096) c.count)))
              (c.pos / 4096) 0 (c.pos % 4096)
          else .ok (blockbuf.write (c.pos % 4096) (c.ubufCopy.read 0 (min (4096 - c.pos % 4096) c.count)))) =
            loaded := ⟨_, rfl⟩
        rw [hload] at h ⊢
        cases loaded with
        | error e =>
            have hcode := e.code_pos
            dsimp only at h
            omega
        | ok p =>
            dsimp only at h ⊢
            have hpage : ∀ o < 4096, o < c.pos % 4096 + c.count → p o = finalPage f data c (c.pos / 4096) o :=
              fun o ho hend => firstPage_ok hload ho hend
            by_cases hone : c.numBlocks = 1
            · simp only [if_pos hone] at h ⊢
              refine ⟨fun _ => ?_, fun hleft => absurd hone (Nat.ne_of_gt hleft.2.2)⟩
              have hindex : c.pos / 4096 + c.numBlocks - 1 = c.pos / 4096 := by omega
              rw [hone]
              refine protectLast_stores hcount h (by omega) fun o ho hend => ?_
              rw [hindex] at hend ⊢
              exact hpage o ho (by omega)
            · simp only [if_neg hone] at h ⊢
              have hrest := protectRest_stores hcount h hone hpage
              refine ⟨fun hleft => hrest.1 fun hend => hleft ⟨?_, hend, ?_⟩, fun hleft => hrest.2 hleft.2.1⟩
              · exact fun hz => haligned ⟨hz, hend⟩
              · omega

/-- When nothing is left, the last step stores what the buffer still has. -/
theorem not_exact (s₀ : CsumSlots) (hcount : 0 < c.count) (h : (novaProtectFileData f data c s₀).1 = 0)
    (hleft : c.NothingLeft) : ¬∀ s, Exact f data c s (novaProtectFileData f data c s).2 := by
  intro hexact
  obtain ⟨run, q, -, hlast⟩ := (novaProtectFileData_stores hcount h).2 hleft
  -- the slot behind the range would keep whatever it has, and gets the same from any start
  have hkept : ∀ v : UInt32, stripeCrc q 0 = v := by
    intro v
    have hothers := (hexact fun _ _ => v).others (c.blocknr + c.numBlocks) (Or.inr le_rfl) 0 (by decide)
    rw [hlast, stores_protectBlock, if_pos (by omega), blocksCrc, Nat.sub_self] at hothers
    exact hothers
  exact absurd ((hkept 0).symm.trans (hkept 1)) (by decide)

end ProtectCall

section Protect

variable {f : FileTree} {data : Nat → ByteMem} {c : ProtectCall}

/-- **A write's checksums are exact and its own** unless nothing is left for the last step. -/
theorem novaProtectFileData_exact_iff (s₀ : CsumSlots) (hcount : 0 < c.count) (h : (novaProtectFileData f data c s₀).1 = 0) :
    (∀ s, c.Exact f data s (novaProtectFileData f data c s).2) ↔ ¬c.NothingLeft := by
  constructor
  · exact fun hexact hleft => ProtectCall.not_exact s₀ hcount h hleft hexact
  · intro hleft s
    exact ProtectCall.exact_of_stores ((ProtectCall.novaProtectFileData_stores hcount h).1 hleft) s

/-- An empty file. -/
def noPages : FileTree := ⟨Radix.empty Nat, fun _ => ⟨0, 0, 0, 0, 0, 0, 0, 0, 0, 0, 0⟩, [], [], []⟩

/-- A write of sevens from inside the first page of that file, with its first block. -/
def sevens (pos count : Nat) : ProtectCall where
  pos := pos
  count := count
  ubufCopy := fun _ => 7
  blocknr := 40
  kmalloc := some fun _ => 0
  entryCopy := fun _ => true
  zeroCsum := fun _ => 0

/-- Parts of two pages. -/
theorem novaProtectFileData_exact_parts : ¬(sevens 100 8000).NothingLeft ∧ ∀ s,
    (sevens 100 8000).Exact noPages (fun _ _ => 0) s (novaProtectFileData noPages (fun _ _ => 0) (sevens 100 8000) s).2 := by
  have hleft : ¬(sevens 100 8000).NothingLeft := fun h => absurd h.2.1 (by decide)
  exact ⟨hleft, (novaProtectFileData_exact_iff (fun _ _ => 0) (by decide) rfl).2 hleft⟩

/-- From inside the first page to the end of the second: the block after the two gets a checksum. -/
theorem novaProtectFileData_marks_next :
    ¬∀ (f : FileTree) (data : Nat → ByteMem) (c : ProtectCall) (s : CsumSlots), 0 < c.count →
      (novaProtectFileData f data c s).1 = 0 → c.Exact f data s (novaProtectFileData f data c s).2 := by
  intro h
  have hcount : 0 < (sevens 1 8191).count := by decide
  refine ProtectCall.not_exact (c := sevens 1 8191) (fun _ _ => 0) hcount rfl ⟨by decide, by decide, by decide⟩
    fun s => h noPages (fun _ _ => 0) _ s hcount rfl

end Protect

/-! ### Verifying what was stored -/

section Verify

variable {data data' : Nat → ByteMem} {kmalloc : Nat → Bool} {blocknr n : Nat}

/-- The bytes of blocks from `blocknr` on, one block after the other. -/
def blocksFrom (data : Nat → ByteMem) (blocknr : Nat) : ByteMem := fun a => data (blocknr + a / 4096) (a % 4096)

/-- The slots after `nova_update_block_csum` over `n` blocks. -/
def updatedSlots (zeroCsum : Nat → UInt32) (data : Nat → ByteMem) (blocknr n : Nat) (s : CsumSlots) : CsumSlots :=
  (novaUpdateBlockCsum zeroCsum (blocksFrom data blocknr) false (4096 * n) blocknr 0 s).2

theorem updatedSlots_apply (zeroCsum : Nat → UInt32) (data : Nat → ByteMem) (blocknr : Nat) (s : CsumSlots)
    {b strp : Nat} (hb : b < n) (hstrp : strp < 8) :
    updatedSlots zeroCsum data blocknr n s (blocknr + b) strp = stripeCrc (data (blocknr + b)) (512 * strp) := by
  refine (stores_novaUpdateBlockCsum zeroCsum n blocknr 0 s (blocknr + b) strp).trans ?_
  rw [if_pos (by omega)]
  refine stripeCrc_congr fun o ho => ?_
  dsimp only [blocksFrom]
  rw [show (0 + 4096 * (blocknr + b - blocknr) + 512 * strp + o) / 4096 = b by omega,
    show (0 + 4096 * (blocknr + b - blocknr) + 512 * strp + o) % 4096 = 512 * strp + o by omega]

theorem novaVerifyDataCsum_iff (hn : 0 < n) (hsize : 4096 * n < 2 ^ 64) :
    novaVerifyDataCsum data kmalloc s blocknr (4096 * n) = true ↔
      ∀ b < n, kmalloc b = true ∧ ∀ strp < 8, stripeCrc (data (blocknr + b)) (512 * strp) = s blocknr strp := by
  have hblocks : subU64 (4096 * n) 1 / 4096 + 1 = n := by
    rw [subU64_of_le (by omega) hsize]
    omega
  unfold novaVerifyDataCsum
  rw [hblocks]
  simp only [List.all_eq_true, List.mem_range, Bool.and_eq_true, beq_iff_eq]

/-- The blocks are the same but for one stripe, whose checksum is another. -/
structure StripeDamaged (data data' : Nat → ByteMem) (b strp : Nat) : Prop where
  same : ∀ b' o, (b' = b → o < 512 * strp ∨ 512 * strp + 512 ≤ o) → data' b' o = data b' o
  crc : stripeCrc (data' b) (512 * strp) ≠ stripeCrc (data b) (512 * strp)

/-- **A verification accepts what was stored for the blocks, and nothing else.** -/
structure VerifiesUpdate (zeroCsum : Nat → UInt32) (data : Nat → ByteMem) (kmalloc : Nat → Bool) (blocknr n : Nat)
    (s : CsumSlots) : Prop where
  accepts : novaVerifyDataCsum data kmalloc (updatedSlots zeroCsum data blocknr n s) blocknr (4096 * n) = true
  rejects : ∀ (data' : Nat → ByteMem), ∀ b < n, ∀ strp < 8, StripeDamaged data data' (blocknr + b) strp →
    novaVerifyDataCsum data' kmalloc (updatedSlots zeroCsum data blocknr n s) blocknr (4096 * n) = false

/-- The blocks have the checksums of the first one. -/
def SameCrcs (data : Nat → ByteMem) (blocknr n : Nat) : Prop :=
  ∀ b < n, ∀ strp < 8, stripeCrc (data (blocknr + b)) (512 * strp) = stripeCrc (data blocknr) (512 * strp)

theorem novaVerifyDataCsum_updated_iff (zeroCsum : Nat → UInt32) (hn : 0 < n) (hsize : 4096 * n < 2 ^ 64) :
    novaVerifyDataCsum data' kmalloc (updatedSlots zeroCsum data blocknr n s) blocknr (4096 * n) = true ↔
      ∀ b < n, kmalloc b = true ∧
        ∀ strp < 8, stripeCrc (data' (blocknr + b)) (512 * strp) = stripeCrc (data blocknr) (512 * strp) := by
  rw [novaVerifyDataCsum_iff hn hsize]
  refine forall₂_congr fun b _ => and_congr_right fun _ => forall₂_congr fun strp hstrp => ?_
  have hfirst := updatedSlots_apply zeroCsum data blocknr s hn hstrp
  rw [Nat.add_zero] at hfirst
  rw [hfirst]

/-- **Verify accepts what update wrote exactly when the blocks all have the same checksums.** -/
theorem novaVerifyDataCsum_update_iff (zeroCsum : Nat → UInt32) (data : Nat → ByteMem) (kmalloc : Nat → Bool)
    (s : CsumSlots) (hn : 0 < n) (hsize : 4096 * n < 2 ^ 64) :
    VerifiesUpdate zeroCsum data kmalloc blocknr n s ↔ (∀ b < n, kmalloc b = true) ∧ SameCrcs data blocknr n := by
  have haccepts : novaVerifyDataCsum data kmalloc (updatedSlots zeroCsum data blocknr n s) blocknr (4096 * n) = true ↔
      (∀ b < n, kmalloc b = true) ∧ SameCrcs data blocknr n := by
    rw [novaVerifyDataCsum_updated_iff zeroCsum hn hsize]
    exact forall₂_and
  constructor
  · exact fun h => haccepts.1 h.accepts
  · intro h
    refine ⟨haccepts.2 h, fun data' b hb strp hstrp hdamaged => ?_⟩
    rw [Bool.eq_false_iff, Ne, novaVerifyDataCsum_updated_iff zeroCsum hn hsize]
    intro hall
    exact hdamaged.crc (((hall b hb).2 strp hstrp).trans (h.2 b hb strp hstrp).symm)

/-- Two blocks of zeros. -/
theorem novaVerifyDataCsum_update_zeros :
    VerifiesUpdate (fun _ => 0) (fun _ _ => 0) (fun _ => true) 40 2 (fun _ _ => 0) :=
  (novaVerifyDataCsum_update_iff _ _ _ _ (by decide) (by decide)).2 ⟨fun _ _ => rfl, fun _ _ _ _ => rfl⟩

/-- Zeros, but for the first byte of block 41. -/
def oneInSecond : Nat → ByteMem := fun b o => if b = 41 ∧ o = 0 then 1 else 0

/-- Two blocks that differ in a byte are rejected as they are. -/
theorem novaVerifyDataCsum_update_rejected :
    ¬∀ (zeroCsum : Nat → UInt32) (data : Nat → ByteMem) (kmalloc : Nat → Bool) (blocknr n : Nat) (s : CsumSlots),
      0 < n → 4096 * n < 2 ^ 64 → (∀ b < n, kmalloc b = true) → VerifiesUpdate zeroCsum data kmalloc blocknr n s := by
  intro h
  have haccepts := (h (fun _ => 0) oneInSecond (fun _ => true) 40 2 (fun _ _ => 0) (by decide) (by decide)
    fun _ _ => rfl).accepts
  rw [novaVerifyDataCsum_updated_iff _ (by decide) (by decide)] at haccepts
  refine stripeCrc_ne (a := 0) (k := 0) (by decide) (fun o _ ho => ?_) (by decide) ((haccepts 1 (by decide)).2 0 (by decide))
  simp [oneInSecond, ho]

end Verify

end Parfs
